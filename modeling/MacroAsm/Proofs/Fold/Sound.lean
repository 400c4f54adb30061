import Mathlib
import MacroAsm.Proofs.Fold.Form
import MacroAsm.Proofs.Fold.Steps
import MacroAsm.Proofs.Fold.Tree
import MacroAsm.Proofs.Scope.Form
import MacroAsm.Reader

/-!
# Lines fold to sound trees

`Reader.line_occurs`: in the tree that a line is read as, every operator has its operands, apart
from the equate sign of a label, and every macro call has an argument.

Proof. The operators of a row have operands that are sound, even those that lack one
(`Term.Sound`). A step of a fold only takes complete nodes, and those are sound, so it keeps this
(`RowSound.foldRow`). From there it is an induction over the nested line, whose leaves are sound
(`adds_of_foldChild`).
-/

namespace MacroAsm

namespace Fold

/-! ## Rows -/

/-- A term with sound operands. -/
inductive Term.Sound : Term → Prop
  | mark : Sound .mark
  | leaf {n} (hleaf : ∀ o l r, n ≠ .op o l r) (hn : n.Sound) : Sound (.node n)
  | operator {o l r} (hl : ∀ n, l = some n → n.Sound) (hr : ∀ n, r = some n → n.Sound)
      (ho : o.isUnary = true → l = none) : Sound (.node (.op o l r))

def RowSound (row : List Term) : Prop := ∀ t ∈ row, t.Sound

variable {labels : Bool} {place outer : Place} {n : Node} {t : Term} {c : Scope} {o : Operator}
  {left right row terms next : List Term} {children : List Scope}

theorem sound_bare (o : Operator) : (Term.node (.bare o)).Sound :=
  .operator (fun _ h => by cases h) (fun _ h => by cases h) fun _ => rfl

theorem sound_whole (h : n.Sound) : (Term.node n).Sound := by
  cases h with
  | unary ho hn =>
    refine .operator (fun _ h => by cases h) (fun _ h => ?_) fun _ => rfl
    cases h
    exact hn
  | binary ho hl hr =>
    refine .operator (fun _ h => ?_) (fun _ h => ?_) fun h => ?_
    · cases h
      exact hl
    · cases h
      exact hr
    · rw [ho] at h
      cases h
  | text => exact .leaf (by simp) .text
  | string => exact .leaf (by simp) .string
  | number => exact .leaf (by simp) .number
  | brace => exact .leaf (by simp) .brace
  | call hargs h => exact .leaf (by simp) (.call hargs h)
  | bareLabel hname => exact .leaf (by simp) (.bareLabel hname)
  | label hname htarget => exact .leaf (by simp) (.label hname htarget)
  | equate hname hvalue => exact .leaf (by simp) (.equate hname hvalue)

theorem Term.Sound.operands {l r : Option Node} (h : (Term.node (.op o l r)).Sound) :
    (∀ n, l = some n → n.Sound) ∧ (∀ n, r = some n → n.Sound) ∧
      (o.isUnary = true → l = none) := by
  cases h with
  | leaf hleaf => exact absurd rfl (hleaf o l r)
  | operator hl hr ho => exact ⟨hl, hr, ho⟩

theorem Term.Sound.of_isComplete (h : (Term.node n).Sound) (hn : n.isComplete = true) :
    n.Sound := by
  cases h with
  | leaf _ h => exact h
  | @operator o l r hl hr ho =>
    rcases r with _ | r
    · simp [Node.isComplete] at hn
    by_cases hu : o.isUnary = true
    · rw [ho hu]
      exact .unary hu (hr r rfl)
    · rcases l with _ | l
      · simp [Node.isComplete, hu] at hn
      · rw [Bool.not_eq_true] at hu
        exact .binary hu (hl l rfl) (hr r rfl)

theorem RowSound.replace (hleft : RowSound left) (ht : t.Sound) (hright : RowSound right) :
    RowSound (left.reverse ++ t :: right) :=
  forall_mem_around.mpr ⟨hleft, ht, hright⟩

theorem RowSound.head {rest : List Term} (h : RowSound row) (hrow : row = .node n :: rest)
    (hn : n.isComplete = true) : n.Sound ∧ RowSound rest := by
  subst hrow
  exact ⟨(h _ (by simp)).of_isComplete hn, fun u hu => h u (by simp [hu])⟩

/-- What a term takes is complete, so that the term has sound operands with it too. -/
theorem RowSound.taken (h : RowSound (left.reverse ++ t :: right))
    (htaken : Taken left right t next) : RowSound next := by
  obtain ⟨hleft, ht, hright⟩ :
      RowSound left ∧ t.Sound ∧ RowSound right := forall_mem_around.mp h
  cases htaken with
  | leftOperand hl hn ho _ =>
    obtain ⟨hnSound, hrest⟩ := hleft.head hl hn
    refine hrest.replace (.operator ?_ ht.operands.2.1 fun hu => ?_) hright
    · rintro _ ⟨⟩
      exact hnSound
    · rw [ho] at hu
      cases hu
  | rightOperand hr hn _ =>
    obtain ⟨hnSound, hrest⟩ := hright.head hr hn
    refine hleft.replace (.operator ht.operands.1 ?_ ht.operands.2.2) hrest
    rintro _ ⟨⟩
    exact hnSound
  | bothOperands hl hn hr hm ho =>
    obtain ⟨hnSound, hbefore⟩ := hleft.head hl hn
    obtain ⟨hmSound, hafter⟩ := hright.head hr hm
    exact hbefore.replace (sound_whole (.binary ho hnSound hmSound)) hafter
  | bareLabel hl hname _ =>
    obtain ⟨hnameSound, hbefore⟩ := hleft.head hl hname
    exact hbefore.replace (sound_whole (.bareLabel hnameSound)) (by simp [RowSound])
  | target hl hname hr hn =>
    obtain ⟨hnameSound, hbefore⟩ := hleft.head hl hname
    obtain ⟨hnSound, hafter⟩ := hright.head hr hn
    exact hbefore.replace (sound_whole (.label hnameSound hnSound)) hafter
  | @equate name value before after hl hname hr =>
    obtain ⟨hnameSound, hbefore⟩ := hleft.head hl hname
    have hvalue : (Term.node (.unary .set value)).Sound := hright _ (by simp [hr])
    have hafter : RowSound after := fun u hu => hright u (by simp [hr, hu])
    exact hbefore.replace (sound_whole (.equate hnameSound (hvalue.operands.2.1 value rfl))) hafter

theorem RowSound.foldRow (h : RowSound row) : RowSound (foldRow labels row) := by
  have hsigns : RowSound (signs row) := forall_mem_signs (fun o _ => sound_bare o) h
  exact (foldRow_induction (P := RowSound) (fun _ _ _ _ _ h _ htaken => h.taken htaken) hsigns).1

/-! ## Scopes -/

theorem sound_of_foldTerms (hplace : ∀ name size, place ≠ .call name size) (h : RowSound terms)
    (hfold : foldTerms place terms = .ok (some n)) : ∃ m, n = wrap place m ∧ m.Sound := by
  have hrow : RowSound (Fold.foldRow (place = .line) terms) := h.foldRow
  rcases eq_of_foldTerms hplace hfold with ⟨m, hm, hcomplete, heq⟩ | ⟨-, hempty⟩
  · cases heq
    rw [hm] at hrow
    exact ⟨m, rfl, (hrow _ (by simp)).of_isComplete hcomplete⟩
  · obtain ⟨rfl, rfl⟩ := eq_of_foldEmpty hempty
    exact ⟨_, rfl, .text⟩

theorem eq_some_of_foldTerms_argument {result : Option Node}
    (hfold : foldTerms .argument terms = .ok result) : ∃ n, result = some n := by
  rcases eq_of_foldTerms (by simp) hfold with ⟨n, -, -, heq⟩ | ⟨-, hempty⟩
  · exact ⟨_, heq⟩
  · cases hempty
    exact ⟨_, rfl⟩

theorem forall_mem_of_foldChildren {P : Term → Prop}
    (h : ∀ c ∈ children, ∀ terms, foldChild place c = .ok terms → ∀ t ∈ terms, P t)
    (hfold : foldChildren place children = .ok terms) : ∀ t ∈ terms, P t := by
  induction children generalizing terms with
  | nil =>
    cases hfold
    simp
  | cons c children ih =>
    rw [List.forall_mem_cons] at h
    obtain ⟨new, rest, hnew, hrest, rfl⟩ := eq_of_foldChildren_cons hfold
    intro t ht
    rcases List.mem_append.mp ht with ht | ht
    · exact h.1 new hnew t ht
    · exact ih h.2 hrest t ht

theorem foldTerms_of_foldChild (hc : c.isScope = true) (hfold : foldChild outer c = .ok terms) :
    ∃ inner n, foldChildren (placeWithin outer c) c.children = .ok inner ∧
      foldTerms (placeWithin outer c) inner = .ok n ∧ terms = n.toList.map .node := by
  rw [foldChild_of_scope hc] at hfold
  split at hfold
  next => cases hfold
  next inner hinner =>
    obtain ⟨n, hn, rfl⟩ := ok_of_map_eq_ok hfold
    exact ⟨inner, n, hinner, hn, rfl⟩

theorem eq_singleton_of_foldChild_argument {name : String} {size : Option String}
    (hc : c.kind = .plain) (hfold : foldChild (.call name size) c = .ok terms) :
    ∃ n, terms = [.node n] := by
  have hscope : c.isScope = true := by simp [Scope.isScope, hc]
  have hplace : placeWithin (.call name size) c = .argument := by simp [placeWithin, hc]
  obtain ⟨inner, result, -, hresult, rfl⟩ := foldTerms_of_foldChild hscope hfold
  rw [hplace] at hresult
  obtain ⟨n, rfl⟩ := eq_some_of_foldTerms_argument hresult
  exact ⟨n, rfl⟩

/-- What a child of a formed scope adds to a row: a term of a form that a row starts with, and
with sound operands. What a pair of parentheses adds is complete. -/
def Adds (c : Scope) (t : Term) : Prop :=
  t.Raw ∧ t.Sound ∧ (c.kind = .plain → t.isComplete = true)

theorem sound_call {name : String} {size : Option String} (hargs : children ≠ [])
    (hplain : ∀ c ∈ children, c.kind = .plain)
    (hadds : ∀ c ∈ children, ∀ terms, foldChild (.call name size) c = .ok terms →
      ∀ t ∈ terms, Adds c t)
    (hfold : foldChildren (.call name size) children = .ok terms) :
    (Node.call name size (terms.filterMap Term.node?)).Sound := by
  have hsound : ∀ t ∈ terms, ∀ n, t.node? = some n → n.Sound := by
    refine forall_mem_of_foldChildren (fun c hc new hnew t ht n hn => ?_) hfold
    obtain ⟨-, hsound, hcomplete⟩ := hadds c hc new hnew t ht
    cases t with
    | mark => cases hn
    | node m =>
      cases hn
      exact hsound.of_isComplete (hcomplete (hplain c hc))
  refine .call ?_ fun n hn => ?_
  · rcases children with _ | ⟨c, children⟩
    · exact absurd rfl hargs
    obtain ⟨new, rest, hnew, -, rfl⟩ := eq_of_foldChildren_cons hfold
    obtain ⟨n, rfl⟩ := eq_singleton_of_foldChild_argument (hplain c (by simp)) hnew
    simp [Term.node?]
  · obtain ⟨t, ht, hnode⟩ := List.mem_filterMap.mp hn
    exact hsound t ht n hnode

theorem adds_of_foldChild {marks : Bool} (h : c.Formed marks)
    (hfold : foldChild outer c = .ok terms) : ∀ t ∈ terms, Adds c t := by
  induction h generalizing outer terms with
  | mark =>
    cases hfold
    exact List.forall_mem_singleton.mpr ⟨.mark, .mark, by simp⟩
  | operator ho =>
    rw [foldChild_of_leaf (by simp [Scope.isScope, Node.bare, ho])] at hfold
    cases hfold
    exact List.forall_mem_singleton.mpr ⟨.operator ho, sound_bare _, by simp⟩
  | @value kind depth n hkind hleaf hn hlabel =>
    rw [foldChild_of_leaf hleaf] at hfold
    cases hfold
    rw [ofLeaf_value hkind]
    exact List.forall_mem_singleton.mpr ⟨.value hn.isComplete, sound_whole hn, fun _ =>
      hn.isComplete⟩
  | @group depth children h ih =>
    obtain ⟨inner, result, hinner, hresult, rfl⟩ := foldTerms_of_foldChild rfl hfold
    rcases result with _ | n
    · simp
    have hrow : RowSound inner := forall_mem_of_foldChildren
      (fun c hc new hnew t ht => (ih c hc hnew t ht).2.1) hinner
    have hm : n.Sound := by
      rcases placeWithin_plain outer depth children with hplace | hplace
      · rw [hplace] at hresult
        obtain ⟨m, rfl, hm⟩ := sound_of_foldTerms (by simp) hrow hresult
        exact hm
      · rw [hplace] at hresult
        obtain ⟨m, rfl, hm⟩ := sound_of_foldTerms (by simp) hrow hresult
        exact hm
    exact List.forall_mem_singleton.mpr ⟨.value hm.isComplete, sound_whole hm, fun _ =>
      hm.isComplete⟩
  | brackets h ih =>
    obtain ⟨inner, result, hinner, hresult, rfl⟩ := foldTerms_of_foldChild rfl hfold
    rcases result with _ | n
    · simp
    have hplace : ∀ name size, Place.subscript ≠ .call name size := by simp
    have hrow : RowSound inner := forall_mem_of_foldChildren
      (fun c hc new hnew t ht => (ih c hc hnew t ht).2.1) hinner
    obtain ⟨m, rfl, hm⟩ := sound_of_foldTerms hplace hrow hresult
    refine List.forall_mem_singleton.mpr ⟨.index hm.isComplete, .operator ?_ ?_ ?_, by simp⟩
    · exact fun _ h => by cases h
    · rintro _ ⟨⟩
      exact hm
    · exact fun _ => rfl
  | @call depth name size args hargs hplain h ih =>
    obtain ⟨inner, result, hinner, hresult, rfl⟩ := foldTerms_of_foldChild rfl hfold
    cases hresult
    have hcall := sound_call hargs hplain (fun c hc new hnew => ih c hc hnew) hinner
    exact List.forall_mem_singleton.mpr ⟨.value rfl, sound_whole hcall, fun _ => rfl⟩

theorem adds_of_foldChildren {marks : Bool} (h : ∀ c ∈ children, c.Formed marks)
    (hfold : foldChildren place children = .ok terms) : ∀ t ∈ terms, t.Raw ∧ t.Sound :=
  forall_mem_of_foldChildren (fun c hc _ hnew t ht =>
    ⟨(adds_of_foldChild (h c hc) hnew t ht).1, (adds_of_foldChild (h c hc) hnew t ht).2.1⟩) hfold

end Fold

/-! ## Lines -/

theorem Scope.sound_of_fold {root : Scope} {n : Node} {marks : Bool}
    (h : ∀ c ∈ root.children, c.Formed marks)
    (hfold : root.fold = .ok (some n)) : n.Sound := by
  rw [Scope.fold_eq] at hfold
  split at hfold
  next => cases hfold
  next terms hterms =>
    have hrow : Fold.RowSound terms := fun t ht => (Fold.adds_of_foldChildren h hterms t ht).2
    obtain ⟨m, rfl, hm⟩ := Fold.sound_of_foldTerms (by simp) hrow hfold
    exact hm

namespace Reader

variable {r : Reader} {text : String} {n : Node}

theorem eq_of_line {result : Option Node} (h : r.line text = .ok result) :
    ∃ tokens root, scan text.toList = .ok tokens ∧
      Scope.ofTokens (cutLine text.toList) r.numeral tokens = .ok root ∧
      root.fold = .ok result := by
  unfold Reader.line Reader.notedLine at h
  simp only at h
  split at h
  next => cases h
  next tokens htokens =>
    split at h
    next => cases h
    next root hroot =>
      split at h
      next => cases h
      next node hnode =>
        cases h
        exact ⟨tokens, root, htokens, hroot, hnode⟩

theorem error_of_line {fault : Fault} (h : r.line text = .error fault) :
    scan text.toList = .error fault ∨ ∃ tokens, scan text.toList = .ok tokens ∧
      (Scope.ofTokens (cutLine text.toList) r.numeral tokens = .error fault ∨
        ∃ root obstacle, Scope.ofTokens (cutLine text.toList) r.numeral tokens = .ok root ∧
          root.fold = .error obstacle ∧ fault = obstacle.fault) := by
  unfold Reader.line Reader.notedLine at h
  simp only at h
  split at h
  next fault' hscan =>
    cases h
    exact .inl hscan
  next tokens htokens =>
    refine .inr ⟨tokens, htokens, ?_⟩
    split at h
    next fault' hnest =>
      cases h
      exact .inl hnest
    next root hroot =>
      split at h
      next obstacle hfold =>
        cases h
        exact .inr ⟨root, obstacle, hroot, hfold, rfl⟩
      next => cases h

/-- In the tree of a line every operator has its operands, apart from the equate sign of a label,
operators before their operand have nothing on their left, and every macro call has an argument. -/
theorem line_occurs {slot : Node.Slot} {p : Node} (h : r.line text = .ok (some n))
    (hp : n.Occurs slot p) :
    (∀ o left right, p = .op o left right →
      (p.isComplete = true ∨ slot = .target ∧ ∃ value, p = .unary .set value) ∧
      (o.isUnary = true → left = none)) ∧
    ∀ name size args, p = .call name size args → args ≠ [] := by
  obtain ⟨tokens, root, -, hroot, hfold⟩ := eq_of_line h
  have hroot : ∀ c ∈ root.children, c.Formed true :=
    Scope.formed_of_ofTokens (fun _ _ _ => rfl) hroot
  have hn : n.Sound := Scope.sound_of_fold hroot hfold
  rcases hn.of_occurs hp with hsound | ⟨hslot, value, rfl, hvalue⟩
  · refine ⟨fun o left right heq => ⟨.inl hsound.isComplete, fun hu => ?_⟩, ?_⟩
    · subst heq
      exact (Fold.sound_whole hsound).operands.2.2 hu
    · rintro name size args rfl
      cases hsound with
      | call hargs => exact hargs
  · refine ⟨fun o left right heq => ⟨.inr ⟨hslot, value, rfl⟩, fun _ => ?_⟩, ?_⟩
    · cases heq
      rfl
    · intro name size args heq
      cases heq

/-- In `a: = b` the equate sign lacks its left side, and is the target of the label. -/
theorem line_occurs_equate :
    ({} : Reader).line " a: = b" =
        .ok (some (.label (.text "a") (some (.unary .set (.text "b"))))) ∧
      ((Node.unary .set (.text "b")).isComplete = true ∨ Node.Slot.target = .target ∧
        ∃ value, Node.unary .set (.text "b") = .unary .set value) := by
  have hline : ({} : Reader).line " a: = b" =
      .ok (some (.label (.text "a") (some (.unary .set (.text "b"))))) := by cbv
  exact ⟨hline, ((line_occurs hline (.target .root)).1 .set none _ rfl).1⟩

end Reader

end MacroAsm
