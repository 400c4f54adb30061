import MacroAsm.Proofs.Fold.Sound
import MacroAsm.Proofs.Fold.Steps

/-!
# Label marks in folds

Only the line itself can take a mark: a scope inside it that holds one does not fold
(`formed_of_foldChild`), since a row without labels keeps its marks (`mark_mem_foldRow`). A row
without marks folds to a tree without labels (`unlabelled_of_foldTerms`).
-/

namespace MacroAsm

namespace Fold

variable {labels : Bool} {k : Nat} {place outer : Place} {n : Node} {t : Term} {c : Scope}
  {left right row terms next : List Term} {children : List Scope}

/-! ## Marks in rows without labels -/

theorem mark_mem_of_taken (h : .mark ∈ left.reverse ++ t :: right) (ht : t ≠ .mark)
    (htaken : Taken left right t next) : .mark ∈ next := by
  have hsides : .mark ∈ left ∨ .mark ∈ right := by
    simp only [List.mem_append, List.mem_reverse, List.mem_cons] at h
    rcases h with h | h | h
    · exact .inl h
    · exact absurd h.symm ht
    · exact .inr h
  cases htaken with
  | leftOperand hl => simpa [hl] using hsides
  | rightOperand hr => simpa [hr] using hsides
  | bothOperands hl _ hr => simpa [hl, hr] using hsides
  | bareLabel => exact absurd rfl ht
  | target => exact absurd rfl ht
  | equate => exact absurd rfl ht

/-- A row without labels keeps its marks. -/
theorem mark_mem_foldRow (h : .mark ∈ row) : .mark ∈ foldRow false row := by
  have hsigns : .mark ∈ signs row := mem_signs (by simp) (by simp) h
  refine (foldRow_induction (P := fun row => .mark ∈ row) ?_ hsigns).1
  intro k left t right next hmem hforemost htaken
  refine mark_mem_of_taken hmem ?_ htaken
  rintro rfl
  have hk := hforemost.looseness
  cases hk

theorem not_mark_mem_of_foldTerms {result : Option Node} (hline : place ≠ .line)
    (hcall : ∀ name size, place ≠ .call name size) (h : foldTerms place terms = .ok result) :
    .mark ∉ terms := by
  intro hmem
  have hfold : .mark ∈ foldRow (place = .line) terms := by
    rw [decide_eq_false hline]
    exact mark_mem_foldRow hmem
  rcases eq_of_foldTerms hcall h with ⟨n, hrow, -⟩ | ⟨hrow, -⟩
  · simp [hrow] at hfold
  · simp [hrow] at hfold

theorem ok_of_foldChildren (hfold : foldChildren place children = .ok terms) :
    ∀ c ∈ children, ∃ new, foldChild place c = .ok new ∧ ∀ t ∈ new, t ∈ terms := by
  induction children generalizing terms with
  | nil => simp
  | cons c children ih =>
    obtain ⟨new, rest, hnew, hrest, rfl⟩ := eq_of_foldChildren_cons hfold
    refine List.forall_mem_cons.mpr ⟨⟨new, hnew, fun t ht => List.mem_append_left _ ht⟩, ?_⟩
    intro c' hc'
    obtain ⟨new', hnew', hmem⟩ := ih hrest c' hc'
    exact ⟨new', hnew', fun t ht => List.mem_append_right _ (hmem t ht)⟩

theorem foldChild_of_label (hc : c.kind = .label) : foldChild outer c = .ok [.mark] := by
  have hscope : c.isScope = false := by simp [Scope.isScope, hc]
  have hterm : Term.ofLeaf c = .mark := by simp [Term.ofLeaf, hc]
  rw [foldChild_of_leaf hscope, hterm]

/-- A scope that folds has no mark inside, and is a mark only itself. -/
theorem formed_of_foldChild (h : c.Formed true) (hfold : foldChild outer c = .ok terms) :
    c.kind = .label ∨ c.Formed false := by
  induction h generalizing outer terms with
  | mark => exact .inl rfl
  | operator ho => exact .inr (.operator ho)
  | value hkind hleaf hn hlabel => exact .inr (.value hkind hleaf hn hlabel)
  | @group depth children h ih =>
    obtain ⟨inner, result, hinner, hresult, -⟩ := foldTerms_of_foldChild rfl hfold
    refine .inr (.group fun c hc => ?_)
    obtain ⟨new, hnew, hmem⟩ := ok_of_foldChildren hinner c hc
    apply (ih c hc hnew).resolve_left
    intro hlabel
    rw [foldChild_of_label hlabel] at hnew
    cases hnew
    have hmark : .mark ∈ inner := hmem .mark (by simp)
    rcases placeWithin_plain outer depth children with hplace | hplace
    · rw [hplace] at hresult
      exact not_mark_mem_of_foldTerms (by simp) (by simp) hresult hmark
    · rw [hplace] at hresult
      exact not_mark_mem_of_foldTerms (by simp) (by simp) hresult hmark
  | brackets h ih =>
    obtain ⟨inner, result, hinner, hresult, -⟩ := foldTerms_of_foldChild rfl hfold
    refine .inr (.brackets fun c hc => ?_)
    obtain ⟨new, hnew, hmem⟩ := ok_of_foldChildren hinner c hc
    apply (ih c hc hnew).resolve_left
    intro hlabel
    rw [foldChild_of_label hlabel] at hnew
    cases hnew
    exact not_mark_mem_of_foldTerms (by simp [placeWithin]) (by simp [placeWithin]) hresult
      (hmem .mark (by simp))
  | call hargs hplain h ih =>
    obtain ⟨inner, result, hinner, -, -⟩ := foldTerms_of_foldChild rfl hfold
    refine .inr (.call hargs hplain fun arg harg => ?_)
    obtain ⟨new, hnew, -⟩ := ok_of_foldChildren hinner arg harg
    apply (ih arg harg hnew).resolve_left
    intro hlabel
    rw [hplain arg harg] at hlabel
    cases hlabel

/-! ## Rows without marks -/

def RowUnlabelled (row : List Term) : Prop := ∀ t ∈ row, ∃ n, t = .node n ∧ n.Unlabelled

theorem RowUnlabelled.replace (hleft : RowUnlabelled left) (hn : n.Unlabelled)
    (hright : RowUnlabelled right) : RowUnlabelled (left.reverse ++ .node n :: right) :=
  forall_mem_around.mpr ⟨hleft, ⟨n, rfl, hn⟩, hright⟩

theorem RowUnlabelled.of_cons (h : RowUnlabelled (.node n :: row)) :
    n.Unlabelled ∧ RowUnlabelled row := by
  refine ⟨?_, fun u hu => h u (by simp [hu])⟩
  obtain ⟨m, heq, hm⟩ := h (.node n) (by simp)
  cases heq
  exact hm

theorem RowUnlabelled.mark_not_mem (h : RowUnlabelled row) : .mark ∉ row := by
  intro hmem
  obtain ⟨n, heq, -⟩ := h .mark hmem
  cases heq

theorem RowUnlabelled.taken (h : RowUnlabelled (left.reverse ++ t :: right))
    (htaken : Taken left right t next) : RowUnlabelled next := by
  obtain ⟨hleft, ⟨n, rfl, hn⟩, hright⟩ :
      RowUnlabelled left ∧ (∃ n, t = .node n ∧ n.Unlabelled) ∧ RowUnlabelled right :=
    forall_mem_around.mp h
  cases htaken with
  | leftOperand hl =>
    rw [hl] at hleft
    obtain ⟨hnew, hrest⟩ := hleft.of_cons
    cases hn with
    | op _ hr =>
      refine hrest.replace (.op ?_ hr) hright
      rintro _ ⟨⟩
      exact hnew
  | rightOperand hr =>
    rw [hr] at hright
    obtain ⟨hnew, hrest⟩ := hright.of_cons
    cases hn with
    | op hl _ =>
      refine hleft.replace (.op hl ?_) hrest
      rintro _ ⟨⟩
      exact hnew
  | bothOperands hl _ hr =>
    rw [hl] at hleft
    rw [hr] at hright
    obtain ⟨hnewLeft, hbefore⟩ := hleft.of_cons
    obtain ⟨hnewRight, hafter⟩ := hright.of_cons
    refine hbefore.replace (.op ?_ ?_) hafter
    · rintro _ ⟨⟩
      exact hnewLeft
    · rintro _ ⟨⟩
      exact hnewRight

theorem unlabelled_bare (o : Operator) : (Node.bare o).Unlabelled :=
  .op (fun _ h => by cases h) fun _ h => by cases h

theorem RowUnlabelled.foldRow (h : RowUnlabelled row) : RowUnlabelled (foldRow labels row) := by
  have hsigns : RowUnlabelled (signs row) :=
    forall_mem_signs (fun o _ => ⟨_, rfl, unlabelled_bare o⟩) h
  exact (foldRow_induction (P := RowUnlabelled)
    (fun _ _ _ _ _ h _ htaken => h.taken htaken) hsigns).1

theorem unlabelled_wrap (h : n.Unlabelled) : (wrap place n).Unlabelled := by
  unfold wrap
  split
  · refine .op (fun _ h => by cases h) ?_
    rintro _ ⟨⟩
    exact h
  · exact h

/-- A row without marks folds to a tree without labels. -/
theorem unlabelled_of_foldTerms (h : RowUnlabelled terms)
    (hfold : foldTerms place terms = .ok (some n)) : n.Unlabelled := by
  by_cases hcall : ∃ name size, place = .call name size
  · obtain ⟨name, size, rfl⟩ := hcall
    cases hfold
    refine .call fun arg harg => ?_
    obtain ⟨t, ht, hnode⟩ := List.mem_filterMap.mp harg
    obtain ⟨m, rfl, hm⟩ := h t ht
    cases hnode
    exact hm
  · have hplace : ∀ name size, place ≠ .call name size := fun name size heq =>
      hcall ⟨name, size, heq⟩
    have hrow : RowUnlabelled (Fold.foldRow (place = .line) terms) := h.foldRow
    rcases eq_of_foldTerms hplace hfold with ⟨m, hm, -, heq⟩ | ⟨-, hempty⟩
    · cases heq
      rw [hm] at hrow
      exact unlabelled_wrap hrow.of_cons.1
    · obtain ⟨-, rfl⟩ := eq_of_foldEmpty hempty
      exact .text

theorem unlabelled_of_scope (hc : c.isScope = true)
    (hchildren : ∀ child ∈ c.children, ∀ terms,
      foldChild (placeWithin outer c) child = .ok terms → RowUnlabelled terms)
    (hfold : foldChild outer c = .ok terms) : RowUnlabelled terms := by
  obtain ⟨inner, result, hinner, hresult, rfl⟩ := foldTerms_of_foldChild hc hfold
  have hrow : RowUnlabelled inner := forall_mem_of_foldChildren hchildren hinner
  rcases result with _ | n
  · simp [RowUnlabelled]
  · exact List.forall_mem_singleton.mpr ⟨n, rfl, unlabelled_of_foldTerms hrow hresult⟩

theorem unlabelled_of_foldChild (h : c.Formed false) (hfold : foldChild outer c = .ok terms) :
    RowUnlabelled terms := by
  induction h generalizing outer terms with
  | mark h => cases h
  | operator ho =>
    rw [foldChild_of_leaf (by simp [Scope.isScope, Node.bare, ho])] at hfold
    cases hfold
    exact List.forall_mem_singleton.mpr ⟨_, rfl, unlabelled_bare _⟩
  | @value kind depth n hkind hleaf hn hlabel =>
    rw [foldChild_of_leaf hleaf] at hfold
    cases hfold
    rw [ofLeaf_value hkind]
    exact List.forall_mem_singleton.mpr ⟨_, rfl, hlabel⟩
  | group h ih => exact unlabelled_of_scope rfl (fun c hc _ => ih c hc) hfold
  | brackets h ih => exact unlabelled_of_scope rfl (fun c hc _ => ih c hc) hfold
  | call hargs hplain h ih => exact unlabelled_of_scope rfl (fun c hc _ => ih c hc) hfold

theorem unlabelled_of_foldChildren (h : ∀ c ∈ children, c.Formed false)
    (hfold : foldChildren place children = .ok terms) : RowUnlabelled terms :=
  forall_mem_of_foldChildren (fun c hc _ hnew => unlabelled_of_foldChild (h c hc) hnew) hfold

end Fold

end MacroAsm
