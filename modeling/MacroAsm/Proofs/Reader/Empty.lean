import MacroAsm.Proofs.Fold.Label
import MacroAsm.Proofs.Fold.Words
import MacroAsm.Proofs.Scope.Void
import MacroAsm.Reader

/-!
# Lines that give nothing

`Reader.line_eq_none_iff`: a line gives no node, and no fault either, just if it has no tokens but
blanks, parentheses that match and plus signs. In particular a line of nothing but `+` gives none,
while `-` or `1 +` are at fault.

A line that folds to nothing has nothing in it, apart from signs that are dropped
(`words_of_foldTerms`). In the other direction, scopes with nothing in them fold to rows of plus
signs (`foldChild_of_isVoid`), which are all dropped.
-/

namespace MacroAsm

namespace Fold

variable {place : Place} {row : List Term} {c : Scope} {children : List Scope}

theorem signs_of_plus (h : ∀ t ∈ row, t = .node (.bare .add)) : signs row = [] := by
  unfold signs
  induction row with
  | nil => rfl
  | cons t row ih =>
    rw [List.forall_mem_cons] at h
    obtain ⟨rfl, hrow⟩ := h
    exact ih hrow

theorem foldChildren_of_areVoid (place : Place)
    (hchild : ∀ c ∈ children, (c.isPlus = true ∨ c.isVoid = true) →
      ∃ new, foldChild place c = .ok new ∧ ∀ t ∈ new, t = .node (.bare .add))
    (h : Scope.areVoid children = true) :
    ∃ terms, foldChildren place children = .ok terms ∧ ∀ t ∈ terms, t = .node (.bare .add) := by
  induction children with
  | nil => exact ⟨[], rfl, by simp⟩
  | cons c children ih =>
    rw [List.forall_mem_cons] at hchild
    obtain ⟨hc, hchildren⟩ := Nest.areVoid_cons.mp h
    obtain ⟨new, hnew, hplus⟩ := hchild.1 hc
    obtain ⟨rest, hrest, hplusRest⟩ := ih hchild.2 hchildren
    refine ⟨new ++ rest, ?_, List.forall_mem_append.mpr ⟨hplus, hplusRest⟩⟩
    rw [foldChildren, hnew, hrest]
    rfl

/-- A scope with nothing in it gives nothing, and a plus sign itself. -/
theorem foldChild_of_isVoid (h : c.Formed true) (hplace : ∀ name size, place ≠ .call name size)
    (hvoid : c.isPlus = true ∨ c.isVoid = true) :
    ∃ new, foldChild place c = .ok new ∧ ∀ t ∈ new, t = .node (.bare .add) := by
  induction h generalizing place with
  | mark | brackets | call => rcases hvoid with h | h <;> cases h
  | @operator depth o ho =>
    have hadd : o = .add := by
      rcases hvoid with h | h
      · cases o <;> first | rfl | cases h
      · cases h
    subst hadd
    exact ⟨_, foldChild_of_leaf rfl, by simp [Term.ofLeaf]⟩
  | @value kind depth n hkind hleaf hn hlabel =>
    exfalso
    rcases hvoid with h | h
    · unfold Scope.isPlus at h
      split at h
      next heq =>
        cases heq
        cases hn
      next => cases h
    · cases kind with
      | plain => cases hleaf
      | _ => cases h
  | @group depth children h ih =>
    have hchildren : Scope.areVoid children = true := by
      rcases hvoid with h | h
      · cases h
      · exact h
    obtain ⟨terms, hterms, hplus⟩ := foldChildren_of_areVoid .group
      (fun c hc => ih c hc (by simp)) hchildren
    have hfold : foldTerms .group terms = .ok none := foldTerms_nil (by simp) (signs_of_plus hplus)
    have hgroup : placeWithin place ⟨.plain, depth, none, children⟩ = .group :=
      (placeWithin_plain place depth children).resolve_right (placeWithin_ne_argument hplace _)
    refine ⟨[], ?_, by simp⟩
    rw [foldChild_of_scope rfl, hgroup, hterms]
    show (foldTerms .group terms).map _ = _
    rw [hfold]
    rfl

end Fold

theorem Scope.fold_eq_none_iff {cut : Nat → Nat → String} {read : NumeralReader}
    {tokens : List Token} {root : Scope} (hroot : Scope.ofTokens cut read tokens = .ok root) :
    root.fold = .ok none ↔ Scope.areVoid root.children = true := by
  have hformed : ∀ c ∈ root.children, c.Formed true :=
    Scope.formed_of_ofTokens (fun _ _ _ => rfl) hroot
  rw [Scope.fold_eq]
  constructor
  · intro hfold
    split at hfold
    next => cases hfold
    next terms hterms =>
      have hraw : ∀ t ∈ terms, t.Raw := fun t ht =>
        (Fold.adds_of_foldChildren hformed hterms t ht).1
      have hgives : ∀ c ∈ root.children, ∀ new, Fold.foldChild .line c = .ok new →
          Fold.Gives .line c new := fun c hc new hnew => Fold.gives_of_foldChild (hformed c hc) hnew
      rcases Fold.words_of_foldTerms (by simp) hgives hraw hterms hfold with
        ⟨hvoid, -⟩ | ⟨-, n, heq, -⟩
      · exact hvoid
      · cases heq
  · intro hvoid
    obtain ⟨terms, hterms, hplus⟩ := Fold.foldChildren_of_areVoid .line
      (fun c hc => Fold.foldChild_of_isVoid (hformed c hc) (by simp)) hvoid
    rw [hterms]
    exact Fold.foldTerms_line_nil (Fold.signs_of_plus hplus)

namespace Reader

variable {r : Reader} {text : String}

/-- A line gives no node and no fault just if its tokens are blanks, plus signs and parentheses that
match. -/
theorem line_eq_none_iff :
    r.line text = .ok none ↔
      ∃ tokens, scan text.toList = .ok tokens ∧ Nest.WellNested tokens ∧
        ∀ t ∈ tokens, Nest.IsHollow (cutLine text.toList) t := by
  constructor
  · intro h
    obtain ⟨tokens, root, hscan, hroot, hfold⟩ := eq_of_line h
    have hvoid := (Scope.fold_eq_none_iff hroot).mp hfold
    exact ⟨tokens, hscan, Scope.areVoid_of_ofTokens_iff.mp ⟨root, hroot, hvoid⟩⟩
  · rintro ⟨tokens, hscan, htokens⟩
    obtain ⟨root, hroot, hvoid⟩ : ∃ root, Scope.ofTokens (cutLine text.toList) r.numeral tokens =
        .ok root ∧ Scope.areVoid root.children = true :=
      Scope.areVoid_of_ofTokens_iff.mpr htokens
    have hfold := (Scope.fold_eq_none_iff hroot).mpr hvoid
    simp only [line, notedLine, hscan, hroot, hfold]

/-- A line of nothing but a plus sign gives no node and no fault, though a plus sign is neither a
blank nor a parenthesis. -/
theorem line_plus :
    scan " +".toList = .ok [⟨.operator, 1, 2⟩, ⟨.blank, 2, 2⟩] ∧
      ({} : Reader).line " +" = .ok none := by
  constructor <;> cbv

end Reader

end MacroAsm
