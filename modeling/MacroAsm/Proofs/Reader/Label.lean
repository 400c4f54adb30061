import Mathlib
import MacroAsm.Proofs.Fold.Label
import MacroAsm.Proofs.Scope.Split
import MacroAsm.Proofs.Token.Marks

/-!
# The label of a line

`Reader.line_labels`: a line with a label mark is a label of what its tokens before the mark and
those after it are read as, and has no other label in it, unless two equate signs follow the mark.
In `a: = b = c` the second one takes the label as its left side.

Proof. The line is nested on both sides of the mark on its own (`Scope.ofTokens_append`), since a
scope with a mark in it would not fold. Then it is a matter of its row (`Fold.foldTerms_mark`).
-/

namespace MacroAsm

open Fold

/-- The tokens, as a line of their own, are nested to a scope with the terms `row`. -/
def IsRowOf (cut : Nat → Nat → String) (read : NumeralReader) (tokens : List Token)
    (row : List Term) : Prop :=
  ∃ root, Scope.ofTokens cut read tokens = .ok root ∧ foldChildren .line root.children = .ok row

variable {cut : Nat → Nat → String} {read : NumeralReader} {tokens : List Token} {row : List Term}

theorem IsRowOf.unlabelled (h : IsRowOf cut read tokens row) (htokens : ∀ t ∈ tokens, ¬ t.IsMark) :
    (∀ t ∈ row, t.Raw) ∧ RowUnlabelled row := by
  obtain ⟨root, hroot, hrow⟩ := h
  have hformed : ∀ c ∈ root.children, c.Formed false :=
    Scope.formed_of_ofTokens (fun t ht hmark => absurd hmark (htokens t ht)) hroot
  exact ⟨fun t ht => (adds_of_foldChildren hformed hrow t ht).1,
    unlabelled_of_foldChildren hformed hrow⟩

theorem IsRowOf.target_of_blank {target : Option Node} (h : IsRowOf cut read tokens row)
    (htokens : ∀ t ∈ tokens, t.kind = .blank) (htarget : IsTarget row target) : target = none := by
  obtain ⟨root, hroot, hrow⟩ := h
  have hnil : root = ⟨.plain, 0, none, []⟩ := by
    unfold Scope.ofTokens at hroot
    rw [Nest.addTokens_blank htokens] at hroot
    exact (Except.ok.inj hroot).symm
  subst hnil
  cases hrow
  cases htarget with
  | whole h =>
    rw [foldTerms_line_nil rfl] at h
    exact (Except.ok.inj h).symm
  | equate hequates =>
    obtain ⟨k, hk⟩ := hequates
    simp at hk

namespace Reader

variable {r : Reader} {text : String} {n : Node}

theorem exists_rows_of_mark {front back : List Token} {m : Token} {root : Scope} {terms : List Term}
    (hscan : scan text.toList = .ok (front ++ m :: back)) (hm : m.IsMark)
    (hroot : Scope.ofTokens (cutLine text.toList) r.numeral (front ++ m :: back) = .ok root)
    (hterms : foldChildren .line root.children = .ok terms) :
    ∃ left right, IsRowOf (cutLine text.toList) r.numeral front left ∧
      IsRowOf (cutLine text.toList) r.numeral back right ∧ terms = left ++ .mark :: right := by
  obtain ⟨-, himplied⟩ := Scan.scan_marks hscan hm
  have hformed : ∀ c ∈ root.children, c.Formed true :=
    Scope.formed_of_ofTokens (fun _ _ _ => rfl) hroot
  -- a scope with the mark inside would not fold
  have hmarks : ∀ c ∈ root.children, c.kind = .label ∨ c.Formed false := by
    intro c hc
    obtain ⟨new, hnew, -⟩ := ok_of_foldChildren hterms c hc
    exact formed_of_foldChild (hformed c hc) hnew
  obtain ⟨before, after, hbefore, hafter, hchildren⟩ :=
    Scope.ofTokens_append hm (fun hkind => (himplied hkind).le) hroot hmarks
  rw [hchildren] at hterms
  obtain ⟨left, rest, hleft, hrest, rfl⟩ := eq_of_foldChildren_append hterms
  obtain ⟨new, right, hnew, hright, rfl⟩ := eq_of_foldChildren_cons hrest
  rw [foldChild_of_label rfl] at hnew
  cases hnew
  exact ⟨left, right, ⟨before, hbefore, hleft⟩, ⟨after, hafter, hright⟩, rfl⟩

/-- What a line is read as has labels only where the line has a label mark: then the line is a label
with the tokens before the mark as its name and those after it as its target, if any, and has no
other label inside. The exception is an equate after the mark with another equate sign in it. -/
theorem line_labels (h : r.line text = .ok (some n)) (hscan : scan text.toList = .ok tokens) :
    ((∀ t ∈ tokens, ¬ t.IsMark) → ∀ slot name target, ¬ n.Occurs slot (.label name target)) ∧
    ∀ front m back, tokens = front ++ m :: back → m.IsMark →
      ∃ nameRow row name,
        IsRowOf (cutLine text.toList) r.numeral front nameRow ∧
        foldTerms .line nameRow = .ok (some name) ∧
        IsRowOf (cutLine text.toList) r.numeral back row ∧
        (¬ EquatesTwice row →
          (∃ target, n = .label name target ∧ IsTarget row target ∧
            ((∀ t ∈ back, t.kind = .blank) → target = none)) ∧
          ∀ slot name' target', n.Occurs slot (.label name' target') → slot = .root) ∧
        (EquatesTwice row → (∃ left right, n = .binary .set left right) ∧
          ∃ target, n.Occurs .inner (.label name target)) := by
  obtain ⟨tokens', root, hscan', hroot, hfold⟩ := eq_of_line h
  obtain rfl : tokens' = tokens := Except.ok.inj (hscan'.symm.trans hscan)
  rw [Scope.fold_eq] at hfold
  split at hfold
  next => cases hfold
  next terms hterms =>
    refine ⟨fun htokens slot name target hoccurs => ?_, fun front m back htokens hm => ?_⟩
    · have hrow : IsRowOf (cutLine text.toList) r.numeral tokens' terms := ⟨root, hroot, hterms⟩
      have hn : n.Unlabelled := unlabelled_of_foldTerms (hrow.unlabelled htokens).2 hfold
      cases hn.of_occurs hoccurs
    · subst htokens
      obtain ⟨hother, -⟩ := Scan.scan_marks hscan hm
      obtain ⟨nameRow, row, hfront, hback, rfl⟩ := exists_rows_of_mark hscan hm hroot hterms
      obtain ⟨hrawFront, hplainFront⟩ := hfront.unlabelled fun t ht => hother t (by simp [ht])
      obtain ⟨hrawBack, hplainBack⟩ := hback.unlabelled fun t ht => hother t (by simp [ht])
      obtain ⟨name, hname, hlabels⟩ :=
        foldTerms_mark hrawFront hrawBack hplainBack.mark_not_mem hfold
      refine ⟨nameRow, row, name, hfront, hname, hback, fun htwice => ?_, fun htwice => ?_⟩
      · obtain ⟨-, target, htarget, rfl⟩ := hlabels.resolve_right fun h => htwice h.1
        have hnameLabel : name.Unlabelled := unlabelled_of_foldTerms hplainFront hname
        have htargetLabel : ∀ m, target = some m → m.Unlabelled := by
          rintro m rfl
          exact htarget.unlabelled hplainBack
        refine ⟨⟨target, rfl, htarget, fun hblank => hback.target_of_blank hblank htarget⟩, ?_⟩
        intro slot name' target' hoccurs
        rcases Node.root_of_occurs_label hnameLabel htargetLabel hoccurs with ⟨hslot, -⟩ | hlabel
        · exact hslot
        · cases hlabel
      · exact (hlabels.resolve_left fun h => h.1 htwice).2

/-- `a: b` is a label with a target. -/
theorem line_labels_target :
    scan " a: b".toList =
        .ok ([⟨.name, 1, 2⟩] ++ ⟨.label, 2, 3⟩ :: [⟨.blank, 3, 4⟩, ⟨.name, 4, 5⟩, ⟨.blank, 5, 5⟩]) ∧
      ({} : Reader).line " a: b" = .ok (some (.label (.text "a") (some (.text "b")))) ∧
      ∃ nameRow name, IsRowOf (cutLine " a: b".toList) readNumeral [⟨.name, 1, 2⟩] nameRow ∧
        foldTerms .line nameRow = .ok (some name) := by
  have hscan : scan " a: b".toList = .ok ([⟨.name, 1, 2⟩] ++
      ⟨.label, 2, 3⟩ :: [⟨.blank, 3, 4⟩, ⟨.name, 4, 5⟩, ⟨.blank, 5, 5⟩]) := by cbv
  have hline : ({} : Reader).line " a: b" =
      .ok (some (.label (.text "a") (some (.text "b")))) := by cbv
  obtain ⟨nameRow, row, name, hnameRow, hname, -⟩ :=
    (line_labels hline hscan).2 _ _ _ rfl (.inl rfl)
  exact ⟨hscan, hline, nameRow, name, hnameRow, hname⟩

/-- `a: = b = c` has a label mark and is an assignment, of which the label is the left side. -/
theorem line_of_equates_twice :
    ∃ front m back n, scan " a: = b = c".toList = .ok (front ++ m :: back) ∧ m.IsMark ∧
      ({} : Reader).line " a: = b = c" = .ok (some n) ∧ (∀ name target, n ≠ .label name target) ∧
      ∃ name target, n.Occurs .inner (.label name target) := by
  refine ⟨[⟨.name, 1, 2⟩], ⟨.label, 2, 3⟩, [⟨.blank, 3, 4⟩, ⟨.operator, 4, 5⟩, ⟨.blank, 5, 6⟩,
    ⟨.name, 6, 7⟩, ⟨.blank, 7, 8⟩, ⟨.operator, 8, 9⟩, ⟨.blank, 9, 10⟩, ⟨.name, 10, 11⟩,
    ⟨.blank, 11, 11⟩], .binary .set (.label (.text "a") (some (.unary .set (.text "b"))))
    (.text "c"), by cbv, .inl rfl, by cbv, ?_, ?_⟩
  · intro name target heq
    cases heq
  · exact ⟨_, _, .left .root⟩

end Reader

end MacroAsm
