import Mathlib.Data.List.Basic
import Mathlib.Logic.Relation
import MacroAsm.Proofs.Fold.Steps

/-!
# The turns of a fold

A fold is a sequence of turns (`Turns`). In each of them a pivot is tried: it takes something, and
then no entry is passed over any more, or it is passed over itself. `turns_settle`: every turn
shortens the row or passes over one more entry of it, so that no sequence of turns goes on for ever;
and where the fold ends, no term that still lacks something could take anything.

The second part needs that an entry stays stuck while others are passed over (`Stuck`): passing over
changes no neighbour, and whatever does change the row clears the marks.
-/

namespace MacroAsm.Fold

variable {labels : Bool} {entries next next' last : List Entry} {p : Pivot} {terms : List Term}

/-- One turn of a fold leads from one row to the next. -/
inductive Turns (labels : Bool) (entries : List Entry) : List Entry → Prop
  | takes {p : Pivot} {next : List Entry} (hturn : turn labels entries = .pivot p)
      (htake : p.take? = some next) : Turns labels entries (next.map fun e => .fresh e.term)
  | passes {p : Pivot} (hturn : turn labels entries = .pivot p) (htake : p.take? = none) :
      Turns labels entries p.passedOver

/-- What is left to do: the number of entries, and how many of them are not passed over. -/
def workLeft (entries : List Entry) : Nat × Nat := (entries.length, entries.countP (!·.passed))

/-! ## One turn -/

theorem Turns.unique (h : Turns labels entries next) (h' : Turns labels entries next') :
    next = next' := by
  cases h <;> cases h' <;> simp_all

theorem length_lt_of_take? (hturn : turn labels entries = .pivot p) (htake : p.take? = some next) :
    next.length < entries.length := by
  have hlt := Pivot.length_of_take? htake
  obtain ⟨rfl, -⟩ := eq_of_turn_pivot hturn
  simpa [Nat.add_assoc] using hlt

theorem passedOver_eq_set (hturn : turn labels entries = .pivot p) :
    entries[p.left.length]? = some ⟨p.term, false⟩ ∧
      p.passedOver = entries.set p.left.length ⟨p.term, true⟩ := by
  obtain ⟨rfl, -⟩ := eq_of_turn_pivot hturn
  simp [Pivot.passedOver, Pivot.row, List.reverseAux_eq]

theorem Turns.workLeft_lt (h : Turns labels entries next) :
    Prod.Lex (· < ·) (· < ·) (workLeft next) (workLeft entries) := by
  cases h with
  | takes hturn htake =>
    apply Prod.Lex.left
    simpa using length_lt_of_take? hturn htake
  | @passes p hturn =>
    have hlength : p.passedOver.length = entries.length := by
      rw [(passedOver_eq_set hturn).2, List.length_set]
    have hcount : p.passedOver.countP (!·.passed) < entries.countP (!·.passed) := by
      rw [← row_of_turn hturn]
      simp [Pivot.passedOver, countP_row]
    rw [workLeft, workLeft, hlength]
    exact Prod.Lex.right _ hcount

/-! ## All turns -/

theorem Turns.not_settled (h : Turns labels entries next) :
    turn labels entries ≠ .settled entries := by
  cases h <;> simp_all

theorem exists_last_turn (labels : Bool) (entries : List Entry) :
    ∃ last, Relation.ReflTransGen (Turns labels) entries last ∧
      turn labels last = .settled last ∧ foldEntries labels entries = last.map (·.term) := by
  fun_induction foldEntries labels entries with
  | case1 entries final hturn =>
    obtain ⟨rfl, -⟩ := eq_of_turn_settled hturn
    exact ⟨_, .refl, hturn, rfl⟩
  | case2 entries p hturn next htake ih =>
    obtain ⟨last, hturns, hlast, heq⟩ := ih
    exact ⟨last, .head (.takes hturn htake) hturns, hlast, heq⟩
  | case3 entries p hturn htake ih =>
    obtain ⟨last, hturns, hlast, heq⟩ := ih
    exact ⟨last, .head (.passes hturn htake) hturns, hlast, heq⟩

theorem Stuck.turns (h : Stuck entries) (hturns : Turns labels entries next) : Stuck next := by
  cases hturns with
  | @takes p next hturn htake =>
    simpa [Function.comp_def] using stuck_fresh (next.map (·.term))
  | passes hturn htake =>
    obtain ⟨rfl, -⟩ := eq_of_turn_pivot hturn
    exact h.passedOver htake

theorem Stuck.run (h : Stuck entries)
    (hturns : Relation.ReflTransGen (Turns labels) entries last) : Stuck last := by
  induction hturns with
  | refl => exact h
  | tail _ hturn ih => exact ih.turns hturn

theorem turns_of_turns (hlast : turn labels last = .settled last)
    (h : Relation.ReflTransGen (Turns labels) entries last)
    (h' : Relation.ReflTransGen (Turns labels) entries next) :
    Relation.ReflTransGen (Turns labels) next last := by
  induction h' with
  | refl => exact h
  | tail _ hturn ih =>
    rcases ih.cases_head with rfl | ⟨mid, hmid, hrest⟩
    · exact absurd hlast hturn.not_settled
    · rwa [hturn.unique hmid]

theorem wellFounded_turns (labels : Bool) : WellFounded (flip (Turns labels)) :=
  Subrelation.wf Turns.workLeft_lt
    (InvImage.wf workLeft (WellFounded.prod_lex Nat.lt_wfRel.wf Nat.lt_wfRel.wf))

/-- A term that still lacks something where the fold ends was passed over, and is stuck. -/
theorem take?_of_settled (hstuck : Stuck entries)
    (hsettled : turn labels entries = .settled entries) {before after : List Entry} {e : Entry}
    (hsplit : entries = before ++ e :: after) (hlacks : (e.term.looseness? labels).isSome) :
    (⟨before.reverse, e.term, after⟩ : Pivot).take? = none := by
  have hnone : e.looseness? labels = none := (eq_of_turn_settled hsettled).2 e (by simp [hsplit])
  have hpassed : e.passed = true := by
    by_contra hpassed
    rw [Entry.looseness?, if_neg hpassed] at hnone
    simp [hnone] at hlacks
  have htakes := hstuck before e after hsplit hpassed
  rw [← Option.not_isSome_iff_eq_none, take?_isSome]
  simpa [List.head?_reverse] using htakes

/-- In every turn of a fold the pivot either takes something, which shortens the row, or it is
passed over, which it was not before, and nothing else changes. So what is left to do gets less with
every turn, in the lexicographic order, and no sequence of turns goes on for ever. All turns of a
row lead to one last row, which is the folded one, and no term of it that still lacks something
could take anything. -/
theorem turns_settle (labels : Bool) (terms : List Term) :
    (∀ entries p, turn labels entries = .pivot p →
      (∀ next, p.take? = some next → next.length < entries.length) ∧
        (p.take? = none → entries[p.left.length]? = some ⟨p.term, false⟩ ∧
          p.passedOver = entries.set p.left.length ⟨p.term, true⟩)) ∧
      (∀ entries next, Turns labels entries next →
        Prod.Lex (· < ·) (· < ·) (workLeft next) (workLeft entries)) ∧
      WellFounded (flip (Turns labels)) ∧
      ∃ last, Relation.ReflTransGen (Turns labels) ((signs terms).map .fresh) last ∧
        (∀ next, ¬ Turns labels last next) ∧
        (∀ mid, Relation.ReflTransGen (Turns labels) ((signs terms).map .fresh) mid →
          Relation.ReflTransGen (Turns labels) mid last) ∧
        foldRow labels terms = last.map (·.term) ∧
        ∀ before e after, last = before ++ e :: after → (e.term.looseness? labels).isSome →
          (⟨before.reverse, e.term, after⟩ : Pivot).take? = none := by
  refine ⟨fun entries p hturn => ⟨fun next => length_lt_of_take? hturn,
    fun _ => passedOver_eq_set hturn⟩, fun _ _ => Turns.workLeft_lt, wellFounded_turns labels, ?_⟩
  obtain ⟨last, hturns, hlast, hfold⟩ := exists_last_turn labels ((signs terms).map .fresh)
  have hstuck : Stuck last := (stuck_fresh (signs terms)).run hturns
  exact ⟨last, hturns, fun next hnext => hnext.not_settled hlast,
    fun mid => turns_of_turns hlast hturns, hfold,
    fun before e after => take?_of_settled hstuck hlast⟩

end MacroAsm.Fold
