import Mathlib.Data.List.Chain
import MacroAsm.Fold.Row

/-!
# The steps of a fold

A fold tries the pivots of a row one after the other and passes over those that can take nothing.
Seen from outside, each step lets the foremost of the terms that can take something (`Foremost`)
take all that it can (`Taken`), and the fold ends when no term can (`Settled`). So a property of
rows that such a step keeps holds of the folded row (`foldRow_induction`); the entries that are
passed over are not seen there any more.

`eq_of_turn_pivot` and `eq_of_turn_settled` say what a look at a row finds. An entry that is passed
over cannot take anything (`Stuck`), since its neighbours have not changed since it was tried.
-/

namespace MacroAsm.Fold

variable {labels : Bool} {k : Nat} {entries left right : List Entry} {p : Pivot}

/-! ## The tightest binding -/

theorem least_eq_none {a b : Option Nat} : least a b = none ↔ a = none ∧ b = none := by
  cases a <;> cases b <;> simp [least]

theorem least_eq_some {a b : Option Nat} (h : least a b = some k) :
    (a = some k ∨ b = some k) ∧ (∀ m, a = some m → k ≤ m) ∧ ∀ m, b = some m → k ≤ m := by
  rcases a with _ | a <;> rcases b with _ | b <;> simp only [least] at h
  · cases h
  · cases h
    simp
  · cases h
    simp
  · cases h
    simp
    omega

theorem foldl_least_eq_none {best : Option Nat} :
    entries.foldl (fun best e => least best (e.looseness? labels)) best = none ↔
      best = none ∧ ∀ e ∈ entries, e.looseness? labels = none := by
  induction entries generalizing best with
  | nil => simp
  | cons e entries ih => simp [ih, least_eq_none, and_assoc]

theorem foldl_least_eq_some {best : Option Nat}
    (h : entries.foldl (fun best e => least best (e.looseness? labels)) best = some k) :
    (best = some k ∨ ∃ e ∈ entries, e.looseness? labels = some k) ∧ (∀ m, best = some m → k ≤ m) ∧
      ∀ e ∈ entries, ∀ m, e.looseness? labels = some m → k ≤ m := by
  induction entries generalizing best with
  | nil =>
    simp only [List.foldl_nil] at h
    subst h
    simp
  | cons e entries ih =>
    rw [List.foldl_cons] at h
    obtain ⟨hfound, hbest, hentries⟩ := ih h
    rcases hl : least best (e.looseness? labels) with _ | m
    · obtain ⟨hb, he⟩ := least_eq_none.mp hl
      refine ⟨.inr ?_, by simp [hb], List.forall_mem_cons.mpr ⟨by simp [he], hentries⟩⟩
      rcases hfound with hfound | ⟨e', hmem, he'⟩
      · rw [hl] at hfound
        cases hfound
      · exact ⟨e', by simp [hmem], he'⟩
    · obtain ⟨hor, hb, he⟩ := least_eq_some hl
      have hkm := hbest m hl
      refine ⟨?_, fun m' hm' => hkm.trans (hb m' hm'),
        List.forall_mem_cons.mpr ⟨fun m' hm' => hkm.trans (he m' hm'), hentries⟩⟩
      rcases hfound with hfound | ⟨e', hmem, he'⟩
      · rw [hl] at hfound
        cases hfound
        exact hor.imp_right fun he => ⟨e, by simp, he⟩
      · exact .inr ⟨e', by simp [hmem], he'⟩

theorem tightest?_eq_some (h : tightest? labels entries = some k) :
    (∃ e ∈ entries, e.looseness? labels = some k) ∧
      ∀ e ∈ entries, ∀ m, e.looseness? labels = some m → k ≤ m := by
  obtain ⟨hfound, -, hle⟩ := foldl_least_eq_some h
  exact ⟨by simpa using hfound, hle⟩

/-! ## Turns -/

theorem firstAt_eq_pivot (h : firstAt labels k left entries = .pivot p) :
    ∃ before, entries = before ++ ⟨p.term, false⟩ :: p.right ∧ p.left = before.reverse ++ left ∧
      p.term.looseness? labels = some k ∧ ∀ e ∈ before, e.looseness? labels ≠ some k := by
  fun_induction firstAt labels k left entries with
  | case1 => cases h
  | case2 left e right he =>
    cases h
    obtain ⟨term, passed⟩ := e
    cases passed with
    | false =>
      refine ⟨[], rfl, rfl, ?_, by simp⟩
      simpa [Entry.looseness?, Option.any_eq_true] using he
    | true => simp [Entry.looseness?] at he
  | case3 left e right he ih =>
    obtain ⟨before, rfl, hleft, hterm, hbefore⟩ := ih h
    refine ⟨e :: before, rfl, by simp [hleft], hterm, fun e' hmem => ?_⟩
    rcases List.mem_cons.mp hmem with rfl | hmem
    · intro hk
      simp [hk] at he
    · exact hbefore e' hmem

theorem firstAt_eq_settled {es : List Entry} (h : firstAt labels k left entries = .settled es) :
    ∀ e ∈ entries, e.looseness? labels ≠ some k := by
  fun_induction firstAt labels k left entries with
  | case1 => simp
  | case2 => cases h
  | case3 left e right he ih =>
    intro e' hmem
    rcases List.mem_cons.mp hmem with rfl | hmem
    · intro hk
      simp [hk] at he
    · exact ih h e' hmem

/-- A pivot splits its row. It binds tighter than all entries on its left that are to be tried, and
no looser than those on its right. -/
theorem eq_of_turn_pivot (h : turn labels entries = .pivot p) :
    entries = p.left.reverse ++ ⟨p.term, false⟩ :: p.right ∧
      ∃ k, p.term.looseness? labels = some k ∧
        (∀ e ∈ p.left, ∀ m, e.looseness? labels = some m → k < m) ∧
        ∀ e ∈ p.right, ∀ m, e.looseness? labels = some m → k ≤ m := by
  unfold turn at h
  split at h
  next k hk =>
    obtain ⟨before, rfl, hleft, hterm, hbefore⟩ := firstAt_eq_pivot h
    have hle := (tightest?_eq_some hk).2
    simp only [List.append_nil] at hleft
    refine ⟨by simp [hleft], k, hterm, fun e hmem m hm => ?_, fun e hmem m hm => ?_⟩
    · rw [hleft, List.mem_reverse] at hmem
      have hkm : k ≤ m := hle e (by simp [hmem]) m hm
      refine lt_of_le_of_ne hkm fun hkm => hbefore e hmem ?_
      rw [hm, hkm]
    · exact hle e (by simp [hmem]) m hm
  next => cases h

/-- A settled row is the row itself, and nothing in it can be tried. -/
theorem eq_of_turn_settled {es : List Entry} (h : turn labels entries = .settled es) :
    es = entries ∧ ∀ e ∈ entries, e.looseness? labels = none := by
  unfold turn at h
  split at h
  next k hk =>
    obtain ⟨e, hmem, he⟩ := (tightest?_eq_some hk).1
    exact absurd he (firstAt_eq_settled h e hmem)
  next hk =>
    cases h
    exact ⟨rfl, (foldl_least_eq_none.mp hk).2⟩

/-! ## What a pivot takes -/

def Term.isTarget : Term → Bool
  | node n => n.isComplete || lacksLeftSide n
  | mark => false

/-- Whether a term can take a neighbour, of which there may be one before and one after it. -/
def Term.takes (before after : Option Term) : Term → Bool
  | mark => before.any isComplete && after.all isTarget
  | node (.op o l r) =>
    (!o.isUnary && l.isNone && before.any isComplete) || (r.isNone && after.any isComplete)
  | node _ => false

/-- What a term takes from the terms around it, those on the left with the nearest first, and the
row that this leaves. -/
inductive Taken (left right : List Term) : Term → List Term → Prop
  | leftOperand {o n r rest} (hleft : left = .node n :: rest) (hn : n.isComplete = true)
      (ho : o.isUnary = false) (hr : r = none → ∀ t ∈ right.head?, t.isComplete = false) :
      Taken left right (.node (.op o none r)) (rest.reverse ++ .node (.op o (some n) r) :: right)
  | rightOperand {o l n rest} (hright : right = .node n :: rest) (hn : n.isComplete = true)
      (hl : o.isUnary = false → l = none → ∀ t ∈ left.head?, t.isComplete = false) :
      Taken left right (.node (.op o l none)) (left.reverse ++ .node (.op o l (some n)) :: rest)
  | bothOperands {o n m before after} (hleft : left = .node n :: before) (hn : n.isComplete = true)
      (hright : right = .node m :: after) (hm : m.isComplete = true) (ho : o.isUnary = false) :
      Taken left right (.node (.bare o)) (before.reverse ++ .node (.binary o n m) :: after)
  | bareLabel {name before} (hleft : left = .node name :: before) (hname : name.isComplete = true)
      (hright : right = []) :
      Taken left right .mark (before.reverse ++ [.node (.label name none)])
  | target {name n before after} (hleft : left = .node name :: before)
      (hname : name.isComplete = true) (hright : right = .node n :: after)
      (hn : n.isComplete = true) :
      Taken left right .mark (before.reverse ++ .node (.label name (some n)) :: after)
  | equate {name value before after} (hleft : left = .node name :: before)
      (hname : name.isComplete = true) (hright : right = .node (.unary .set value) :: after) :
      Taken left right .mark
        (before.reverse ++ .node (.label name (some (.unary .set value))) :: after)

theorem takeComplete?_eq_some {n : Node} {rest : List Entry}
    (h : takeComplete? entries = some (n, rest)) :
    entries.map (·.term) = .node n :: rest.map (·.term) ∧ n.isComplete = true := by
  unfold takeComplete? at h
  split at h
  next m passed rest' =>
    split at h
    next hm =>
      cases h
      exact ⟨rfl, hm⟩
    next => cases h
  next => cases h

theorem takeComplete?_eq_none :
    takeComplete? entries = none ↔
      ∀ t ∈ (entries.map (·.term)).head?, t.isComplete = false := by
  rcases entries with _ | ⟨⟨n | _, passed⟩, entries⟩ <;> simp [takeComplete?, Term.isComplete]

theorem takeComplete?_isSome :
    (takeComplete? entries).isSome = (entries.map (·.term)).head?.any Term.isComplete := by
  rcases entries with _ | ⟨⟨n | _, passed⟩, entries⟩
  · rfl
  · by_cases hn : n.isComplete = true <;> simp [takeComplete?, Term.isComplete, hn]
  · rfl

theorem map_term_row (e : Entry) :
    (Pivot.row left e right).map (·.term) =
      (left.map (·.term)).reverse ++ e.term :: right.map (·.term) := by
  simp [Pivot.row, List.reverseAux_eq]

theorem eq_of_lacksLeftSide {n : Node} (h : lacksLeftSide n = true) :
    ∃ value, n = .unary .set value := by
  unfold lacksLeftSide at h
  split at h
  next value => exact ⟨value, rfl⟩
  next => cases h

theorem taken_of_takeOperands? {o : Operator} {l r : Option Node} {next : List Entry}
    (h : Pivot.takeOperands? left right o l r = some next) :
    Taken (left.map (·.term)) (right.map (·.term)) (.node (.op o l r)) (next.map (·.term)) := by
  simp only [Pivot.takeOperands?] at h
  split at h
  next => cases h
  next n rest hl hr =>
    cases h
    split at hl
    next hneeds =>
      simp only [Bool.and_eq_true, Bool.not_eq_true', Option.isNone_iff_eq_none] at hneeds
      obtain ⟨ho, rfl⟩ := hneeds
      obtain ⟨hleft, hn⟩ := takeComplete?_eq_some hl
      rw [map_term_row]
      refine .leftOperand hleft hn ho ?_
      rintro rfl
      exact takeComplete?_eq_none.mp (by simpa using hr)
    next => cases hl
  next n rest hl hr =>
    cases h
    split at hr
    next hneeds =>
      rw [Option.isNone_iff_eq_none] at hneeds
      subst hneeds
      obtain ⟨hright, hn⟩ := takeComplete?_eq_some hr
      rw [map_term_row]
      refine .rightOperand hright hn ?_
      rintro ho rfl
      exact takeComplete?_eq_none.mp (by simpa [ho] using hl)
    next => cases hr
  next n before m after hl hr =>
    cases h
    split at hl
    next hneeds =>
      simp only [Bool.and_eq_true, Bool.not_eq_true', Option.isNone_iff_eq_none] at hneeds
      obtain ⟨ho, rfl⟩ := hneeds
      obtain ⟨hleft, hn⟩ := takeComplete?_eq_some hl
      split at hr
      next hneeds =>
        rw [Option.isNone_iff_eq_none] at hneeds
        subst hneeds
        obtain ⟨hright, hm⟩ := takeComplete?_eq_some hr
        rw [map_term_row]
        exact .bothOperands hleft hn hright hm ho
      next => cases hr
    next => cases hl

theorem taken_of_takeTarget? {next : List Entry} (h : Pivot.takeTarget? left right = some next) :
    Taken (left.map (·.term)) (right.map (·.term)) .mark (next.map (·.term)) := by
  simp only [Pivot.takeTarget?] at h
  split at h
  next => cases h
  next name rest hl =>
    obtain ⟨hleft, hname⟩ := takeComplete?_eq_some hl
    split at h
    next =>
      cases h
      rw [map_term_row]
      exact .bareLabel hleft hname rfl
    next target passed after =>
      split at h
      next htarget =>
        cases h
        rw [map_term_row]
        rcases Bool.or_eq_true_iff.mp htarget with hcomplete | hlacks
        · exact .target hleft hname rfl hcomplete
        · obtain ⟨value, rfl⟩ := eq_of_lacksLeftSide hlacks
          exact .equate hleft hname rfl
      next => cases h
    next => cases h

theorem taken_of_take? {next : List Entry} (h : p.take? = some next) :
    Taken (p.left.map (·.term)) (p.right.map (·.term)) p.term (next.map (·.term)) := by
  obtain ⟨left, n | _, right⟩ := p
  · cases n with
    | op o l r => exact taken_of_takeOperands? h
    | _ => cases h
  · exact taken_of_takeTarget? h

theorem takeOperands?_isSome {o : Operator} {l r : Option Node} :
    (Pivot.takeOperands? left right o l r).isSome =
      (Term.node (.op o l r)).takes (left.map (·.term)).head? (right.map (·.term)).head? := by
  simp only [Pivot.takeOperands?, Term.takes, ← takeComplete?_isSome]
  cases hl : (!o.isUnary && l.isNone) <;> cases hr : r.isNone <;>
    cases takeComplete? left <;> cases takeComplete? right <;> rfl

theorem takeTarget?_isSome :
    (Pivot.takeTarget? left right).isSome =
      Term.mark.takes (left.map (·.term)).head? (right.map (·.term)).head? := by
  simp only [Pivot.takeTarget?, Term.takes, ← takeComplete?_isSome]
  rcases takeComplete? left with _ | ⟨name, rest⟩
  · rfl
  · rcases right with _ | ⟨⟨n | _, passed⟩, right⟩
    · rfl
    · by_cases hn : (n.isComplete || lacksLeftSide n) = true <;> simp [Term.isTarget, hn]
    · rfl

theorem take?_isSome :
    p.take?.isSome =
      p.term.takes (p.left.map (·.term)).head? (p.right.map (·.term)).head? := by
  obtain ⟨left, n | _, right⟩ := p
  · cases n with
    | op o l r => exact takeOperands?_isSome
    | _ => rfl
  · exact takeTarget?_isSome

/-! ## The foremost term -/

theorem forall_mem_around {P : Term → Prop} {left right : List Term} {t : Term} :
    (∀ u ∈ left.reverse ++ t :: right, P u) ↔
      (∀ u ∈ left, P u) ∧ P t ∧ ∀ u ∈ right, P u := by
  rw [List.forall_mem_append, List.forall_mem_cons]
  simp only [List.mem_reverse]

/-- The entries that are passed over can take nothing. -/
def Stuck (entries : List Entry) : Prop :=
  ∀ before e after, entries = before ++ e :: after → e.passed = true →
    e.term.takes (before.map (·.term)).getLast? (after.map (·.term)).head? = false

theorem stuck_fresh (terms : List Term) : Stuck (terms.map .fresh) := by
  intro before e after h hpassed
  have hmem : e ∈ terms.map Entry.fresh := by simp [h]
  obtain ⟨t, -, rfl⟩ := List.mem_map.mp hmem
  cases hpassed

theorem Stuck.passedOver (h : Stuck (p.left.reverse ++ ⟨p.term, false⟩ :: p.right))
    (hp : p.take? = none) : Stuck p.passedOver := by
  have htakes := take?_isSome (p := p)
  rw [hp, Option.isSome_none] at htakes
  obtain ⟨left, term, right⟩ := p
  intro before e after hsplit hpassed
  rw [Pivot.passedOver, Pivot.row, List.reverseAux_eq, List.append_eq_append_iff] at hsplit
  rcases hsplit with ⟨mid, rfl, hmid⟩ | ⟨mid, hmid, hsplit⟩
  · rcases mid with _ | ⟨f, mid⟩
    · cases hmid
      simpa [List.getLast?_reverse] using htakes.symm
    · cases hmid
      simpa using h (left.reverse ++ ⟨term, false⟩ :: mid) e after (by simp) hpassed
  · rcases mid with _ | ⟨f, mid⟩
    · cases hsplit
      rw [List.append_nil] at hmid
      subst hmid
      simpa [List.getLast?_reverse] using htakes.symm
    · cases hsplit
      simpa using h before e (mid ++ ⟨term, false⟩ :: right) (by simp [hmid]) hpassed

/-- The term `t` with the looseness `k` is the next one to take something: no other term that can
take something binds tighter, nor as tight and further left. The terms on its left have the nearest
first. -/
structure Foremost (labels : Bool) (k : Nat) (left : List Term) (t : Term) (right : List Term) :
    Prop where
  looseness : t.looseness? labels = some k
  left_lt : ∀ before u after, left = after ++ u :: before →
    u.takes before.head? (after.reverse ++ [t]).head? = true →
      ∀ m, u.looseness? labels = some m → k < m
  right_le : ∀ before u after, right = before ++ u :: after →
    u.takes (t :: before).getLast? after.head? = true → ∀ m, u.looseness? labels = some m → k ≤ m

/-- No term of the row that counts can take anything. -/
def Settled (labels : Bool) (row : List Term) : Prop :=
  ∀ before t after, row = before ++ t :: after → ∀ k, t.looseness? labels = some k →
    t.takes before.getLast? after.head? = false

theorem foremost_of_turn (h : turn labels entries = .pivot p) (hstuck : Stuck entries) :
    ∃ k, Foremost labels k (p.left.map (·.term)) p.term (p.right.map (·.term)) := by
  obtain ⟨rfl, k, hk, hleft, hright⟩ := eq_of_turn_pivot h
  obtain ⟨left, term, right⟩ := p
  refine ⟨k, hk, fun before u after hsplit htakes m hm => ?_,
    fun before u after hsplit htakes m hm => ?_⟩
  · obtain ⟨afters, rest, rfl, rfl, hrest⟩ := List.map_eq_append_iff.mp hsplit
    obtain ⟨e, befores, rfl, rfl, rfl⟩ := List.map_eq_cons_iff.mp hrest
    cases hpassed : e.passed with
    | false => exact hleft e (by simp) m (by simpa [Entry.looseness?, hpassed] using hm)
    | true =>
      have hno := hstuck befores.reverse e (afters.reverse ++ ⟨term, false⟩ :: right) (by simp)
        hpassed
      simp only [List.map_reverse, List.getLast?_reverse, List.map_append, List.map_cons,
        List.head?_append, List.head?_cons] at hno htakes
      rw [hno] at htakes
      cases htakes
  · obtain ⟨befores, rest, rfl, rfl, hrest⟩ := List.map_eq_append_iff.mp hsplit
    obtain ⟨e, afters, rfl, rfl, rfl⟩ := List.map_eq_cons_iff.mp hrest
    cases hpassed : e.passed with
    | false => exact hright e (by simp) m (by simpa [Entry.looseness?, hpassed] using hm)
    | true =>
      have hno := hstuck (left.reverse ++ ⟨term, false⟩ :: befores) e afters (by simp) hpassed
      simp only [List.map_append, List.map_cons, List.getLast?_append, List.getLast?_cons] at hno
      simp only [List.getLast?_cons] at htakes
      rw [Option.some_or] at hno
      rw [hno] at htakes
      cases htakes

theorem settled_of_stuck (hstuck : Stuck entries)
    (h : ∀ e ∈ entries, e.looseness? labels = none) : Settled labels (entries.map (·.term)) := by
  intro before t after hsplit k hk
  obtain ⟨befores, rest, rfl, rfl, hrest⟩ := List.map_eq_append_iff.mp hsplit
  obtain ⟨e, afters, rfl, rfl, rfl⟩ := List.map_eq_cons_iff.mp hrest
  have he : e.looseness? labels = none := h e (by simp)
  cases hpassed : e.passed with
  | false => simp [Entry.looseness?, hpassed, hk] at he
  | true => exact hstuck befores e afters rfl hpassed

/-! ## The fold as a whole -/

/-- A fold lets the foremost term take what it can until no term can take anything: what such a
step keeps holds of the folded row. -/
theorem foldRow_induction {P : List Term → Prop} {terms : List Term}
    (step : ∀ k left t right next, P (left.reverse ++ t :: right) →
      Foremost labels k left t right → Taken left right t next → P next)
    (h : P (signs terms)) :
    P (foldRow labels terms) ∧ Settled labels (foldRow labels terms) := by
  suffices key : ∀ entries, P (entries.map (·.term)) → Stuck entries →
      P (foldEntries labels entries) ∧ Settled labels (foldEntries labels entries) by
    refine key _ ?_ (stuck_fresh _)
    simpa [Function.comp_def, Entry.fresh] using h
  intro entries hP hstuck
  fun_induction foldEntries labels entries with
  | case1 entries final hturn =>
    obtain ⟨rfl, hnone⟩ := eq_of_turn_settled hturn
    exact ⟨hP, settled_of_stuck hstuck hnone⟩
  | case2 entries p hturn next htake ih =>
    obtain ⟨k, hforemost⟩ := foremost_of_turn hturn hstuck
    obtain ⟨hrow, -⟩ := eq_of_turn_pivot hturn
    rw [hrow] at hP
    have hnext : P (next.map (·.term)) :=
      step k _ _ _ _ (by simpa using hP) hforemost (taken_of_take? htake)
    apply ih (by simpa [Function.comp_def, Entry.fresh] using hnext)
    simpa [Function.comp_def] using stuck_fresh (next.map (·.term))
  | case3 entries p hturn htake ih =>
    obtain ⟨rfl, -⟩ := eq_of_turn_pivot hturn
    refine ih ?_ (hstuck.passedOver htake)
    simpa [Pivot.passedOver, map_term_row] using hP

end MacroAsm.Fold
