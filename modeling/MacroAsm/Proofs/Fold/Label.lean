import MacroAsm.Proofs.Fold.Marks
import MacroAsm.Proofs.Fold.Resolution

/-!
# Rows with a label mark

`foldTerms_mark`: a row with a mark folds to a label of what stands before the mark, with what
stands after it as its target. The exception is a row with two equate signs after the mark.

Proof. What follows the mark is read inside the frame of the label, which no operator closes, as it
would be read on its own (`Reading.outcome_within`). The frame of an equate is only closed by
another equate sign, as no operator is looser (`Reading.outcome_set`).
-/

namespace MacroAsm

namespace Fold

open Reading

variable {labels : Bool} {n name : Node} {f : Frame} {o : Operator} {stack : List Frame}
  {ps qs : List Piece} {r : Reading} {left right row done base : List Term}

/-! ## Signs around a mark -/

theorem isSignPosition_append (hbase : isSignPosition base = true) :
    isSignPosition (done ++ base) = isSignPosition done := by
  cases done with
  | nil => exact hbase
  | cons t done => rcases t with ⟨_ | _ | _ | _ | _ | ⟨_, _, _ | _⟩ | _⟩ | _ <;> rfl

theorem readSignsOnto_append (hbase : isSignPosition base = true) :
    readSignsOnto (done ++ base) row = base.reverse ++ readSignsOnto done row := by
  fun_induction readSignsOnto done row with
  | case1 done => simp [readSignsOnto]
  | case2 done row hsign ih =>
    rw [readSignsOnto, if_pos (by rwa [isSignPosition_append hbase])]
    exact ih
  | case3 done row hsign ih =>
    rw [readSignsOnto, if_neg (by rwa [isSignPosition_append hbase])]
    exact ih
  | case4 done row hsign ih =>
    rw [readSignsOnto, if_pos (by rwa [isSignPosition_append hbase])]
    exact ih
  | case5 done row hsign ih =>
    rw [readSignsOnto, if_neg (by rwa [isSignPosition_append hbase])]
    exact ih
  | case6 done t row hsub hadd ih =>
    rw [readSignsOnto.eq_4 _ _ _ hsub hadd]
    exact ih

theorem readSignsOnto_mark :
    readSignsOnto done (left ++ .mark :: right) =
      readSignsOnto done left ++ .mark :: signs right := by
  fun_induction readSignsOnto done left with
  | case1 done =>
    rw [List.nil_append, readSignsOnto.eq_4 _ _ _ (by simp) (by simp)]
    have h : readSignsOnto ([] ++ .mark :: done) right = _ := readSignsOnto_append rfl
    simpa [signs] using h
  | case2 done row hsign ih =>
    rw [List.cons_append, readSignsOnto, if_pos hsign]
    exact ih
  | case3 done row hsign ih =>
    rw [List.cons_append, readSignsOnto, if_neg hsign]
    exact ih
  | case4 done row hsign ih =>
    rw [List.cons_append, readSignsOnto, if_pos hsign]
    exact ih
  | case5 done row hsign ih =>
    rw [List.cons_append, readSignsOnto, if_neg hsign]
    exact ih
  | case6 done t row hsub hadd ih =>
    rw [List.cons_append, readSignsOnto.eq_4 _ _ _ hsub hadd]
    exact ih

theorem signs_mark : signs (left ++ .mark :: right) = signs left ++ .mark :: signs right :=
  readSignsOnto_mark

theorem exists_readSignsOnto (done row : List Term) :
    ∃ tail, readSignsOnto done row = done.reverse ++ tail := by
  fun_induction readSignsOnto done row with
  | case1 done => exact ⟨[], by simp⟩
  | case2 done row _ ih | case3 done row _ ih | case5 done row _ ih =>
    obtain ⟨tail, htail⟩ := ih
    exact ⟨_ :: tail, by simpa using htail⟩
  | case4 done row _ ih => exact ih
  | case6 done t row _ _ ih =>
    obtain ⟨tail, htail⟩ := ih
    exact ⟨t :: tail, by simpa using htail⟩

theorem signs_add : signs (.node (.bare .add) :: row) = signs row := rfl

theorem signs_sub :
    signs (.node (.bare .sub) :: row) = readSignsOnto [.node (.bare .neg)] row := rfl

/-- The row starts with an equate sign, apart from signs that say nothing, and `value` follows. -/
def Equates (row value : List Term) : Prop :=
  ∃ k, row = List.replicate k (.node (.bare .add)) ++ .node (.bare .set) :: value

theorem signs_of_equates {value : List Term} (h : Equates row value) :
    signs row = .node (.bare .set) :: signs value := by
  obtain ⟨k, rfl⟩ := h
  induction k with
  | zero =>
    have h : readSignsOnto ([] ++ [.node (.bare .set)]) value = _ := readSignsOnto_append rfl
    rw [List.replicate_zero, List.nil_append, signs, readSignsOnto.eq_4 _ _ _ (by simp [Node.bare])
      (by simp [Node.bare])]
    simpa [signs] using h
  | succ k ih =>
    rw [List.replicate_succ, List.cons_append, signs_add]
    exact ih

theorem equates_of_signs {rest : List Term} (h : signs row = .node (.bare .set) :: rest) :
    ∃ value, Equates row value ∧ rest = signs value := by
  induction row with
  | nil => cases h
  | cons t row ih =>
    by_cases hadd : t = .node (.bare .add)
    · subst hadd
      rw [signs_add] at h
      obtain ⟨value, ⟨k, rfl⟩, rfl⟩ := ih h
      exact ⟨value, ⟨k + 1, by simp [List.replicate_succ]⟩, rfl⟩
    by_cases hsub : t = .node (.bare .sub)
    · subst hsub
      obtain ⟨tail, htail⟩ := exists_readSignsOnto [.node (.bare .neg)] row
      rw [signs_sub, htail] at h
      cases h
    · obtain ⟨tail, htail⟩ := exists_readSignsOnto [t] row
      have hrow : signs (t :: row) = readSignsOnto [t] row :=
        readSignsOnto.eq_4 _ _ _ (fun heq => hsub heq) fun heq => hadd heq
      have hhead : t = .node (.bare .set) := by
        rw [hrow, htail] at h
        exact (List.cons.inj h).1
      subst hhead
      have hequates : Equates (.node (.bare .set) :: row) row := ⟨0, rfl⟩
      rw [signs_of_equates hequates] at h
      exact ⟨row, hequates, (List.cons.inj h).2.symm⟩

/-! ## Reading inside a frame that stays open -/

namespace Reading

/-- A reading inside the frame `f`. -/
def within (f : Frame) : Reading → Reading
  | wanting stack => wanting (stack ++ [f])
  | holding stack n => holding (stack ++ [f]) n
  | targeting name => targeting name

def NotTargeting (r : Reading) : Prop := ∀ name, r ≠ targeting name

theorem looseness_le_mark (f : Frame) : f.looseness ≤ markLooseness := by
  cases f with
  | unary o => exact (looseness_lt_mark o).le
  | binary o => exact (looseness_lt_mark o).le
  | label => exact Nat.le_refl _
  | equate => exact (looseness_lt_mark .set).le

theorem unwind_append {k : Nat} (hk : k < f.looseness) :
    unwind k (stack ++ [f]) n = ((unwind k stack n).1 ++ [f], (unwind k stack n).2) := by
  induction stack generalizing n with
  | nil => exact unwind_of_lt (by simpa using hk)
  | cons g stack ih =>
    rw [List.cons_append]
    by_cases hg : g.looseness ≤ k
    · rw [unwind_of_le hg, unwind_of_le hg]
      exact ih
    · rw [unwind, if_neg hg, unwind, if_neg hg]
      rfl

theorem closeFrames_append : closeFrames (stack ++ [f]) n = f.close (closeFrames stack n) := by
  simp [closeFrames]

theorem step_within (labels : Bool) {p : Piece} (hr : r.NotTargeting)
    (hp : ∀ k, p.leftLooseness? = some k → k < f.looseness) :
    (r.within f).step labels p = (r.step labels p).map (within f) ∧
      ∀ r', r.step labels p = some r' → r'.NotTargeting := by
  have hmark : p ≠ .mark := by
    rintro rfl
    have hlt := hp markLooseness rfl
    have hle := looseness_le_mark f
    omega
  cases r with
  | targeting name => exact absurd rfl (hr name)
  | wanting stack =>
    cases p with
    | operand | unary => exact ⟨rfl, by rintro _ ⟨⟩ name ⟨⟩⟩
    | mark => exact absurd rfl hmark
    | _ => exact ⟨rfl, by rintro _ ⟨⟩⟩
  | holding stack n =>
    cases p with
    | operand | unary => exact ⟨rfl, by rintro _ ⟨⟩⟩
    | mark => exact absurd rfl hmark
    | binary o =>
      refine ⟨?_, by rintro _ ⟨⟩ name ⟨⟩⟩
      simp only [within, step, unwind_append (hp o.looseness rfl)]
      rfl
    | index i =>
      refine ⟨?_, by rintro _ ⟨⟩ name ⟨⟩⟩
      simp only [within, step, unwind_append (hp _ rfl)]
      rfl

theorem run_within (labels : Bool) (hr : r.NotTargeting)
    (hps : ∀ p ∈ ps, ∀ k, p.leftLooseness? = some k → k < f.looseness) :
    (r.within f).run labels ps = (r.run labels ps).map (within f) ∧
      ∀ r', r.run labels ps = some r' → r'.NotTargeting := by
  induction ps generalizing r with
  | nil => exact ⟨rfl, by rintro _ ⟨⟩; exact hr⟩
  | cons p ps ih =>
    rw [List.forall_mem_cons] at hps
    obtain ⟨hstep, hnext⟩ := step_within labels hr hps.1
    rw [run_cons, run_cons, hstep]
    cases hmid : r.step labels p with
    | none => exact ⟨rfl, by rintro _ ⟨⟩⟩
    | some mid => exact ih (hnext mid hmid) hps.2

theorem finish_within (hr : r.NotTargeting) : (r.within f).finish = r.finish.map f.close := by
  cases r with
  | wanting => rfl
  | holding => exact congrArg some closeFrames_append
  | targeting name => exact absurd rfl (hr name)

theorem outcome_within (hr : r.NotTargeting)
    (hps : ∀ p ∈ ps, ∀ k, p.leftLooseness? = some k → k < f.looseness) :
    (r.within f).outcome labels ps = (r.outcome labels ps).map f.close := by
  obtain ⟨hrun, hopen⟩ := run_within labels hr hps
  rw [outcome, outcome, hrun]
  cases hend : r.run labels ps with
  | none => rfl
  | some r' => exact finish_within (hopen r' hend)

/-! ## Equate signs -/

/-- The frames around the last operand. -/
def frames : Reading → List Frame
  | wanting stack => stack
  | holding stack _ => stack
  | targeting _ => []

theorem looseness_le_set (o : Operator) : o.looseness ≤ Operator.set.looseness := by
  cases o <;> decide

theorem looseness_lt_set {p : Piece} (hset : p ≠ .binary .set) (hmark : p ≠ .mark) :
    ∀ k, p.leftLooseness? = some k → k < Operator.set.looseness := by
  intro k hk
  cases p with
  | binary o =>
    cases hk
    have hne : o ≠ .set := fun h => hset (h ▸ rfl)
    revert hne
    cases o <;> decide
  | index =>
    cases hk
    decide
  | mark => exact absurd rfl hmark
  | operand => cases hk
  | unary => cases hk

theorem looseness_lt_label {p : Piece} (hmark : p ≠ .mark) :
    ∀ k, p.leftLooseness? = some k → k < (Frame.label name).looseness := by
  intro k hk
  cases p with
  | binary o =>
    cases hk
    exact looseness_lt_mark o
  | index =>
    cases hk
    exact looseness_lt_mark .subscript
  | mark => exact absurd rfl hmark
  | operand => cases hk
  | unary => cases hk

theorem looseness_lt_set_of_mem (hset : .binary .set ∉ ps) (hmark : .mark ∉ ps) :
    ∀ p ∈ ps, ∀ k, p.leftLooseness? = some k → k < Operator.set.looseness := by
  intro p hp
  apply looseness_lt_set
  · rintro rfl
    exact hset hp
  · rintro rfl
    exact hmark hp

theorem mem_unwind {k : Nat} : ∀ g ∈ (unwind k stack n).1, g ∈ stack := by
  induction stack generalizing n with
  | nil => simp [unwind]
  | cons f stack ih =>
    intro g hg
    by_cases hf : f.looseness ≤ k
    · rw [unwind_of_le hf] at hg
      exact List.mem_cons_of_mem _ (ih g hg)
    · rw [unwind, if_neg hf] at hg
      exact hg

theorem unwind_all {k : Nat} (h : ∀ f ∈ stack, f.looseness ≤ k) :
    unwind k stack n = ([], closeFrames stack n) := by
  induction stack generalizing n with
  | nil => rfl
  | cons f stack ih =>
    rw [List.forall_mem_cons] at h
    rw [unwind_of_le h.1, ih h.2]
    rfl

theorem looseness_frames {r' : Reading} (hr : r.NotTargeting)
    (h : ∀ f ∈ r.frames, f.looseness ≤ Operator.set.looseness) (hmark : .mark ∉ ps)
    (hrun : r.run labels ps = some r') :
    ∀ f ∈ r'.frames, f.looseness ≤ Operator.set.looseness := by
  induction ps generalizing r with
  | nil =>
    cases hrun
    exact h
  | cons p ps ih =>
    rw [List.mem_cons, not_or] at hmark
    rw [run_cons, Option.bind_eq_some_iff] at hrun
    obtain ⟨mid, hstep, hrun⟩ := hrun
    have hlt : ∀ k, p.leftLooseness? = some k → k < (Frame.label (.text "")).looseness :=
      looseness_lt_label fun h => hmark.1 h.symm
    have hopen : mid.NotTargeting := (step_within labels hr hlt).2 mid hstep
    refine ih hopen ?_ hmark.2 hrun
    cases r with
    | targeting name => exact absurd rfl (hr name)
    | wanting stack =>
      cases p with
      | operand =>
        cases hstep
        exact h
      | unary o =>
        cases hstep
        exact List.forall_mem_cons.mpr ⟨looseness_le_set o, h⟩
      | _ => cases hstep
    | holding stack n =>
      cases p with
      | binary o =>
        cases hstep
        exact List.forall_mem_cons.mpr ⟨looseness_le_set o, fun g hg => h g (mem_unwind g hg)⟩
      | index =>
        cases hstep
        exact fun g hg => h g (mem_unwind g hg)
      | mark => exact absurd rfl hmark.1
      | _ => cases hstep

/-- An equate sign closes all frames inside one that binds as loosely as it does, and this one. -/
theorem outcome_set (hf : f.looseness = Operator.set.looseness) (hset : .binary .set ∉ ps)
    (hmark : .mark ∉ ps) :
    (wanting [f]).outcome labels (ps ++ .binary .set :: qs) =
      ((wanting []).outcome labels ps).bind fun n =>
        (wanting [.binary .set (f.close n)]).outcome labels qs := by
  have hopen : (wanting []).NotTargeting := by rintro name ⟨⟩
  have hlt : ∀ p ∈ ps, ∀ k, p.leftLooseness? = some k → k < f.looseness := by
    rw [hf]
    exact looseness_lt_set_of_mem hset hmark
  obtain ⟨hrun, hend⟩ := run_within labels hopen hlt
  have hwithin : (wanting [f]).run labels ps = ((wanting []).run labels ps).map (within f) := hrun
  rw [outcome_append, hwithin, outcome]
  cases hr : (wanting []).run labels ps with
  | none => rfl
  | some r =>
    have hframes : ∀ g ∈ r.frames, g.looseness ≤ Operator.set.looseness :=
      looseness_frames hopen (by simp [frames]) hmark hr
    cases r with
    | targeting name => exact absurd rfl (hend _ hr name)
    | wanting stack => rfl
    | holding stack n =>
      have hall : ∀ g ∈ stack ++ [f], g.looseness ≤ Operator.set.looseness := by
        intro g hg
        rcases List.mem_append.mp hg with hg | hg
        · exact hframes g hg
        · rw [List.mem_singleton.mp hg, hf]
      show (holding (stack ++ [f]) n).outcome labels (.binary .set :: qs) = _
      rw [outcome_cons, step, unwind_all hall, closeFrames_append]
      rfl

theorem occurs_of_outcome_set {l : Node} (hmark : .mark ∉ ps)
    (h : (wanting [.binary .set l]).outcome labels ps = some n) :
    (∃ left right, n = .binary .set left right) ∧ n.Occurs .inner l := by
  -- each further equate sign takes the assignment so far as its left side
  induction hlength : ps.length using Nat.strong_induction_on generalizing ps l with
  | _ m ih =>
    by_cases hset : .binary .set ∈ ps
    · obtain ⟨front, back, rfl, hfront⟩ := List.eq_append_cons_of_mem hset
      have hmarks : .mark ∉ front ∧ .mark ∉ back := by simpa using hmark
      rw [outcome_set (f := .binary .set l) rfl hfront hmarks.1, Option.bind_eq_some_iff] at h
      obtain ⟨value, -, h⟩ := h
      have hlt : back.length < m := by
        rw [← hlength, List.length_append, List.length_cons]
        omega
      obtain ⟨hn, hoccurs⟩ := ih back.length hlt hmarks.2 h rfl
      exact ⟨hn, .left hoccurs⟩
    · have hlt : ∀ p ∈ ps, ∀ k, p.leftLooseness? = some k →
          k < (Frame.binary .set l).looseness := looseness_lt_set_of_mem hset hmark
      have hopen : (wanting []).NotTargeting := by rintro name ⟨⟩
      have hwithin : (wanting [.binary .set l]).outcome labels ps = _ := outcome_within hopen hlt
      rw [hwithin, Option.map_eq_some_iff] at h
      obtain ⟨value, -, rfl⟩ := h
      exact ⟨⟨l, value, rfl⟩, .left .root⟩

/-! ## Targets -/

/-- What follows the mark of a label is read as its target, if it does not start with an equate
sign. -/
theorem outcome_targeting {p : Piece} (hset : p ≠ .binary .set) (hmark : .mark ∉ p :: ps) :
    (targeting name).outcome labels (p :: ps) =
      ((wanting []).outcome labels (p :: ps)).map fun n => .label name (some n) := by
  have hlt : ∀ q ∈ ps, ∀ k, q.leftLooseness? = some k → k < (Frame.label name).looseness := by
    intro q hq
    apply looseness_lt_label
    rintro rfl
    exact hmark (List.mem_cons_of_mem _ hq)
  rw [outcome_cons, outcome_cons]
  cases p with
  | operand n => exact outcome_within (r := holding [] n) (by rintro name ⟨⟩) hlt
  | unary o => exact outcome_within (r := wanting [.unary o]) (by rintro name ⟨⟩) hlt
  | binary o =>
    have hne : o ≠ .set := fun h => hset (h ▸ rfl)
    have hnone : (targeting name).step labels (.binary o) = none := by
      cases o <;> first | rfl | exact absurd rfl hne
    rw [hnone]
    rfl
  | index => rfl
  | mark => exact absurd (List.mem_cons_self ..) hmark

theorem outcome_equates (hset : .binary .set ∉ ps) (hmark : .mark ∉ ps) :
    (targeting name).outcome labels (.binary .set :: ps) =
      ((wanting []).outcome labels ps).map fun n => .label name (some (.unary .set n)) := by
  have hlt : ∀ p ∈ ps, ∀ k, p.leftLooseness? = some k → k < (Frame.equate name).looseness :=
    looseness_lt_set_of_mem hset hmark
  rw [outcome_cons]
  exact outcome_within (r := wanting []) (by rintro name ⟨⟩) hlt

theorem occurs_of_outcome_equates (hset : .binary .set ∈ ps) (hmark : .mark ∉ ps)
    (h : (targeting name).outcome labels (.binary .set :: ps) = some n) :
    (∃ left right, n = .binary .set left right) ∧
      ∃ target, n.Occurs .inner (.label name target) := by
  obtain ⟨front, back, rfl, hfront⟩ := List.eq_append_cons_of_mem hset
  have hmarks : .mark ∉ front ∧ .mark ∉ back := by simpa using hmark
  rw [outcome_cons] at h
  have hequate : (wanting [.equate name]).outcome labels (front ++ .binary .set :: back) =
      some n := h
  rw [outcome_set rfl hfront hmarks.1, Option.bind_eq_some_iff] at hequate
  obtain ⟨value, -, hequate⟩ := hequate
  obtain ⟨hn, hoccurs⟩ := occurs_of_outcome_set hmarks.2 hequate
  exact ⟨hn, _, hoccurs⟩

end Reading

/-! ## Rows with a mark -/

/-- The row starts with an equate sign and has another one. -/
def EquatesTwice (row : List Term) : Prop :=
  ∃ value, Equates row value ∧ .node (.bare .set) ∈ value

/-- The target of a label that the row makes: the node that it folds to, if any, or the equate sign
that it starts with, with the node that the rest folds to. -/
inductive IsTarget (row : List Term) : Option Node → Prop
  | whole {target} (h : foldTerms .line row = .ok target) : IsTarget row target
  | equate {value n} (hrow : Equates row value) (h : foldTerms .line value = .ok (some n)) :
      IsTarget row (some (.unary .set n))

theorem IsTarget.unlabelled (h : IsTarget row (some n)) (hrow : RowUnlabelled row) :
    n.Unlabelled := by
  cases h with
  | whole h => exact unlabelled_of_foldTerms hrow h
  | equate hequates h =>
    obtain ⟨k, rfl⟩ := hequates
    have hvalue := unlabelled_of_foldTerms (fun t ht => hrow t (by simp [ht])) h
    refine .op (fun _ h => by cases h) ?_
    rintro _ ⟨⟩
    exact hvalue

theorem foldTerms_line_iff (hrow : ∀ t ∈ row, t.Raw) :
    foldTerms .line row = .ok (some n) ↔
      (wanting []).outcome true (rowPieces (signs row)) = some n := by
  rw [← foldRow_eq_singleton_iff hrow]
  constructor
  · intro h
    rcases eq_of_foldTerms (by simp) h with ⟨m, hfold, hm, heq⟩ | ⟨-, hempty⟩
    · cases heq
      exact ⟨hfold, hm⟩
    · cases hempty
  · rintro ⟨hfold, hn⟩
    exact foldTerms_of_foldRow (by simp) hfold hn

theorem foldTerms_nil {place : Place} (hplace : ∀ name size, place ≠ .call name size)
    (h : signs row = []) : foldTerms place row = foldEmpty place := by
  have hfold : ∀ labels, foldRow labels row = [] := by
    intro labels
    rw [foldRow, h, foldEntries]
    rfl
  rw [foldTerms.eq_2 _ _ hplace, hfold]

theorem foldTerms_line_nil (h : signs row = []) : foldTerms .line row = .ok none :=
  foldTerms_nil (by simp) h

theorem exists_pieces_of_raw {t : Term} (ht : t.Raw) :
    ∃ p, t.pieces = [p] ∧ (p = .binary .set → t = .node (.bare .set)) ∧
      (p = .mark → t = .mark) := by
  cases ht with
  | value hn => exact ⟨_, pieces_whole hn, by rintro ⟨⟩, by rintro ⟨⟩⟩
  | @operator o ho =>
    by_cases hu : o.isUnary = true
    · exact ⟨_, pieces_unary hu, by rintro ⟨⟩, by rintro ⟨⟩⟩
    · rw [Bool.not_eq_true] at hu
      exact ⟨_, pieces_binary hu ho (.inl rfl), by rintro ⟨⟩; rfl, by rintro ⟨⟩⟩
  | index => exact ⟨_, pieces_index, by rintro ⟨⟩, by rintro ⟨⟩⟩
  | mark => exact ⟨_, rfl, by rintro ⟨⟩, fun _ => rfl⟩

theorem set_mem_rowPieces (hrow : ∀ t ∈ row, t.Raw) :
    .binary .set ∈ rowPieces row ↔ .node (.bare .set) ∈ row := by
  constructor
  · intro h
    obtain ⟨t, ht, hmem⟩ := List.mem_flatMap.mp h
    obtain ⟨p, hpieces, hset, -⟩ := exists_pieces_of_raw (hrow t ht)
    rw [hpieces, List.mem_singleton] at hmem
    rwa [← hset hmem.symm]
  · intro h
    refine List.mem_flatMap.mpr ⟨_, h, ?_⟩
    rw [Node.bare, pieces_binary rfl (by decide) (.inl rfl)]
    exact List.mem_singleton.mpr rfl

theorem mark_not_mem_rowPieces (hrow : ∀ t ∈ row, t.Raw) (hmark : .mark ∉ row) :
    .mark ∉ rowPieces row := by
  intro h
  obtain ⟨t, ht, hmem⟩ := List.mem_flatMap.mp h
  obtain ⟨p, hpieces, -, hp⟩ := exists_pieces_of_raw (hrow t ht)
  rw [hpieces, List.mem_singleton] at hmem
  exact hmark (hp hmem.symm ▸ ht)

theorem set_mem_signs : .node (.bare .set) ∈ signs row ↔ .node (.bare .set) ∈ row := by
  constructor
  · intro h
    refine (forall_mem_signs (P := fun t => t = .node (.bare .set) → .node (.bare .set) ∈ row)
      ?_ ?_ _ h) rfl
    · simp [Node.bare]
    · rintro t ht rfl
      exact ht
  · exact mem_signs (by simp [Node.bare]) (by simp [Node.bare])

theorem mark_not_mem_signs (h : .mark ∉ row) : .mark ∉ signs row := by
  intro hmem
  refine (forall_mem_signs (P := fun t => t = .mark → False) (by simp) ?_ _ hmem) rfl
  rintro t ht rfl
  exact h ht

theorem equatesTwice_iff {value : List Term} (h : Equates row value) :
    EquatesTwice row ↔ .node (.bare .set) ∈ value := by
  constructor
  · rintro ⟨value', hequates, htwice⟩
    have hsigns : signs value' = signs value :=
      (List.cons.inj ((signs_of_equates hequates).symm.trans (signs_of_equates h))).2
    rw [← set_mem_signs] at htwice ⊢
    rwa [← hsigns]
  · intro htwice
    exact ⟨value, h, htwice⟩

/-- What the row after a mark makes of a label with the given name: a label, or an assignment with
one on its left side if the row has two equate signs. -/
def Labels (row : List Term) (name n : Node) : Prop :=
  (¬ EquatesTwice row ∧ ∃ target, IsTarget row target ∧ n = .label name target) ∨
    EquatesTwice row ∧ (∃ l r, n = .binary .set l r) ∧
      ∃ target, n.Occurs .inner (.label name target)

theorem labels_of_equates {value : List Term} (hequates : Equates row value)
    (hrow : ∀ t ∈ row, t.Raw) (hmark : .mark ∉ row)
    (h : (targeting name).outcome true (.binary .set :: rowPieces (signs value)) = some n) :
    Labels row name n := by
  have hmem : ∀ t ∈ value, t ∈ row := by
    obtain ⟨k, rfl⟩ := hequates
    exact fun t ht => by simp [ht]
  have hvalue : ∀ t ∈ value, t.Raw := fun t ht => hrow t (hmem t ht)
  have hset : .binary .set ∈ rowPieces (signs value) ↔ EquatesTwice row := by
    rw [set_mem_rowPieces (raw_of_mem_signs hvalue), set_mem_signs, equatesTwice_iff hequates]
  have hpieces : .mark ∉ rowPieces (signs value) :=
    mark_not_mem_rowPieces (raw_of_mem_signs hvalue) (mark_not_mem_signs fun h => hmark (hmem _ h))
  by_cases htwice : EquatesTwice row
  · exact .inr ⟨htwice, occurs_of_outcome_equates (hset.mpr htwice) hpieces h⟩
  · rw [outcome_equates (fun h => htwice (hset.mp h)) hpieces, Option.map_eq_some_iff] at h
    obtain ⟨m, hm, rfl⟩ := h
    exact .inl ⟨htwice, _, .equate hequates ((foldTerms_line_iff hvalue).mpr hm), rfl⟩

/-- What stands after a mark is the target of the label. -/
theorem labels_of_outcome (hrow : ∀ t ∈ row, t.Raw) (hmark : .mark ∉ row)
    (h : (targeting name).outcome true (rowPieces (signs row)) = some n) : Labels row name n := by
  have hpieces : .mark ∉ rowPieces (signs row) :=
    mark_not_mem_rowPieces (raw_of_mem_signs hrow) (mark_not_mem_signs hmark)
  rcases hsigns : signs row with _ | ⟨t, rest⟩
  · rw [hsigns] at h
    cases h
    refine .inl ⟨?_, none, .whole (foldTerms_line_nil hsigns), rfl⟩
    rintro ⟨value, hequates, -⟩
    rw [signs_of_equates hequates] at hsigns
    cases hsigns
  have hraw : ∀ u ∈ t :: rest, u.Raw := hsigns ▸ raw_of_mem_signs hrow
  obtain ⟨p, hp, hset, -⟩ := exists_pieces_of_raw (hraw t (by simp))
  rw [hsigns, rowPieces_cons, hp, List.singleton_append] at h hpieces
  by_cases heq : p = .binary .set
  · obtain rfl := hset heq
    obtain ⟨value, hequates, rfl⟩ := equates_of_signs hsigns
    subst heq
    exact labels_of_equates hequates hrow hmark h
  · rw [outcome_targeting heq hpieces, Option.map_eq_some_iff] at h
    obtain ⟨m, hm, rfl⟩ := h
    have hfold : foldTerms .line row = .ok (some m) := by
      rw [foldTerms_line_iff hrow, hsigns, rowPieces_cons, hp]
      exact hm
    refine .inl ⟨?_, some m, .whole hfold, rfl⟩
    rintro ⟨value, hequates, -⟩
    rw [signs_of_equates hequates] at hsigns
    cases hsigns
    rw [Node.bare, pieces_binary rfl (by decide) (.inl rfl)] at hp
    exact heq (List.singleton_inj.mp hp).symm

/-- A row with a mark folds to a label, of which the name is what stands before the mark and the
target what stands after it, unless two equate signs follow the mark. Then the equate of the label
is the left side of an assignment. -/
theorem foldTerms_mark (hleft : ∀ t ∈ left, t.Raw) (hright : ∀ t ∈ right, t.Raw)
    (hmark : .mark ∉ right) (h : foldTerms .line (left ++ .mark :: right) = .ok (some n)) :
    ∃ name, foldTerms .line left = .ok (some name) ∧ Labels right name n := by
  have hrow : ∀ t ∈ left ++ .mark :: right, t.Raw :=
    List.forall_mem_append.mpr ⟨hleft, List.forall_mem_cons.mpr ⟨.mark, hright⟩⟩
  rw [foldTerms_line_iff hrow, signs_mark, rowPieces_append, rowPieces_cons, pieces_mark,
    List.singleton_append, outcome_append, Option.bind_eq_some_iff] at h
  obtain ⟨r, hrun, h⟩ := h
  rw [outcome_cons] at h
  cases r with
  | wanting stack => cases h
  | targeting name => cases h
  | holding stack m =>
    have hname : foldTerms .line left = .ok (some (closeFrames stack m)) := by
      rw [foldTerms_line_iff hleft, outcome, hrun]
      rfl
    exact ⟨_, hname, labels_of_outcome hright hmark h⟩

end Fold

end MacroAsm
