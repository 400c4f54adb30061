import MacroAsm.Proofs.Fold.Form
import MacroAsm.Proofs.Fold.Steps

/-!
# A fold resolves a row as it is read

`foldRow_eq_singleton_iff`: a row of values, operators without operands, indices and label marks
folds to one complete node just if it can be read from left to right with an operator stack, and the
node is the one that it is read as.

Proof. Along the fold, operators that have one operand already stand beside complete nodes. Such a
half-filled operator counts as two pieces (`Term.pieces`), so that a step either leaves the pieces
of the row as they are or replaces an operator and its operands by their node. The reading allows
that replacement if nothing tighter stands on either side. Of an operand that is taken now this
follows from the choice of the pivot: a tighter neighbour that could have taken the operand would
have gone first. Of an operand that was taken before it is kept as the invariant `Term.Fits`.

At the end no term can take anything. A row with several such terms cannot be read
(`eq_singleton_of_settled`): before the first operand there are only operators that want one, and
the last of them, or else what follows the operand, could take it.
-/

namespace MacroAsm.Fold

open Reading

variable {labels : Bool} {k : Nat} {t : Term} {left right row : List Term}

/-! ## What a fold keeps -/

/-- What half-filled operators say of their neighbours: an operator that took its left operand binds
tighter than one before it that wants its right operand, and one that took its right operand no
looser than one after it that wants its left operand. -/
structure Term.Fits (t u : Term) : Prop where
  left : ∀ o l, u = .node (.op o (some l) none) → ∀ k ∈ t.wantsRight?, o.looseness < k
  right : ∀ o r, t = .node (.op o none (some r)) → o.isUnary = false → o ≠ .subscript →
    ∀ k ∈ u.wantsLeft?, o.looseness ≤ k

theorem fits_whole_right {n : Node} (hn : n.isComplete = true) : t.Fits (.node n) := by
  refine ⟨fun o l h => ?_, fun o r _ _ _ k hk => ?_⟩
  · cases h
    simp [Node.isComplete] at hn
  · rw [wantsLeft?_of_complete hn] at hk
    cases hk

theorem fits_whole_left {n : Node} (hn : n.isComplete = true) : (Term.node n).Fits t := by
  refine ⟨fun o l _ k hk => ?_, fun o r h ho _ => ?_⟩
  · rw [wantsRight?_of_complete hn] at hk
    cases hk
  · cases h
    simp [Node.isComplete, ho] at hn

theorem Term.Raw.fits {u : Term} (ht : t.Raw) (hu : u.Raw) : t.Fits u := by
  refine ⟨fun o l h => ?_, fun o r h ho hindex => ?_⟩
  · cases hu with
    | value hn =>
      cases h
      simp [Node.isComplete] at hn
    | operator => cases h
    | index => cases h
    | mark => cases h
  · cases ht with
    | value hn =>
      cases h
      simp [Node.isComplete, ho] at hn
    | operator => cases h
    | index =>
      cases h
      exact absurd rfl hindex
    | mark => cases h

/-- A row of well-formed terms that is read as `result`. -/
structure ReadsAs (labels : Bool) (result : Option Node) (row : List Term) : Prop where
  formed : ∀ t ∈ row, t.Formed
  fits : row.IsChain Term.Fits
  outcome : (wanting []).outcome labels (rowPieces row) = result

/-- A chain split at one of its members: the members before it, the nearest first, and those
after it. -/
theorem isChain_split_reverse {R : Term → Term → Prop} :
    (left.reverse ++ t :: right).IsChain R ↔
      (t :: left).IsChain (flip R) ∧ (t :: right).IsChain R := by
  rw [List.isChain_split, ← List.isChain_reverse, List.reverse_append, List.reverse_reverse]
  exact Iff.rfl

/-! ### The choice of the foremost term -/

theorem Foremost.lt_of_wantsRight {n : Node} (h : Foremost labels k (.node n :: left) t right)
    (hn : n.isComplete = true) : ∀ u ∈ left.head?, ∀ m ∈ u.wantsRight?, k < m := by
  intro u hu m hm
  rcases left with _ | ⟨v, left⟩
  · cases hu
  · cases hu
    refine h.left_lt left u [.node n] rfl ?_ m (looseness?_of_wantsRight? hm)
    obtain ⟨o, l, rfl, -⟩ := eq_of_wantsRight? hm
    simp [Term.takes, Term.isComplete, hn]

theorem Foremost.le_of_wantsLeft {n : Node} (h : Foremost labels k left t (.node n :: right))
    (hn : n.isComplete = true) : ∀ u ∈ right.head?, ∀ m ∈ u.wantsLeft?, k ≤ m := by
  intro u hu m hm
  rcases right with _ | ⟨v, right⟩
  · cases hu
  · cases hu
    refine h.right_le [.node n] u right rfl ?_ m (looseness?_of_wantsLeft? hm)
    obtain ⟨o, r, rfl, ho, -⟩ := eq_of_wantsLeft? hm
    simp [Term.takes, Term.isComplete, hn, ho]

theorem Foremost.looseness_eq {o : Operator} {l r : Option Node}
    (h : Foremost labels k left (.node (.op o l r)) right) : k = o.looseness := by
  have hk := h.looseness
  simp only [Term.looseness?] at hk
  split at hk
  · cases hk
  · exact (Option.some.inj hk).symm

/-! ### One step -/

theorem outcome_congr {ps qs qs' : List Piece}
    (h : ∀ r, (wanting []).run labels ps = some r → r.outcome labels qs = r.outcome labels qs') :
    (wanting []).outcome labels (ps ++ qs) = (wanting []).outcome labels (ps ++ qs') := by
  rw [outcome_append, outcome_append]
  cases hrun : (wanting []).run labels ps with
  | none => rfl
  | some r => exact h r hrun

theorem ReadsAs.of_split {result : Option Node} (hleft : ∀ u ∈ left, u.Formed) (ht : t.Formed)
    (hright : ∀ u ∈ right, u.Formed) (hfitsLeft : left.IsChain (flip Term.Fits))
    (hl : ∀ u ∈ left.head?, u.Fits t) (hr : ∀ u ∈ right.head?, t.Fits u)
    (hfitsRight : right.IsChain Term.Fits)
    (houtcome : (wanting []).outcome labels (rowPieces (left.reverse ++ t :: right)) = result) :
    ReadsAs labels result (left.reverse ++ t :: right) where
  formed := forall_mem_around.mpr ⟨hleft, ht, hright⟩
  fits := isChain_split_reverse.mpr
    ⟨List.isChain_cons.mpr ⟨hl, hfitsLeft⟩, List.isChain_cons.mpr ⟨hr, hfitsRight⟩⟩
  outcome := houtcome

theorem ReadsAs.split {result : Option Node}
    (h : ReadsAs labels result (left.reverse ++ t :: right)) :
    (∀ u ∈ left, u.Formed) ∧ t.Formed ∧ (∀ u ∈ right, u.Formed) ∧
      left.IsChain (flip Term.Fits) ∧ (∀ u ∈ left.head?, u.Fits t) ∧
      (∀ u ∈ right.head?, t.Fits u) ∧ right.IsChain Term.Fits := by
  obtain ⟨hleft, ht, hright⟩ := forall_mem_around.mp h.formed
  obtain ⟨hl, hr⟩ := isChain_split_reverse.mp h.fits
  rw [List.isChain_cons] at hl hr
  exact ⟨hleft, ht, hright, hl.2, hl.1, hr.1, hr.2⟩

theorem ReadsAs.leftOperand {result : Option Node} {o : Operator} {n : Node} {r : Option Node}
    (h : ReadsAs labels result ((Term.node n :: left).reverse ++ .node (.op o none r) :: right))
    (hforemost : Foremost labels k (.node n :: left) (.node (.op o none r)) right)
    (hn : n.isComplete = true) (ho : o.isUnary = false) :
    ReadsAs labels result (left.reverse ++ .node (.op o (some n) r) :: right) := by
  obtain ⟨hformedLeft, hformed, hformedRight, hfitsLeft, -, hfitsRight, hchain⟩ := h.split
  obtain rfl := hforemost.looseness_eq
  have hlt := hforemost.lt_of_wantsRight hn
  have hbefore : ∀ u ∈ left, u.Formed := fun u hu => hformedLeft u (by simp [hu])
  have houtcome := h.outcome
  simp only [List.reverse_cons, List.append_assoc, List.cons_append, List.nil_append,
    rowPieces_append, rowPieces_cons, pieces_whole hn] at houtcome
  cases r with
  | none =>
    -- the operator still lacks its right operand, so that the pieces stay the same
    have hindex : o ≠ .subscript := hformed.ne_subscript
    refine .of_split hbefore (.binary ho hindex (.inr rfl)) hformedRight hfitsLeft.tail ?_ ?_
      hchain ?_
    · intro u hu
      refine ⟨fun o' l' heq m hm => ?_, fun o' r' heq _ _ m hm => ?_⟩
      · cases heq
        exact hlt u hu m hm
      · cases hm
    · intro u hu
      exact ⟨fun o' l' heq m hm => (hfitsRight u hu).left o' l' heq m hm, fun o' r' heq =>
        (by cases heq)⟩
    · rw [pieces_binary ho hindex (.inl rfl)] at houtcome
      simpa [pieces_binary ho hindex (.inr rfl)] using houtcome
  | some m =>
    -- the right operand was taken before, when nothing tighter stood after it
    have hwhole : (Node.op o (some n) (some m)).isComplete = true := by simp [Node.isComplete]
    refine .of_split hbefore (.whole hwhole) hformedRight hfitsLeft.tail
      (fun u _ => fits_whole_right hwhole) (fun u _ => fits_whole_left hwhole) hchain ?_
    rw [← houtcome]
    simp only [rowPieces_append, rowPieces_cons, pieces_whole hwhole]
    apply outcome_congr
    intro s hrun
    have hlt := lt_of_run_left hbefore hrun (looseness_lt_mark o) hlt
    cases hformed with
    | whole hn => simp [Node.isComplete, ho] at hn
    | index => exact (outcome_index hlt).symm
    | binary _ hindex _ =>
      rw [pieces_binary ho hindex (.inl rfl)]
      refine (outcome_binary hlt ?_).symm
      exact le_of_head_right hformedRight (looseness_lt_mark o).le
        fun u hu => (hfitsRight u hu).right o m rfl ho hindex

theorem ReadsAs.rightOperand {result : Option Node} {o : Operator} {l : Option Node} {n : Node}
    (h : ReadsAs labels result (left.reverse ++ .node (.op o l none) :: .node n :: right))
    (hforemost : Foremost labels k left (.node (.op o l none)) (.node n :: right))
    (hn : n.isComplete = true) :
    ReadsAs labels result (left.reverse ++ .node (.op o l (some n)) :: right) := by
  obtain ⟨hformedLeft, hformed, hformedRight, hfitsLeft, hfitsNode, -, hchain⟩ := h.split
  obtain rfl := hforemost.looseness_eq
  have hle := hforemost.le_of_wantsLeft hn
  have hafter : ∀ u ∈ right, u.Formed := fun u hu => hformedRight u (by simp [hu])
  have hhead := le_of_head_right hafter (looseness_lt_mark o).le hle
  have houtcome := h.outcome
  simp only [rowPieces_append, rowPieces_cons, pieces_whole hn] at houtcome
  by_cases hwhole : (Node.op o l (some n)).isComplete = true
  · refine .of_split hformedLeft (.whole hwhole) hafter hfitsLeft
      (fun u _ => fits_whole_right hwhole) (fun u _ => fits_whole_left hwhole) hchain.tail ?_
    rw [← houtcome]
    simp only [rowPieces_append, rowPieces_cons, pieces_whole hwhole]
    apply outcome_congr
    intro s hrun
    cases hformed with
    | whole hn => simp [Node.isComplete] at hn
    | unary ho =>
      rw [pieces_unary ho]
      exact (outcome_unary hhead).symm
    | binary ho hindex _ =>
      rw [pieces_binary ho hindex (.inr rfl)]
      cases l with
      | none => simp [Node.isComplete, ho] at hwhole
      | some l =>
        have hlt := lt_of_run_left hformedLeft hrun (looseness_lt_mark o)
          fun u hu => (hfitsNode u hu).left o l rfl
        exact (outcome_binary hlt hhead).symm
  · -- the operator took its right operand before its left one
    cases hformed with
    | whole hn => simp [Node.isComplete] at hn
    | unary ho => simp [Node.isComplete, ho] at hwhole
    | binary ho hindex _ =>
      cases l with
      | some l => simp [Node.isComplete] at hwhole
      | none =>
        refine .of_split hformedLeft (.binary ho hindex (.inl rfl)) hafter hfitsLeft ?_ ?_
          hchain.tail ?_
        · intro u hu
          exact ⟨fun o' l' heq => (by cases heq), fun o' r' heq ho' hindex' m hm =>
            (hfitsNode u hu).right o' r' heq ho' hindex' m hm⟩
        · intro u hu
          refine ⟨fun o' l' heq m hm => (by cases hm), fun o' r' heq _ _ m hm => ?_⟩
          cases heq
          exact hle u hu m hm
        · rw [pieces_binary ho hindex (.inr rfl)] at houtcome
          simpa [pieces_binary ho hindex (.inl rfl)] using houtcome

theorem ReadsAs.bothOperands {result : Option Node} {o : Operator} {n m : Node}
    (h : ReadsAs labels result
      ((Term.node n :: left).reverse ++ .node (.bare o) :: .node m :: right))
    (hforemost : Foremost labels k (.node n :: left) (.node (.bare o)) (.node m :: right))
    (hn : n.isComplete = true) (hm : m.isComplete = true) (ho : o.isUnary = false) :
    ReadsAs labels result (left.reverse ++ .node (.binary o n m) :: right) := by
  obtain ⟨hformedLeft, hformed, hformedRight, hfitsLeft, -, -, hchain⟩ := h.split
  obtain rfl := hforemost.looseness_eq
  have hbefore : ∀ u ∈ left, u.Formed := fun u hu => hformedLeft u (by simp [hu])
  have hafter : ∀ u ∈ right, u.Formed := fun u hu => hformedRight u (by simp [hu])
  have hindex : o ≠ .subscript := hformed.ne_subscript
  have hwhole : (Node.binary o n m).isComplete = true := by simp [Node.binary, Node.isComplete]
  refine .of_split hbefore (.whole hwhole) hafter hfitsLeft.tail
    (fun u _ => fits_whole_right hwhole) (fun u _ => fits_whole_left hwhole) hchain.tail ?_
  have houtcome := h.outcome
  simp only [List.reverse_cons, List.append_assoc, List.cons_append, List.nil_append,
    rowPieces_append, rowPieces_cons, pieces_whole hn, pieces_whole hm, Node.bare,
    pieces_binary ho hindex (.inl rfl)] at houtcome
  rw [← houtcome]
  simp only [rowPieces_append, rowPieces_cons, pieces_whole hwhole]
  apply outcome_congr
  intro s hrun
  refine (outcome_binary ?_ ?_).symm
  · exact lt_of_run_left hbefore hrun (looseness_lt_mark o) (hforemost.lt_of_wantsRight hn)
  · exact le_of_head_right hafter (looseness_lt_mark o).le (hforemost.le_of_wantsLeft hm)

/-! ## Settled rows -/

/-- Where an operator wants its right operand and nothing can be taken, no operand is ever read. -/
theorem wanting_of_settled {before ts : List Term} {t : Term} {stack : List Frame} {r : Reading}
    (hsettled : Settled labels (before ++ t :: ts)) (hformed : ∀ u ∈ ts, u.Formed)
    (hk : t.wantsRight? = some k)
    (hrun : (wanting stack).run labels (rowPieces ts) = some r) :
    ∃ stack', r = wanting stack' := by
  induction ts generalizing before t stack k with
  | nil =>
    cases hrun
    exact ⟨stack, rfl⟩
  | cons u ts ih =>
    have hsettled' : Settled labels ((before ++ [t]) ++ u :: ts) := by simpa using hsettled
    have hformed' : ∀ v ∈ ts, v.Formed := fun v hv => hformed v (by simp [hv])
    rw [rowPieces_cons] at hrun
    cases hformed u (by simp) with
    | whole hn =>
      have hno := hsettled before t (_ :: ts) rfl k (looseness?_of_wantsRight? hk)
      obtain ⟨o, l, rfl, -⟩ := eq_of_wantsRight? hk
      simp [Term.takes, Term.isComplete, hn] at hno
    | @unary o ho =>
      rw [pieces_unary ho] at hrun
      exact ih hsettled' hformed' (k := o.looseness) rfl hrun
    | @binary o l r ho hindex h =>
      rw [pieces_binary ho hindex h] at hrun
      cases l with
      | none => cases hrun
      | some l =>
        obtain rfl : r = none := by simpa using h
        exact ih hsettled' hformed' (k := o.looseness) rfl hrun
    | index =>
      rw [pieces_index] at hrun
      cases hrun
    | mark => cases hrun

theorem wanting_of_not_isTarget {before ts : List Term} {t : Term} {name : Node} {r : Reading}
    (hsettled : Settled labels (before ++ t :: ts)) (ht : t.Formed) (hformed : ∀ u ∈ ts, u.Formed)
    (htarget : t.isTarget = false)
    (hrun : (targeting name).run labels (t.pieces ++ rowPieces ts) = some r) :
    ∃ stack, r = wanting stack := by
  cases ht with
  | whole hn => simp [Term.isTarget, hn] at htarget
  | @unary o ho =>
    rw [pieces_unary ho] at hrun
    exact wanting_of_settled hsettled hformed (k := o.looseness) rfl hrun
  | @binary o l r' ho hindex h =>
    rw [pieces_binary ho hindex h] at hrun
    cases l with
    | some l =>
      obtain rfl : r' = none := by simpa using h
      exact wanting_of_settled hsettled hformed (k := o.looseness) rfl hrun
    | none =>
      by_cases hset : o = .set
      · subst hset
        cases r' with
        | none => exact wanting_of_settled hsettled hformed (k := Operator.set.looseness) rfl hrun
        | some value => simp [Term.isTarget, lacksLeftSide] at htarget
      · have hnone : (targeting name).step labels (.binary o) = none := by
          cases o <;> first | rfl | exact absurd rfl hset
        simp [hnone] at hrun
  | index =>
    rw [pieces_index] at hrun
    cases hrun
  | mark => cases hrun

/-- Where an operand comes first and nothing can be taken, nothing follows. -/
theorem eq_nil_of_settled {n : Node} {ts : List Term} {r : Reading}
    (hn : n.isComplete = true) (hsettled : Settled labels (.node n :: ts))
    (hformed : ∀ t ∈ ts, t.Formed)
    (hrun : (holding [] n).run labels (rowPieces ts) = some r) (hr : r.finish ≠ none) :
    ts = [] := by
  rcases ts with _ | ⟨u, us⟩
  · rfl
  exfalso
  have hno := hsettled [.node n] u us rfl
  rw [rowPieces_cons] at hrun
  cases hformed u (by simp) with
  | whole hm =>
    rw [pieces_whole hm] at hrun
    cases hrun
  | unary ho =>
    rw [pieces_unary ho] at hrun
    cases hrun
  | @binary o l r ho hindex h =>
    cases l with
    | none =>
      have hk : (Term.node (.op o none r)).wantsLeft? = some o.looseness := by
        simp [Term.wantsLeft?, ho]
      have := hno _ (looseness?_of_wantsLeft? hk)
      simp [Term.takes, Term.isComplete, ho, hn] at this
    | some l =>
      rw [pieces_binary ho hindex h] at hrun
      cases hrun
  | @index m =>
    have hk : (Term.node (.unary .subscript m)).wantsLeft? =
      some Operator.subscript.looseness := rfl
    have := hno _ (looseness?_of_wantsLeft? hk)
    simp [Node.unary, Term.takes, Term.isComplete, Operator.isUnary, hn] at this
  | mark =>
    cases labels with
    | false => cases hrun
    | true =>
      have hmark := hno markLooseness rfl
      rcases us with _ | ⟨v, vs⟩
      · simp [Term.takes, Term.isComplete, hn] at hmark
      · have htarget : v.isTarget = false := by
          simpa [Term.takes, Term.isComplete, hn] using hmark
        have hsettled'' : Settled true ([.node n, .mark] ++ v :: vs) := hsettled
        obtain ⟨stack, rfl⟩ := wanting_of_not_isTarget hsettled'' (hformed v (by simp))
          (fun w hw => hformed w (by simp [hw])) htarget hrun
        exact hr rfl

/-- A row in which nothing can be taken and that can be read is a single complete node. -/
theorem eq_singleton_of_settled {r : Reading} (hsettled : Settled labels row)
    (hformed : ∀ t ∈ row, t.Formed)
    (hrun : (wanting []).run labels (rowPieces row) = some r) (hr : r.finish ≠ none) :
    ∃ n, row = [.node n] ∧ n.isComplete = true := by
  rcases row with _ | ⟨t, ts⟩
  · cases hrun
    exact absurd rfl hr
  have hformed' : ∀ u ∈ ts, u.Formed := fun u hu => hformed u (by simp [hu])
  -- an operator at the front waits for ever
  have hwaits : ∀ {k stack}, t.wantsRight? = some k →
      (wanting stack).run labels (rowPieces ts) = some r → False := by
    intro k stack hk hrun
    have hsettled' : Settled labels ([] ++ t :: ts) := hsettled
    obtain ⟨stack', rfl⟩ := wanting_of_settled hsettled' hformed' hk hrun
    exact hr rfl
  rw [rowPieces_cons] at hrun
  cases hformed t (by simp) with
  | @whole n hn =>
    rw [pieces_whole hn] at hrun
    obtain rfl := eq_nil_of_settled hn hsettled hformed' hrun hr
    exact ⟨n, rfl, hn⟩
  | unary ho =>
    rw [pieces_unary ho] at hrun
    exact (hwaits rfl hrun).elim
  | @binary o l r ho hindex h =>
    rw [pieces_binary ho hindex h] at hrun
    cases l with
    | none => cases hrun
    | some l =>
      obtain rfl : r = none := by simpa using h
      exact (hwaits rfl hrun).elim
  | index =>
    rw [pieces_index] at hrun
    cases hrun
  | mark => cases hrun

/-! ## Labels -/

theorem Foremost.labels_of_mark (h : Foremost labels k left .mark right) :
    labels = true ∧ k = markLooseness := by
  have hk := h.looseness
  cases labels with
  | false => cases hk
  | true => exact ⟨rfl, (Option.some.inj hk).symm⟩

theorem settled_of_mark {name : Node} (h : Foremost labels k (.node name :: left) .mark right)
    (hname : name.isComplete = true) : Settled labels (Term.node name :: left).reverse := by
  intro before u after hsplit m hm
  obtain ⟨rfl, rfl⟩ := h.labels_of_mark
  rw [List.reverse_eq_iff, List.reverse_append, List.reverse_cons, List.append_assoc] at hsplit
  rcases after with _ | ⟨v, after⟩
  · cases hsplit
    rw [looseness?_of_complete hname] at hm
    cases hm
  · by_contra htakes
    have hlt := h.left_lt before.reverse u (v :: after).reverse hsplit ?_ m hm
    · exact absurd (looseness?_le_mark hm) (by omega)
    · simpa using htakes

theorem outcome_eq_none_of_mark {name n : Node} {qs : List Piece}
    (h : Foremost labels k (.node name :: left) .mark right) (hname : name.isComplete = true)
    (hformed : ∀ u ∈ left, u.Formed) (hleft : left ≠ []) :
    (wanting []).outcome labels (rowPieces left.reverse ++ .operand n :: qs) = none := by
  rw [outcome_append, Option.bind_eq_none_iff]
  intro r hrun
  rw [outcome_cons, step_operand]
  cases hstack : r.stack? with
  | none => rfl
  | some stack =>
    have hrun' : (wanting []).run labels (rowPieces (Term.node name :: left).reverse) =
        some (holding stack name) := by
      simp [run_append, pieces_whole hname, hrun, step_operand, hstack]
    have hformed' : ∀ u ∈ (Term.node name :: left).reverse, u.Formed := by
      intro u hu
      rcases List.mem_cons.mp (List.mem_reverse.mp hu) with rfl | hu
      · exact .whole hname
      · exact hformed u hu
    obtain ⟨m, hrow, -⟩ := eq_singleton_of_settled (settled_of_mark h hname) hformed' hrun'
      (by simp [finish])
    have hlength := congrArg List.length hrow
    simp only [List.length_reverse, List.length_cons, List.length_nil] at hlength
    exact absurd (List.length_eq_zero_iff.mp (by omega)) hleft

theorem ReadsAs.label {result : Option Node} {name : Node} {target : Option Node}
    {rest : List Term}
    (h : ReadsAs labels result ((Term.node name :: left).reverse ++ .mark :: right))
    (hforemost : Foremost labels k (.node name :: left) .mark right)
    (hname : name.isComplete = true) (hformed : ∀ u ∈ rest, u.Formed)
    (hchain : rest.IsChain Term.Fits)
    (hread : left = [] → (wanting []).outcome labels (.operand name :: .mark :: rowPieces right) =
      (wanting []).outcome labels (.operand (.label name target) :: rowPieces rest)) :
    ReadsAs labels result (left.reverse ++ .node (.label name target) :: rest) := by
  obtain ⟨hformedLeft, -, -, hfitsLeft, -, -, -⟩ := h.split
  have hbefore : ∀ u ∈ left, u.Formed := fun u hu => hformedLeft u (by simp [hu])
  refine .of_split hbefore (.whole rfl) hformed hfitsLeft.tail
    (fun u _ => fits_whole_right rfl) (fun u _ => fits_whole_left rfl) hchain ?_
  have houtcome := h.outcome
  simp only [List.reverse_cons, List.append_assoc, List.cons_append, List.nil_append,
    rowPieces_append, rowPieces_cons, pieces_whole hname, pieces_mark] at houtcome
  rw [← houtcome, rowPieces_append, rowPieces_cons, pieces_whole rfl]
  by_cases hleft : left = []
  · subst hleft
    exact (hread rfl).symm
  · have hnone : ∀ n qs, (wanting []).outcome labels (rowPieces left.reverse ++ .operand n :: qs) =
        none := fun n qs => outcome_eq_none_of_mark hforemost hname hbefore hleft
    rw [List.cons_append, List.nil_append, hnone, hnone]

/-! ## The fold as a whole -/

/-- Every step keeps what the row is read as. -/
theorem ReadsAs.step {result : Option Node} {next : List Term}
    (h : ReadsAs labels result (left.reverse ++ t :: right))
    (hforemost : Foremost labels k left t right) (htaken : Taken left right t next) :
    ReadsAs labels result next := by
  have hafter := h.split.2.2.1
  have hchain := h.split.2.2.2.2.2.2
  cases htaken with
  | leftOperand hleft hn ho =>
    subst hleft
    exact h.leftOperand hforemost hn ho
  | rightOperand hright hn =>
    subst hright
    exact h.rightOperand hforemost hn
  | bothOperands hleft hn hright hm ho =>
    subst hleft hright
    exact h.bothOperands hforemost hn hm ho
  | bareLabel hleft hname hright =>
    subst hleft hright
    obtain ⟨rfl, rfl⟩ := hforemost.labels_of_mark
    apply h.label hforemost hname (by simp) .nil
    intro _
    simp [outcome_cons, step, finish, closeFrames]
  | target hleft hname hright hn =>
    subst hleft hright
    obtain ⟨rfl, rfl⟩ := hforemost.labels_of_mark
    refine h.label hforemost hname (fun u hu => hafter u (by simp [hu])) hchain.tail fun _ => ?_
    rw [rowPieces_cons, pieces_whole hn]
    refine outcome_label (le_of_head_right (fun u hu => hafter u (by simp [hu])) (le_refl _) ?_)
    exact hforemost.le_of_wantsLeft hn
  | @equate name value before after hleft hname hright =>
    subst hleft hright
    obtain ⟨rfl, rfl⟩ := hforemost.labels_of_mark
    refine h.label hforemost hname (fun u hu => hafter u (by simp [hu])) hchain.tail fun _ => ?_
    rw [rowPieces_cons, Node.unary, pieces_binary rfl (by simp) (.inl rfl)]
    refine outcome_equate (le_of_head_right (fun u hu => hafter u (by simp [hu]))
      (looseness_lt_mark _).le fun u hu => ?_)
    rw [List.isChain_cons] at hchain
    exact (hchain.1 u hu).right .set value rfl rfl (by simp)

theorem readsAs_of_raw (hraw : ∀ t ∈ row, t.Raw) :
    ReadsAs labels ((wanting []).outcome labels (rowPieces row)) row where
  formed := fun t ht => (hraw t ht).formed
  fits := (List.pairwise_of_forall_mem_list fun t ht u hu => (hraw t ht).fits (hraw u hu)).isChain
  outcome := rfl

/-- A row folds to a single complete node just if it can be read, and to the node that it is
read as. -/
theorem foldRow_eq_singleton_iff {n : Node} (hrow : ∀ t ∈ row, t.Raw) :
    foldRow labels row = [.node n] ∧ n.isComplete = true ↔
      (wanting []).outcome labels (rowPieces (signs row)) = some n := by
  have hsigns : ReadsAs labels _ (signs row) := readsAs_of_raw (raw_of_mem_signs hrow)
  obtain ⟨hreads, hsettled⟩ := foldRow_induction (P := ReadsAs labels _)
    (fun _ _ _ _ _ h hforemost htaken => h.step hforemost htaken) hsigns
  rw [← hreads.outcome]
  constructor
  · rintro ⟨hfold, hn⟩
    rw [hfold, rowPieces_cons, pieces_whole hn]
    rfl
  · intro houtcome
    obtain ⟨r, hrun, hr⟩ := Option.bind_eq_some_iff.mp houtcome
    obtain ⟨m, hfold, hm⟩ := eq_singleton_of_settled hsettled hreads.formed hrun (by simp [hr])
    rw [hfold, rowPieces_cons, pieces_whole hm] at houtcome
    cases houtcome
    exact ⟨hfold, hm⟩

end MacroAsm.Fold
