import MacroAsm.Proofs.Fold.Stack

/-!
# The terms of a row

The forms that a term has before a row is folded (`Term.Raw`) and while it is folded
(`Term.Formed`), what a term still wants on either side, and which pieces it is read as.
`lt_of_run_left` and `le_of_head_right` turn what the neighbours of a place in a row want into what
a reading needs to know there.
-/

namespace MacroAsm.Fold

open Reading

variable {labels : Bool} {k : Nat} {t : Term} {left right row : List Term}

/-! ## The forms of a term -/

/-- The terms that the row of a scope consists of before it is folded. -/
inductive Term.Raw : Term → Prop
  | value {n} (hn : n.isComplete = true) : Raw (.node n)
  | operator {o} (ho : o ≠ .subscript) : Raw (.node (.bare o))
  | index {n} (hn : n.isComplete = true) : Raw (.node (.unary .subscript n))
  | mark : Raw .mark

/-- The terms that occur while a row is folded. -/
inductive Term.Formed : Term → Prop
  | whole {n} (hn : n.isComplete = true) : Formed (.node n)
  | unary {o} (ho : o.isUnary = true) : Formed (.node (.op o none none))
  | binary {o l r} (ho : o.isUnary = false) (hindex : o ≠ .subscript) (h : l = none ∨ r = none) :
      Formed (.node (.op o l r))
  | index {n} : Formed (.node (.unary .subscript n))
  | mark : Formed .mark

theorem Term.Raw.formed (h : t.Raw) : t.Formed := by
  cases h with
  | value hn => exact .whole hn
  | @operator o ho =>
    cases hu : o.isUnary with
    | false => exact .binary hu ho (.inl rfl)
    | true => exact .unary hu
  | index => exact .index
  | mark => exact .mark

theorem Term.Formed.ne_subscript {o : Operator} {l : Option Node}
    (h : (Term.node (.op o l none)).Formed) : o ≠ .subscript := by
  rintro rfl
  cases h with
  | whole hn => simp [Node.isComplete] at hn
  | unary ho => cases ho
  | binary _ hindex _ => exact hindex rfl

/-- How loosely an operator binds that lacks its right operand. -/
def Term.wantsRight? : Term → Option Nat
  | .node (.op o _ none) => some o.looseness
  | _ => none

/-- How loosely an operator binds that lacks its left operand. -/
def Term.wantsLeft? : Term → Option Nat
  | .node (.op o none _) => if o.isUnary then none else some o.looseness
  | _ => none

theorem eq_of_wantsRight? (h : t.wantsRight? = some k) :
    ∃ o l, t = .node (.op o l none) ∧ o.looseness = k := by
  unfold Term.wantsRight? at h
  split at h
  next o l => exact ⟨o, l, rfl, Option.some.inj h⟩
  next => cases h

theorem eq_of_wantsLeft? (h : t.wantsLeft? = some k) :
    ∃ o r, t = .node (.op o none r) ∧ o.isUnary = false ∧ o.looseness = k := by
  unfold Term.wantsLeft? at h
  split at h
  next o r =>
    split at h
    next => cases h
    next ho => exact ⟨o, r, rfl, by simpa using ho, Option.some.inj h⟩
  next => cases h

theorem wantsRight?_of_complete {n : Node} (h : n.isComplete = true) :
    (Term.node n).wantsRight? = none := by
  cases hw : (Term.node n).wantsRight? with
  | none => rfl
  | some k =>
    obtain ⟨o, l, heq, -⟩ := eq_of_wantsRight? hw
    cases heq
    simp [Node.isComplete] at h

theorem wantsLeft?_of_complete {n : Node} (h : n.isComplete = true) :
    (Term.node n).wantsLeft? = none := by
  cases hw : (Term.node n).wantsLeft? with
  | none => rfl
  | some k =>
    obtain ⟨o, r, heq, ho, -⟩ := eq_of_wantsLeft? hw
    cases heq
    simp [Node.isComplete, ho] at h

theorem looseness?_of_wantsRight? (h : t.wantsRight? = some k) : t.looseness? labels = some k := by
  obtain ⟨o, l, rfl, rfl⟩ := eq_of_wantsRight? h
  simp [Term.looseness?, Node.isComplete]

theorem looseness?_of_wantsLeft? (h : t.wantsLeft? = some k) : t.looseness? labels = some k := by
  obtain ⟨o, r, rfl, ho, rfl⟩ := eq_of_wantsLeft? h
  simp [Term.looseness?, Node.isComplete, ho]

theorem looseness?_of_complete {n : Node} (h : n.isComplete = true) :
    (Term.node n).looseness? labels = none := by
  cases n <;> simp_all [Term.looseness?]

theorem looseness_lt_mark (o : Operator) : o.looseness < markLooseness := by
  cases o <;> decide

theorem looseness?_le_mark (h : t.looseness? labels = some k) : k ≤ markLooseness := by
  unfold Term.looseness? at h
  split at h
  · split at h <;> cases h
    exact Nat.le_refl _
  · split at h <;> cases h
    exact Nat.le_of_lt (looseness_lt_mark _)
  · cases h

/-! ## The pieces of a term -/

@[simp] theorem pieces_mark : Term.mark.pieces = [.mark] := rfl

theorem pieces_whole {n : Node} (hn : n.isComplete = true) :
    (Term.node n).pieces = [.operand n] := by
  simp [Term.pieces, hn]

theorem pieces_unary {o : Operator} (ho : o.isUnary = true) :
    (Term.node (.op o none none)).pieces = [.unary o] := by
  simp [Term.pieces, Node.isComplete, ho]

theorem pieces_binary {o : Operator} {l r : Option Node} (ho : o.isUnary = false)
    (hindex : o ≠ .subscript) (h : l = none ∨ r = none) :
    (Term.node (.op o l r)).pieces =
      l.toList.map .operand ++ .binary o :: r.toList.map .operand := by
  have hn : (Node.op o l r).isComplete = false := by
    rcases h with rfl | rfl <;> simp [Node.isComplete, ho]
  simp [Term.pieces, hn, ho, hindex]

@[simp] theorem pieces_index {n : Node} :
    (Term.node (.unary .subscript n)).pieces = [.index n] := by
  simp [Term.pieces, Node.unary, Node.isComplete, Operator.isUnary]

theorem leftLooseness?_head_pieces (ht : t.Formed) :
    ∃ p ps, t.pieces = p :: ps ∧ (p.leftLooseness? = t.wantsLeft? ∨ t = .mark) := by
  cases ht with
  | whole hn => exact ⟨_, _, pieces_whole hn, .inl (wantsLeft?_of_complete hn).symm⟩
  | unary ho => exact ⟨_, _, pieces_unary ho, .inl (by simp [Piece.leftLooseness?,
      Term.wantsLeft?, ho])⟩
  | @binary o l r ho hindex h =>
    rw [pieces_binary ho hindex h]
    cases l with
    | none => exact ⟨_, _, rfl, .inl (by simp [Piece.leftLooseness?, Term.wantsLeft?, ho])⟩
    | some l => exact ⟨_, _, rfl, .inl rfl⟩
  | index => exact ⟨_, _, pieces_index, .inl rfl⟩
  | mark => exact ⟨_, _, rfl, .inr rfl⟩

theorem rightLooseness?_getLast_pieces (ht : t.Formed) :
    ∃ ps p, t.pieces = ps ++ [p] ∧ (p.rightLooseness? = t.wantsRight? ∨ t = .mark) := by
  cases ht with
  | whole hn => exact ⟨[], _, pieces_whole hn, .inl (wantsRight?_of_complete hn).symm⟩
  | unary ho => exact ⟨[], _, pieces_unary ho, .inl rfl⟩
  | @binary o l r ho hindex h =>
    rw [pieces_binary ho hindex h]
    cases r with
    | none => exact ⟨_, _, rfl, .inl rfl⟩
    | some r => exact ⟨l.toList.map .operand ++ [.binary o], .operand r, by simp, .inl rfl⟩
  | index => exact ⟨[], _, pieces_index, .inl rfl⟩
  | mark => exact ⟨[], _, rfl, .inr rfl⟩

def rowPieces (row : List Term) : List Piece := row.flatMap Term.pieces

@[simp] theorem rowPieces_nil : rowPieces [] = [] := rfl

@[simp] theorem rowPieces_cons (t : Term) (row : List Term) :
    rowPieces (t :: row) = t.pieces ++ rowPieces row := rfl

@[simp] theorem rowPieces_append (row row' : List Term) :
    rowPieces (row ++ row') = rowPieces row ++ rowPieces row' := List.flatMap_append

/-- What stands before a place in a row binds looser than `k` if the term there does that still
wants its right operand. -/
theorem lt_of_run_left {r : Reading} (hleft : ∀ t ∈ left, t.Formed)
    (hrun : (wanting []).run labels (rowPieces left.reverse) = some r) (hk : k < markLooseness)
    (h : ∀ t ∈ left.head?, ∀ m ∈ t.wantsRight?, k < m) :
    ∀ stack ∈ r.stack?, ∀ f ∈ stack.head?, k < f.looseness := by
  intro stack hstack f hf
  obtain ⟨p, hp, hloose⟩ := looseness_of_run hrun stack hstack f hf
  rcases left with _ | ⟨t, left⟩
  · cases hp
  · obtain ⟨ps, q, hpieces, hq⟩ := rightLooseness?_getLast_pieces (hleft t (by simp))
    simp only [List.reverse_cons, rowPieces_append, rowPieces_cons, rowPieces_nil, hpieces,
      List.append_nil, ← List.append_assoc, List.getLast?_concat, Option.mem_def,
      Option.some.injEq] at hp
    subst hp
    rcases hq with hq | rfl
    · exact h t rfl _ (hq ▸ hloose)
    · rw [pieces_mark] at hpieces
      have hqs := congrArg List.getLast? hpieces
      simp only [List.getLast?_singleton, List.getLast?_concat, Option.some.injEq] at hqs
      subst hqs
      rw [← Option.some.inj hloose]
      exact hk

/-- What stands after a place in a row binds no tighter than `k` if the term there does not that
still wants its left operand. -/
theorem le_of_head_right (hright : ∀ t ∈ right, t.Formed) (hk : k ≤ markLooseness)
    (h : ∀ t ∈ right.head?, ∀ m ∈ t.wantsLeft?, k ≤ m) :
    ∀ p ∈ (rowPieces right).head?, ∀ m ∈ p.leftLooseness?, k ≤ m := by
  intro p hp m hm
  rcases right with _ | ⟨t, right⟩
  · cases hp
  · obtain ⟨q, ps, hpieces, hq⟩ := leftLooseness?_head_pieces (hright t (by simp))
    simp only [rowPieces_cons, hpieces, List.cons_append, List.head?_cons, Option.mem_def,
      Option.some.injEq] at hp
    subst hp
    rcases hq with hq | rfl
    · exact h t rfl m (hq ▸ hm)
    · cases hpieces
      cases hm
      exact hk

/-! ## Signs -/

theorem forall_mem_readSignsOnto {P : Term → Prop} {done terms : List Term}
    (hsign : ∀ o ∈ [Operator.neg, .sub, .add], P (.node (.bare o))) (hdone : ∀ t ∈ done, P t)
    (hterms : ∀ t ∈ terms, P t) : ∀ t ∈ readSignsOnto done terms, P t := by
  have hneg : P (.node (.bare .neg)) := hsign _ (by decide)
  have hsub : P (.node (.bare .sub)) := hsign _ (by decide)
  have hadd : P (.node (.bare .add)) := hsign _ (by decide)
  fun_induction readSignsOnto done terms with
  | case1 done => simpa using hdone
  | case2 done terms hsign ih =>
    exact ih (List.forall_mem_cons.mpr ⟨hneg, hdone⟩) fun t ht => hterms t (by simp [ht])
  | case3 done terms hsign ih =>
    exact ih (List.forall_mem_cons.mpr ⟨hsub, hdone⟩) fun t ht => hterms t (by simp [ht])
  | case4 done terms hsign ih => exact ih hdone fun t ht => hterms t (by simp [ht])
  | case5 done terms hsign ih =>
    exact ih (List.forall_mem_cons.mpr ⟨hadd, hdone⟩) fun t ht => hterms t (by simp [ht])
  | case6 done t terms _ _ ih =>
    exact ih (List.forall_mem_cons.mpr ⟨hterms t (by simp), hdone⟩) fun t ht =>
      hterms t (by simp [ht])

theorem forall_mem_signs {P : Term → Prop}
    (hsign : ∀ o ∈ [Operator.neg, .sub, .add], P (.node (.bare o)))
    (hrow : ∀ t ∈ row, P t) : ∀ t ∈ signs row, P t :=
  forall_mem_readSignsOnto hsign (by simp) hrow

theorem mem_readSignsOnto {done : List Term} (hsub : t ≠ .node (.bare .sub))
    (hadd : t ≠ .node (.bare .add)) (h : t ∈ done ∨ t ∈ row) : t ∈ readSignsOnto done row := by
  have hcons : ∀ {u : Term} {us : List Term}, t ≠ u → t ∈ u :: us → t ∈ us := by
    intro u us hne ht
    exact (List.mem_cons.mp ht).resolve_left hne
  fun_induction readSignsOnto done row with
  | case1 done => simpa using h
  | case2 done terms _ ih => exact ih (h.imp (List.mem_cons_of_mem _) (hcons hsub))
  | case3 done terms _ ih => exact ih (h.imp (List.mem_cons_of_mem _) (hcons hsub))
  | case4 done terms _ ih => exact ih (h.imp_right (hcons hadd))
  | case5 done terms _ ih => exact ih (h.imp (List.mem_cons_of_mem _) (hcons hadd))
  | case6 done u terms _ _ ih =>
    apply ih
    rw [List.mem_cons] at h ⊢
    rcases h with h | h | h
    · exact .inl (.inr h)
    · exact .inl (.inl h)
    · exact .inr h

theorem mem_signs (hsub : t ≠ .node (.bare .sub)) (hadd : t ≠ .node (.bare .add)) (h : t ∈ row) :
    t ∈ signs row :=
  mem_readSignsOnto hsub hadd (.inr h)

theorem raw_of_mem_signs (hrow : ∀ t ∈ row, t.Raw) : ∀ t ∈ signs row, t.Raw :=
  forall_mem_signs (by simp [Term.Raw.operator]) hrow

end MacroAsm.Fold
