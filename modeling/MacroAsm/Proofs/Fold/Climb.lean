import MacroAsm.Proofs.Fold.Resolution

/-!
# Precedence climbing

`foldRow_iff_climbRow`: a row without labels folds to one complete node just if its pieces form an
expression, and the node is the tree that precedence climbing builds of them.

An expression is a chain of factors with operators between them, and a factor is an operand with
operators before it and indices after it. `climb` reads it by recursive descent: an operand is
followed by all operators that bind tighter than a limit, which is the looseness of the operator
that the operand belongs to. So operators of the same looseness group to the left. An operator
before its operand sets a limit of its own, whatever the limit around it is, so that it is the right
operand of any operator together with its operand.

Proof. Both `climb` and the operator stack read from left to right. The frames of the stack are the
calls of `climb` that wait for an operand, and the limit of a call is the looseness of the last
frame (`agrees_climb`).
-/

namespace MacroAsm.Fold

open Reading

/-! ## The grammar -/

/-- Operators before their operand, the operand and indices after it. -/
inductive IsFactor : List Piece → Prop
  | intro (os : List Operator) (n : Node) (indices : List Node) :
      IsFactor (os.map .unary ++ .operand n :: indices.map .index)

/-- Factors with operators between them. -/
inductive IsExpression : List Piece → Prop
  | factor {ps} (hps : IsFactor ps) : IsExpression ps
  | binary {ps qs} (o : Operator) (hps : IsFactor ps) (hqs : IsExpression qs) :
      IsExpression (ps ++ .binary o :: qs)

/-! ## The parser -/

mutual

/-- Reads an operand with the operators before it, and then what `climbOn` reads. -/
def climb (limit : Nat) (ps : List Piece) :
    Option (Node × { rest : List Piece // rest.length < ps.length }) :=
  match ps with
  | .operand n :: ps =>
    (climbOn limit n ps).map fun (m, rest) => (m, ⟨rest, Nat.lt_succ_of_le rest.2⟩)
  | .unary o :: ps =>
    match climb o.looseness ps with
    | none => none
    | some (n, rest) =>
      (climbOn limit (.unary o n) rest).map fun (m, rest') =>
        (m, ⟨rest', Nat.lt_succ_of_lt (Nat.lt_of_le_of_lt rest'.2 rest.2)⟩)
  | _ => none
termination_by ps.length
decreasing_by
  · simp
  · simp
  · exact Nat.lt_succ_of_lt rest.2

/-- Reads the operators after the operand `left` that bind tighter than `limit`, with their right
operands. -/
def climbOn (limit : Nat) (left : Node) (ps : List Piece) :
    Option (Node × { rest : List Piece // rest.length ≤ ps.length }) :=
  match ps with
  | .binary o :: ps =>
    if o.looseness < limit then
      match climb o.looseness ps with
      | none => none
      | some (right, rest) =>
        (climbOn limit (.binary o left right) rest).map fun (m, rest') =>
          (m, ⟨rest', Nat.le_succ_of_le (Nat.le_of_lt (Nat.lt_of_le_of_lt rest'.2 rest.2))⟩)
    else some (left, ⟨.binary o :: ps, Nat.le_refl _⟩)
  | .index i :: ps =>
    if Operator.subscript.looseness < limit then
      (climbOn limit (.binary .subscript left i) ps).map fun (m, rest) =>
        (m, ⟨rest, Nat.le_succ_of_le rest.2⟩)
    else some (left, ⟨.index i :: ps, Nat.le_refl _⟩)
  | ps => some (left, ⟨ps, Nat.le_refl _⟩)
termination_by ps.length
decreasing_by
  · simp
  · exact Nat.lt_succ_of_lt rest.2
  · simp

end

/-- The tree of a whole row: every operator binds tighter than a label mark. -/
def climbRow (ps : List Piece) : Option Node :=
  match climb markLooseness ps with
  | some (n, ⟨[], _⟩) => some n
  | _ => none

variable {labels : Bool} {limit : Nat} {m n : Node} {o : Operator} {ps qs : List Piece}
  {stack : List Frame} {start start' : List Frame → Reading}

/-! ## Calls and frames -/

/-- How tightly an operator must bind to take the operand next to it, if `stack` waits for it. -/
def limitOf (stack : List Frame) : Nat := stack.head?.elim markLooseness Frame.looseness

/-- No operator stands at the front of the pieces that binds tighter than the limit. -/
def Stops (limit : Nat) (ps : List Piece) : Prop :=
  ∀ p ∈ ps.head?, ∀ k ∈ p.leftLooseness?, limit ≤ k

/-- A call that starts at `ps` gives what the operator stack has after the same pieces, if the call
is the one that the last frame stands for. -/
structure Agrees (labels : Bool) (limit : Nat) (start : List Frame → Reading) (ps : List Piece)
    (result : Option (Node × List Piece)) : Prop where
  stops : ∀ n rest, result = some (n, rest) → Stops limit rest
  outcome : ∀ stack, limitOf stack = limit →
    (start stack).outcome labels ps =
      result.bind fun (n, rest) => (holding stack n).outcome labels rest

theorem unwind_of_lt_limitOf {k : Nat} (hk : k < limitOf stack) :
    unwind k stack n = (stack, n) := by
  apply unwind_of_lt
  intro f hf
  rwa [limitOf, Option.mem_def.mp hf] at hk

theorem Agrees.none (h : ∀ stack, limitOf stack = limit → (start stack).outcome labels ps = none) :
    Agrees labels limit start ps none where
  stops _ _ hresult := by cases hresult
  outcome := h

theorem stops_of_not_lt {p : Piece} {k : Nat} (hp : p.leftLooseness? = some k)
    (h : ¬ k < limit) : Stops limit (p :: ps) := by
  intro q hq m hm
  cases hq
  rw [hp] at hm
  cases hm
  exact Nat.le_of_not_lt h

theorem Agrees.stay (h : Stops limit ps) :
    Agrees labels limit (holding · n) ps (some (n, ps)) where
  stops _ _ hresult := by
    cases hresult
    exact h
  outcome _ _ := rfl

theorem Agrees.after {result : Option (Node × List Piece)}
    (h : Agrees labels limit start' qs result)
    (hstart : ∀ stack, limitOf stack = limit →
      (start stack).outcome labels ps = (start' stack).outcome labels qs) :
    Agrees labels limit start ps result where
  stops := h.stops
  outcome stack hstack := (hstart stack hstack).trans (h.outcome stack hstack)

theorem Agrees.outcome_close {f : Frame} {rest : List Piece}
    (h : Agrees labels f.looseness wanting ps (some (n, rest))) :
    (wanting (f :: stack)).outcome labels ps = (holding stack (f.close n)).outcome labels rest := by
  rw [h.outcome (f :: stack) rfl]
  exact outcome_holding_close (h.stops n rest rfl)

theorem agrees_climb (limit : Nat) (ps : List Piece) : limit ≤ markLooseness →
    Agrees labels limit wanting ps ((climb limit ps).map fun r => (r.1, r.2.1)) := by
  revert limit ps
  refine (climb.mutual_induct
    (fun limit ps => limit ≤ markLooseness →
      Agrees labels limit wanting ps ((climb limit ps).map fun r => (r.1, r.2.1)))
    (fun limit left ps => limit ≤ markLooseness →
      Agrees labels limit (holding · left) ps ((climbOn limit left ps).map fun r => (r.1, r.2.1)))
    ?operand ?unaryNone ?unary ?noOperand ?binaryNone ?binary ?binaryLoose ?index ?indexLoose
    ?noOperator).1
  case operand =>
    intro limit n ps ih hlimit
    rw [climb, Option.map_map]
    exact (ih hlimit).after fun stack _ => outcome_cons ..
  case unaryNone =>
    intro limit o ps hnone ih hlimit
    have hoperand := ih (looseness_lt_mark o).le
    rw [hnone] at hoperand
    rw [climb, hnone]
    exact .none fun stack _ => hoperand.outcome (.unary o :: stack) rfl
  case unary =>
    intro limit o ps n rest hsome ih ih' hlimit
    have hoperand := ih (looseness_lt_mark o).le
    rw [hsome] at hoperand
    rw [climb, hsome, Option.map_map]
    exact (ih' hlimit).after fun stack _ => hoperand.outcome_close (f := .unary o)
  case noOperand =>
    intro limit ps hoperand hunary hlimit
    rw [climb.eq_def]
    split
    · exact (hoperand _ _ rfl).elim
    · exact (hunary _ _ rfl).elim
    · refine .none fun stack _ => ?_
      rcases ps with _ | ⟨p, ps⟩
      · rfl
      cases p with
      | operand => exact (hoperand _ _ rfl).elim
      | unary => exact (hunary _ _ rfl).elim
      | _ => rfl
  case binaryNone =>
    intro limit left o ps htight hnone ih hlimit
    have hoperand := ih (looseness_lt_mark o).le
    rw [hnone] at hoperand
    rw [climbOn, if_pos htight, hnone]
    refine .none fun stack hstack => ?_
    rw [outcome_cons, step, unwind_of_lt_limitOf (hstack ▸ htight)]
    exact hoperand.outcome (.binary o left :: stack) rfl
  case binary =>
    intro limit left o ps htight n rest hsome ih ih' hlimit
    have hoperand := ih (looseness_lt_mark o).le
    rw [hsome] at hoperand
    rw [climbOn, if_pos htight, hsome, Option.map_map]
    apply (ih' hlimit).after
    intro stack hstack
    rw [outcome_cons, step, unwind_of_lt_limitOf (hstack ▸ htight)]
    exact hoperand.outcome_close (f := .binary o left)
  case binaryLoose =>
    intro limit left o ps hloose hlimit
    rw [climbOn, if_neg hloose]
    exact .stay (stops_of_not_lt rfl hloose)
  case index =>
    intro limit left i ps htight ih hlimit
    rw [climbOn, if_pos htight, Option.map_map]
    apply (ih hlimit).after
    intro stack hstack
    rw [outcome_cons, step, unwind_of_lt_limitOf (hstack ▸ htight)]
    rfl
  case indexLoose =>
    intro limit left i ps hloose hlimit
    rw [climbOn, if_neg hloose]
    exact .stay (stops_of_not_lt rfl hloose)
  case noOperator =>
    intro limit left ps hbinary hindex hlimit
    rw [climbOn.eq_def]
    split
    · exact (hbinary _ _ rfl).elim
    · exact (hindex _ _ rfl).elim
    · refine .stay fun p hp k hk => ?_
      rcases ps with _ | ⟨q, ps⟩
      · cases hp
      cases hp
      cases p with
      | binary => exact (hbinary _ _ rfl).elim
      | index => exact (hindex _ _ rfl).elim
      | mark =>
        cases hk
        exact hlimit
      | _ => cases hk

/-- Without labels, the operator stack reads a row just as precedence climbing does. -/
theorem outcome_eq_climbRow (ps : List Piece) :
    (wanting []).outcome false ps = climbRow ps := by
  have h : Agrees false markLooseness wanting ps _ := agrees_climb _ ps (le_refl _)
  rw [h.outcome [] rfl, climbRow]
  rcases hclimb : climb markLooseness ps with _ | ⟨n, ⟨rest, hrest⟩⟩
  · rfl
  rw [hclimb] at h
  have hstops : Stops markLooseness rest := h.stops n rest rfl
  rcases rest with _ | ⟨p, rest⟩
  · rfl
  cases p with
  | binary o =>
    have hle : markLooseness ≤ o.looseness := hstops _ rfl _ rfl
    exact absurd (looseness_lt_mark o) (by omega)
  | index i =>
    have hle : markLooseness ≤ Operator.subscript.looseness := hstops _ rfl _ rfl
    exact absurd (looseness_lt_mark .subscript) (by omega)
  | _ => rfl

/-! ## The grammar of a row that can be read -/

theorem IsExpression.unary (h : IsExpression ps) : IsExpression (.unary o :: ps) := by
  cases h with
  | factor hps =>
    obtain ⟨os, n, indices⟩ := hps
    exact .factor (.intro (o :: os) n indices)
  | binary o' hps hqs =>
    obtain ⟨os, n, indices⟩ := hps
    exact .binary o' (.intro (o :: os) n indices) hqs

theorem IsFactor.index {i : Node} {p : Piece} (h : IsFactor (p :: ps)) (hp : p = .operand n) :
    IsFactor (.operand m :: .index i :: ps) := by
  generalize hqs : p :: ps = qs at h
  obtain ⟨os, n', indices⟩ := h
  rcases os with _ | ⟨o, os⟩
  · cases hqs
    exact .intro [] m (i :: indices)
  · cases hqs
    cases hp

theorem IsExpression.index {i : Node} (h : IsExpression (.operand n :: ps)) :
    IsExpression (.operand m :: .index i :: ps) := by
  generalize hrow : Piece.operand n :: ps = row at h
  cases h with
  | factor hps =>
    subst hrow
    exact .factor (hps.index rfl)
  | @binary before after o hps hqs =>
    rcases before with _ | ⟨p, before⟩
    · generalize hnil : ([] : List Piece) = empty at hps
      obtain ⟨os, n', indices⟩ := hps
      simp at hnil
    · cases hrow
      exact .binary o (hps.index rfl) hqs

theorem isExpression_of_outcome (ps : List Piece) :
    (∀ stack, (wanting stack).outcome false ps ≠ none → IsExpression ps) ∧
      ∀ stack n, (holding stack n).outcome false ps ≠ none →
        ∀ m, IsExpression (.operand m :: ps) := by
  induction ps with
  | nil =>
    refine ⟨fun stack h => absurd rfl h, fun stack n _ m => ?_⟩
    exact .factor (.intro [] m [])
  | cons p ps ih =>
    obtain ⟨hwanting, hholding⟩ := ih
    refine ⟨fun stack h => ?_, fun stack n h m => ?_⟩
    · rw [outcome_cons] at h
      cases p with
      | operand n => exact hholding stack n h n
      | unary o => exact (hwanting _ h).unary
      | binary => exact absurd rfl h
      | index => exact absurd rfl h
      | mark => exact absurd rfl h
    · rw [outcome_cons] at h
      cases p with
      | operand => exact absurd rfl h
      | unary => exact absurd rfl h
      | binary o => exact .binary o (.intro [] m []) (hwanting _ h)
      | index i => exact (hholding _ _ h m).index
      | mark => exact absurd rfl h

theorem run_indices (indices : List Node) :
    ∃ stack' n', (holding stack n).run labels (indices.map .index) = some (holding stack' n') := by
  induction indices generalizing stack n with
  | nil => exact ⟨stack, n, rfl⟩
  | cons i indices ih => exact ih

theorem IsFactor.run (h : IsFactor ps) (labels : Bool) (stack : List Frame) :
    ∃ stack' n, (wanting stack).run labels ps = some (holding stack' n) := by
  obtain ⟨os, n, indices⟩ := h
  induction os generalizing stack with
  | nil => exact run_indices indices
  | cons o os ih => exact ih (.unary o :: stack)

theorem IsExpression.run (h : IsExpression ps) (labels : Bool) (stack : List Frame) :
    ∃ stack' n, (wanting stack).run labels ps = some (holding stack' n) := by
  induction h generalizing stack with
  | factor hps => exact hps.run labels stack
  | binary o hps hqs ih =>
    obtain ⟨stack', n, hrun⟩ := hps.run labels stack
    rw [run_append, hrun]
    exact ih (.binary o (unwind o.looseness stack' n).2 :: (unwind o.looseness stack' n).1)

theorem exists_climbRow_iff : (∃ n, climbRow ps = some n) ↔ IsExpression ps := by
  rw [← outcome_eq_climbRow]
  constructor
  · rintro ⟨n, h⟩
    exact (isExpression_of_outcome ps).1 [] (by simp [h])
  · intro h
    obtain ⟨stack, n, hrun⟩ := h.run false []
    rw [outcome, hrun]
    exact ⟨_, rfl⟩

/-! ## The fold of a row without labels -/

/-- A row without labels folds to one complete node just if its pieces are an expression, and then
to the tree that precedence climbing builds of them. -/
theorem foldRow_iff_climbRow {row : List Term} (hrow : ∀ t ∈ row, t.Raw) :
    (∀ n, foldRow false row = [.node n] ∧ n.isComplete = true ↔
      climbRow (rowPieces (signs row)) = some n) ∧
    ((∃ n, foldRow false row = [.node n] ∧ n.isComplete = true) ↔
      IsExpression (rowPieces (signs row))) := by
  have hclimb : ∀ n, foldRow false row = [.node n] ∧ n.isComplete = true ↔
      climbRow (rowPieces (signs row)) = some n := by
    intro n
    rw [foldRow_eq_singleton_iff hrow, outcome_eq_climbRow]
  refine ⟨hclimb, ?_⟩
  rw [exists_congr hclimb, exists_climbRow_iff]

/-- `-a * b` is the product of `-a` and `b`. -/
theorem foldRow_iff_climbRow_neg_mul :
    foldRow false [.node (.bare .sub), .node (.text "a"), .node (.bare .mul), .node (.text "b")] =
        [.node (.binary .mul (.unary .neg (.text "a")) (.text "b"))] ∧
      IsExpression [.unary .neg, .operand (.text "a"), .binary .mul, .operand (.text "b")] := by
  have hrow : ∀ t ∈ [Term.node (.bare .sub), .node (.text "a"), .node (.bare .mul),
      .node (.text "b")], t.Raw := by
    simp only [List.forall_mem_cons]
    exact ⟨.operator (by decide), .value rfl, .operator (by decide), .value rfl, by simp⟩
  obtain ⟨htree, hexpression⟩ := foldRow_iff_climbRow hrow
  have hclimb : climbRow [.unary .neg, .operand (.text "a"), .binary .mul, .operand (.text "b")] =
      some (.binary .mul (.unary .neg (.text "a")) (.text "b")) := by
    simp [climbRow, climb, climbOn, Operator.looseness, markLooseness]
  have hfold := (htree _).mpr hclimb
  exact ⟨hfold.1, hexpression.mp ⟨_, hfold⟩⟩

end MacroAsm.Fold
