import Mathlib.Data.List.Induction
import MacroAsm.Fold.Row

/-!
# Reading a row from left to right

The tree of a row, read from left to right with a stack of operators that wait for their right
operand. Each piece of the row is looked at once: an operator first closes all waiting operators
that bind no looser, and waits itself. `Reading.outcome` is the node that a row is read as.

The second half says when a part of a row can be replaced by the node that it is read as without
changing the outcome (`outcome_binary`, `outcome_unary`, `outcome_index` and, for labels,
`outcome_label`, `outcome_equate`). What stands before that part only matters by the operator that
waits last, and what follows only by its first piece.
-/

namespace MacroAsm.Fold

/-! ## Pieces -/

/-- A piece of a row: what is written at one place of it. -/
inductive Piece where
  | operand (n : Node)
  /-- An operator before its operand. -/
  | unary (o : Operator)
  /-- An operator between its operands. -/
  | binary (o : Operator)
  /-- An index in square brackets, after its operand. -/
  | index (n : Node)
  /-- A label mark. -/
  | mark

/-- How loosely a piece binds that takes the operand on its left. -/
def Piece.leftLooseness? : Piece → Option Nat
  | binary o => some o.looseness
  | index _ => some Operator.subscript.looseness
  | mark => some markLooseness
  | _ => none

/-- How loosely a piece binds that takes the operand on its right. -/
def Piece.rightLooseness? : Piece → Option Nat
  | unary o => some o.looseness
  | binary o => some o.looseness
  | mark => some markLooseness
  | _ => none

/-- The pieces of a term. An operator that has one of its operands already stands for two. -/
def Term.pieces : Term → List Piece
  | .mark => [.mark]
  | .node n =>
    if n.isComplete then [.operand n]
    else
      match n with
      | .op o l r =>
        if o.isUnary then [.unary o]
        else if o = .subscript then r.toList.map .index
        else l.toList.map .operand ++ .binary o :: r.toList.map .operand
      | n => [.operand n]

/-! ## Readings -/

/-- Something that waits for its right operand. -/
inductive Frame where
  | unary (o : Operator)
  | binary (o : Operator) (left : Node)
  /-- A label, of which the target is read. -/
  | label (name : Node)
  /-- A label, of which the value of the equate is read. -/
  | equate (name : Node)

def Frame.looseness : Frame → Nat
  | unary o => o.looseness
  | binary o _ => o.looseness
  | label _ => markLooseness
  | equate _ => Operator.set.looseness

def Frame.close : Frame → Node → Node
  | unary o, n => .unary o n
  | binary o left, n => .binary o left n
  | label name, n => .label name (some n)
  | equate name, n => .label name (some (.unary .set n))

/-- Closes the frames that bind no looser than `k`, the last one first, around the operand `n`. -/
def unwind (k : Nat) : List Frame → Node → List Frame × Node
  | [], n => ([], n)
  | f :: stack, n => if f.looseness ≤ k then unwind k stack (f.close n) else (f :: stack, n)

def closeFrames (stack : List Frame) (n : Node) : Node := stack.foldl (fun n f => f.close n) n

/-- A row read so far. The stack has the last frame first. -/
inductive Reading where
  /-- An operand is wanted next. -/
  | wanting (stack : List Frame)
  /-- An operand was read last. -/
  | holding (stack : List Frame) (n : Node)
  /-- The mark of a label was read last. -/
  | targeting (name : Node)

namespace Reading

variable {labels : Bool} {o : Operator} {l n : Node} {ps : List Piece} {stack : List Frame}

/-- Reads one piece. Marks count only in a row with labels. -/
def step (labels : Bool) : Reading → Piece → Option Reading
  | wanting stack, .operand n => some (holding stack n)
  | wanting stack, .unary o => some (wanting (.unary o :: stack))
  | holding stack n, .binary o =>
    let (stack, n) := unwind o.looseness stack n
    some (wanting (.binary o n :: stack))
  | holding stack n, .index i =>
    let (stack, n) := unwind Operator.subscript.looseness stack n
    some (holding stack (.binary .subscript n i))
  | holding stack n, .mark => if labels then some (targeting (closeFrames stack n)) else none
  | targeting name, .operand n => some (holding [.label name] n)
  | targeting name, .unary o => some (wanting [.unary o, .label name])
  | targeting name, .binary .set => some (wanting [.equate name])
  | _, _ => none

/-- The node at the end of a row. -/
def finish : Reading → Option Node
  | wanting _ => none
  | holding stack n => some (closeFrames stack n)
  | targeting name => some (.label name none)

def run (labels : Bool) : Reading → List Piece → Option Reading
  | r, [] => some r
  | r, p :: ps => (r.step labels p).bind (run labels · ps)

/-- The node that the rest of a row is read as, if it can be read. -/
def outcome (labels : Bool) (r : Reading) (ps : List Piece) : Option Node :=
  (r.run labels ps).bind finish

/-- The frames around the next operand, if one can follow. -/
def stack? : Reading → Option (List Frame)
  | wanting stack => some stack
  | holding .. => none
  | targeting name => some [.label name]

/-! ## Laws -/

@[simp] theorem run_nil (r : Reading) : r.run labels [] = some r := rfl

@[simp] theorem run_cons (r : Reading) (p : Piece) :
    r.run labels (p :: ps) = (r.step labels p).bind (run labels · ps) := rfl

theorem run_append (r : Reading) (qs : List Piece) :
    r.run labels (ps ++ qs) = (r.run labels ps).bind (run labels · qs) := by
  induction ps generalizing r with
  | nil => rfl
  | cons p ps ih => cases h : r.step labels p <;> simp [h, ih]

@[simp] theorem outcome_nil (r : Reading) : r.outcome labels [] = r.finish := rfl

theorem outcome_cons (r : Reading) (p : Piece) :
    r.outcome labels (p :: ps) = (r.step labels p).bind (outcome labels · ps) := by
  cases h : r.step labels p <;> simp [outcome, h]

theorem outcome_append (r : Reading) (qs : List Piece) :
    r.outcome labels (ps ++ qs) = (r.run labels ps).bind (outcome labels · qs) := by
  simp [outcome, run_append, Option.bind_assoc]

theorem step_operand (r : Reading) :
    r.step labels (.operand n) = r.stack?.map (holding · n) := by
  cases r <;> rfl

theorem step_unary (r : Reading) :
    r.step labels (.unary o) = r.stack?.map fun stack => wanting (.unary o :: stack) := by
  cases r <;> rfl

theorem unwind_of_lt {k : Nat} (h : ∀ f ∈ stack.head?, k < f.looseness) :
    unwind k stack n = (stack, n) := by
  cases stack with
  | nil => rfl
  | cons f stack =>
    have hf : k < f.looseness := h f (by simp)
    rw [unwind, if_neg (by omega)]

theorem unwind_of_le {k : Nat} {f : Frame} (h : f.looseness ≤ k) :
    unwind k (f :: stack) n = unwind k stack (f.close n) := by
  rw [unwind, if_pos h]

theorem outcome_holding_close {f : Frame}
    (h : ∀ p ∈ ps.head?, ∀ k ∈ p.leftLooseness?, f.looseness ≤ k) :
    (holding (f :: stack) n).outcome labels ps = (holding stack (f.close n)).outcome labels ps := by
  cases ps with
  | nil => rfl
  | cons p ps =>
    have hp : ∀ k ∈ p.leftLooseness?, f.looseness ≤ k := h p (by simp)
    rw [outcome_cons, outcome_cons]
    cases p with
    | operand => rfl
    | unary => rfl
    | binary o => simp only [step, unwind_of_le (hp o.looseness rfl)]
    | index i => simp only [step, unwind_of_le (hp _ rfl)]
    | mark => rfl

theorem looseness_of_step {r r' : Reading} {p : Piece} (h : r.step labels p = some r') :
    ∀ stack ∈ r'.stack?, ∀ f ∈ stack.head?, p.rightLooseness? = some f.looseness := by
  intro stack hstack f hf
  cases r with
  | wanting before =>
    cases p with
    | unary o =>
      cases h
      cases hstack
      cases hf
      rfl
    | operand n =>
      cases h
      cases hstack
    | _ => cases h
  | holding before n =>
    cases p with
    | binary o =>
      cases h
      cases hstack
      cases hf
      rfl
    | index i =>
      cases h
      cases hstack
    | mark =>
      cases labels <;> cases h
      cases hstack
      cases hf
      rfl
    | _ => cases h
  | targeting name =>
    cases p with
    | operand n =>
      cases h
      cases hstack
    | unary o =>
      cases h
      cases hstack
      cases hf
      rfl
    | binary o =>
      cases o <;> cases h
      cases hstack
      cases hf
      rfl
    | _ => cases h

/-- The operator that waits last is the last piece that was read. -/
theorem looseness_of_run {r : Reading} (h : (wanting []).run labels ps = some r) :
    ∀ stack ∈ r.stack?, ∀ f ∈ stack.head?, ∃ p ∈ ps.getLast?,
      p.rightLooseness? = some f.looseness := by
  induction ps using List.reverseRecOn with
  | nil =>
    cases h
    intro stack hstack f hf
    cases hstack
    cases hf
  | append_singleton ps p =>
    rw [run_append, Option.bind_eq_some_iff] at h
    obtain ⟨before, -, h⟩ := h
    simp only [run_cons, run_nil, Option.bind_fun_some] at h
    intro stack hstack f hf
    exact ⟨p, by simp, looseness_of_step h stack hstack f hf⟩

/-! ## Replacing what is read -/

/-- An operator with both operands is read as its node if it binds tighter than what waits before it
and no looser than what follows. -/
theorem outcome_binary {r : Reading}
    (hr : ∀ stack ∈ r.stack?, ∀ f ∈ stack.head?, o.looseness < f.looseness)
    (hps : ∀ p ∈ ps.head?, ∀ k ∈ p.leftLooseness?, o.looseness ≤ k) :
    r.outcome labels (.operand l :: .binary o :: .operand n :: ps) =
      r.outcome labels (.operand (.binary o l n) :: ps) := by
  rw [outcome_cons, outcome_cons, step_operand, step_operand]
  cases hstack : r.stack? with
  | none => rfl
  | some stack =>
    have hlt : ∀ f ∈ stack.head?, o.looseness < f.looseness := hr stack hstack
    simp only [Option.map_some, Option.bind_some]
    rw [outcome_cons, step, unwind_of_lt hlt]
    simp only [Option.bind_some]
    rw [outcome_cons, step, Option.bind_some]
    exact outcome_holding_close (f := .binary o l) hps

theorem outcome_unary {r : Reading}
    (hps : ∀ p ∈ ps.head?, ∀ k ∈ p.leftLooseness?, o.looseness ≤ k) :
    r.outcome labels (.unary o :: .operand n :: ps) =
      r.outcome labels (.operand (.unary o n) :: ps) := by
  rw [outcome_cons, outcome_cons, step_operand, step_unary]
  cases r.stack? with
  | none => rfl
  | some stack =>
    simp only [Option.map_some, Option.bind_some]
    rw [outcome_cons, step, Option.bind_some]
    exact outcome_holding_close (f := .unary o) hps

theorem outcome_index {r : Reading} {i : Node}
    (hr : ∀ stack ∈ r.stack?, ∀ f ∈ stack.head?, Operator.subscript.looseness < f.looseness) :
    r.outcome labels (.operand l :: .index i :: ps) =
      r.outcome labels (.operand (.binary .subscript l i) :: ps) := by
  rw [outcome_cons, outcome_cons, step_operand, step_operand]
  cases hstack : r.stack? with
  | none => rfl
  | some stack =>
    have hlt : ∀ f ∈ stack.head?, Operator.subscript.looseness < f.looseness := hr stack hstack
    simp only [Option.map_some, Option.bind_some]
    rw [outcome_cons, step, unwind_of_lt hlt, Option.bind_some]

theorem outcome_label {name : Node}
    (hps : ∀ p ∈ ps.head?, ∀ k ∈ p.leftLooseness?, markLooseness ≤ k) :
    (wanting []).outcome true (.operand name :: .mark :: .operand n :: ps) =
      (wanting []).outcome true (.operand (.label name (some n)) :: ps) := by
  simp only [outcome_cons, step, if_true, Option.bind_some]
  exact outcome_holding_close (f := .label name) hps

theorem outcome_equate {name : Node}
    (hps : ∀ p ∈ ps.head?, ∀ k ∈ p.leftLooseness?, Operator.set.looseness ≤ k) :
    (wanting []).outcome true (.operand name :: .mark :: .binary .set :: .operand n :: ps) =
      (wanting []).outcome true (.operand (.label name (some (.unary .set n))) :: ps) := by
  simp only [outcome_cons, step, if_true, Option.bind_some]
  exact outcome_holding_close (f := .equate name) hps

end Reading

end MacroAsm.Fold
