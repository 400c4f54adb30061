import MacroAsm.Node

/-!
# Operators take their operands

The terms of one scope form a row of values, operators and label marks. `foldRow` folds the row:
again and again the tightest operator (the leftmost of several) takes those neighbours that are
complete and that it still needs. One that can take nothing is passed over until another has taken
something. The row is folded when no operator is left that could be tried.

`foldRow` ends because a term that takes a neighbour shortens the row (`Pivot.length_of_take?`),
and one that does not is passed over, which leaves fewer to try.
-/

namespace MacroAsm.Fold

/-- One term of a scope. -/
inductive Term where
  | node (n : Node)
  /-- A label mark. -/
  | mark
  deriving Repr

/-- How loosely a label mark binds: after every operator. -/
def markLooseness : Nat := 12

namespace Term

/-- Whether the term is a node with all its operands. -/
def isComplete : Term → Bool
  | node n => n.isComplete
  | mark => false

/-- How loosely a term binds that still has something to take. Marks count only in a row
with labels. -/
@[inline] def looseness? (labels : Bool) : Term → Option Nat
  | mark => if labels then some markLooseness else none
  | node (.op o left right) =>
    if (Node.op o left right).isComplete then none else some o.looseness
  | node _ => none

end Term

/-! ## Signs -/

/-- Whether a `-` or `+` after the terms `done`, the last one first, is a sign: nothing stands on
its left, or an operator that lacks its right operand. -/
def isSignPosition : List Term → Bool
  | [] => true
  | .mark :: _ => true
  | .node (.op _ _ none) :: _ => true
  | .node _ :: _ => false

/-- Turns signs into operators of their own after the terms `done`, the last one first. -/
def readSignsOnto (done : List Term) : List Term → List Term
  | [] => done.reverse
  | .node (.op .sub none none) :: terms =>
    if isSignPosition done then readSignsOnto (.node (.bare .neg) :: done) terms
    else readSignsOnto (.node (.bare .sub) :: done) terms
  | .node (.op .add none none) :: terms =>
    if isSignPosition done then readSignsOnto done terms
    else readSignsOnto (.node (.bare .add) :: done) terms
  | term :: terms => readSignsOnto (term :: done) terms

/-- Turns `-` with nothing on its left into a negation, and drops such a `+`. -/
def signs (terms : List Term) : List Term := readSignsOnto [] terms

/-! ## Pivots -/

/-- A term of a row, with whether it is passed over for now. -/
structure Entry where
  term : Term
  passed : Bool
  deriving Repr

def Entry.fresh (term : Term) : Entry := ⟨term, false⟩

@[inline] def Entry.looseness? (labels : Bool) (e : Entry) : Option Nat :=
  if e.passed then none else e.term.looseness? labels

/-- A term to be tried in its row: the entries on its left, the nearest first, and those on
its right. -/
structure Pivot where
  left : List Entry
  term : Term
  right : List Entry
  deriving Repr

@[inline] def least : Option Nat → Option Nat → Option Nat
  | some a, some b => some (min a b)
  | some a, none => some a
  | none, b => b

def tightest? (labels : Bool) (entries : List Entry) : Option Nat :=
  entries.foldl (fun best e => least best (e.looseness? labels)) none

/-- What a look at a row finds: a term to try, or nothing to do any more. -/
inductive Turn where
  | pivot (p : Pivot)
  | settled (entries : List Entry)
  deriving Repr

/-- The first entry with a given binding, where `left` holds the entries before, the nearest
first. -/
def firstAt (labels : Bool) (looseness : Nat) (left : List Entry) : List Entry → Turn
  | [] => .settled left.reverse
  | e :: right =>
    if (e.looseness? labels).any (· = looseness) then .pivot ⟨left, e.term, right⟩
    else firstAt labels looseness (e :: left) right

/-- The turn of the leftmost of the entries that bind tightest. -/
def turn (labels : Bool) (entries : List Entry) : Turn :=
  match tightest? labels entries with
  | some looseness => firstAt labels looseness [] entries
  | none => .settled entries

/-- An assignment that lacks its left side. -/
def lacksLeftSide : Node → Bool
  | .op .set none (some _) => true
  | _ => false

/-- Takes the nearest entry of a side if it is a complete node. -/
def takeComplete? : List Entry → Option (Node × List Entry)
  | ⟨.node n, _⟩ :: entries => if n.isComplete then some (n, entries) else none
  | _ => none

namespace Pivot

def row (left : List Entry) (entry : Entry) (right : List Entry) : List Entry :=
  left.reverseAux (entry :: right)

def passedOver (p : Pivot) : List Entry := row p.left ⟨p.term, true⟩ p.right

/-- The row after an operator has taken the neighbours that it needs and can take. -/
def takeOperands? (left right : List Entry) (o : Operator) (l r : Option Node) :
    Option (List Entry) :=
  let fromLeft := if !o.isUnary && l.isNone then takeComplete? left else none
  let fromRight := if r.isNone then takeComplete? right else none
  match fromLeft, fromRight with
  | none, none => none
  | some (n, left), none => some (row left (.fresh (.node (.op o (some n) r))) right)
  | none, some (n, right) => some (row left (.fresh (.node (.op o l (some n)))) right)
  | some (n, left), some (m, right) =>
    some (row left (.fresh (.node (.op o (some n) (some m)))) right)

/-- The row after a label mark has taken the name before it and what follows: nothing, a
complete node, or an assignment that lacks its left side. -/
def takeTarget? (left right : List Entry) : Option (List Entry) :=
  match takeComplete? left with
  | none => none
  | some (name, left) =>
    match right with
    | [] => some (row left (.fresh (.node (.label name none))) [])
    | ⟨.node target, _⟩ :: right =>
      if target.isComplete || lacksLeftSide target then
        some (row left (.fresh (.node (.label name (some target)))) right)
      else none
    | ⟨.mark, _⟩ :: _ => none

/-- The row after the pivot has taken what it can, if it can take anything. -/
def take? (p : Pivot) : Option (List Entry) :=
  match p.term with
  | .mark => takeTarget? p.left p.right
  | .node (.op o l r) => takeOperands? p.left p.right o l r
  | .node _ => none

/-! ## Progress -/

@[simp] theorem length_row (left : List Entry) (entry : Entry) (right : List Entry) :
    (row left entry right).length = left.length + right.length + 1 := by
  simp [row, List.reverseAux_eq, Nat.add_assoc]

theorem length_of_takeComplete? {entries rest : List Entry} {n : Node}
    (h : takeComplete? entries = some (n, rest)) : entries.length = rest.length + 1 := by
  unfold takeComplete? at h
  split at h
  · split at h <;> simp_all
  · simp at h

theorem length_of_guarded {b : Bool} {entries rest : List Entry} {n : Node}
    (h : (if b then takeComplete? entries else none) = some (n, rest)) :
    entries.length = rest.length + 1 := by
  cases b
  · simp at h
  · exact length_of_takeComplete? h

theorem length_of_takeOperands? {left right entries : List Entry} {o : Operator}
    {l r : Option Node} (h : takeOperands? left right o l r = some entries) :
    entries.length < left.length + right.length + 1 := by
  simp only [takeOperands?] at h
  split at h
  · simp at h
  · next hl _ => have := length_of_guarded hl; cases h; simp; omega
  · next _ hr => have := length_of_guarded hr; cases h; simp; omega
  · next hl hr =>
    have := length_of_guarded hl
    have := length_of_guarded hr
    cases h; simp; omega

theorem length_of_takeTarget? {left right entries : List Entry}
    (h : takeTarget? left right = some entries) :
    entries.length < left.length + right.length + 1 := by
  simp only [takeTarget?] at h
  split at h
  · simp at h
  · next name rest hl =>
    have := length_of_takeComplete? hl
    split at h
    · cases h; simp; omega
    · split at h
      · cases h; simp; omega
      · simp at h
    · simp at h

/-- A pivot that takes something shortens its row. -/
theorem length_of_take? {p : Pivot} {entries : List Entry} (h : p.take? = some entries) :
    entries.length < p.left.length + p.right.length + 1 := by
  unfold take? at h
  split at h
  · exact length_of_takeTarget? h
  · exact length_of_takeOperands? h
  · simp at h

end Pivot

theorem row_of_firstAt {labels : Bool} {looseness : Nat} {left entries : List Entry} {p : Pivot}
    (h : firstAt labels looseness left entries = .pivot p) :
    Pivot.row p.left ⟨p.term, false⟩ p.right = left.reverseAux entries := by
  fun_induction firstAt labels looseness left entries with
  | case1 => simp at h
  | case2 left e right he =>
    cases h
    have hp : e.passed = false := by
      cases hp : e.passed
      · rfl
      · simp [Entry.looseness?, hp] at he
    simp [Pivot.row, ← hp]
  | case3 left e right _ ih => simpa [List.reverseAux] using ih h

theorem row_of_turn {labels : Bool} {entries : List Entry} {p : Pivot}
    (h : turn labels entries = .pivot p) : Pivot.row p.left ⟨p.term, false⟩ p.right = entries := by
  unfold turn at h
  split at h
  · simpa using row_of_firstAt h
  · simp at h

theorem countP_row (left : List Entry) (entry : Entry) (right : List Entry) (q : Entry → Bool) :
    (Pivot.row left entry right).countP q = left.countP q + (if q entry then 1 else 0)
      + right.countP q := by
  simp [Pivot.row, List.reverseAux_eq, List.countP_cons]
  omega

/-! ## The fold -/

/-- Folds a row as far as it goes. -/
def foldEntries (labels : Bool) (entries : List Entry) : List Term :=
  match _hp : turn labels entries with
  | .settled entries => entries.map (·.term)
  | .pivot p =>
    match _ha : p.take? with
    | some entries => foldEntries labels (entries.map fun e => .fresh e.term)
    | none => foldEntries labels p.passedOver
termination_by (entries.length, entries.countP (!·.passed))
decreasing_by
  · have h := row_of_turn _hp
    have hl := Pivot.length_of_take? _ha
    apply Prod.Lex.left
    rw [← h]
    simpa using hl
  · have h := row_of_turn _hp
    rw [← h]
    simp [Prod.lex_def, Pivot.passedOver, countP_row]

/-- Folds the terms of a scope as far as they go; a row with labels gives its marks a say. -/
def foldRow (labels : Bool) (terms : List Term) : List Term :=
  foldEntries labels ((signs terms).map .fresh)

end MacroAsm.Fold
