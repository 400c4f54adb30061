import MacroAsm.Fault
import MacroAsm.Fold.Row
import MacroAsm.Scope

/-!
# Folding a nested line

`Scope.fold` folds a nested line to one node. It walks over the tree with a stack of open scopes, so
that nesting of any depth takes no deeper recursion: children are gathered into the terms of
their scope, and a scope without further children becomes a term of the scope around it.

The walk ends because each step shrinks the weight of what is left (`weightAll`).
-/

namespace MacroAsm

namespace Fold

/-- Where a scope stands, which decides what it may fold to. -/
inductive Place where
  /-- The whole line. -/
  | line
  /-- A pair of parentheses. -/
  | group
  /-- A pair of square brackets. -/
  | subscript
  /-- An argument of a macro call. -/
  | argument
  /-- A macro call, which gathers its arguments. -/
  | call (name : String) (size : Option String)
  deriving DecidableEq, Repr

/-- How a note names the place of a scope. -/
def Place.name : Place → String
  | line => "Root"
  | group => "Group"
  | subscript => "Subscript"
  | argument => "Argument"
  | call .. => "Call"

/-- Why a scope does not fold to one node. -/
inductive Obstacle where
  /-- Several terms are left. -/
  | several (place : Place) (count : Nat)
  /-- A label mark is left. -/
  | bareMark (place : Place)
  /-- There is nothing between square brackets. -/
  | emptySubscript
  /-- An operator is left that lacks an operand. -/
  | incomplete (place : Place) (node : Node)
  deriving Repr

/-- The fault that an obstacle is reported as. -/
def Obstacle.fault : Obstacle → Fault
  | several .argument _ => .badArgument "argument does not reduce to a single value" none
  | incomplete .argument node => .badArgument s!"'{node.print}' is incomplete" none
  | _ => .unresolved

def Term.node? : Term → Option Node
  | node n => some n
  | mark => none

/-- The term that a leaf is. -/
def Term.ofLeaf (s : Scope) : Term :=
  match s.kind, s.value with
  | .label, _ => .mark
  | _, none => .mark
  | _, some n => .node n

/-- What an empty scope folds to: nothing, or an omitted argument. -/
def foldEmpty : Place → Except Obstacle (Option Node)
  | .argument => .ok (some (.text ""))
  | .subscript => .error .emptySubscript
  | _ => .ok none

def wrap : Place → Node → Node
  | .subscript, n => .op .subscript none (some n)
  | _, n => n

/-- Folds the terms of a scope to at most one node. -/
def foldTerms (place : Place) (terms : List Term) : Except Obstacle (Option Node) :=
  match place with
  | .call name size => .ok (some (.call name size (terms.filterMap Term.node?)))
  | place =>
    match foldRow (place = .line) terms with
    | [] => foldEmpty place
    | [.mark] => .error (.bareMark place)
    | [.node n] => if n.isComplete then .ok (some (wrap place n)) else .error (.incomplete place n)
    | terms => .error (.several place terms.length)

/-- The place of a scope inside another one. -/
def placeWithin (outer : Place) (s : Scope) : Place :=
  match s.kind with
  | .call =>
    match s.value with
    | some (.call name size _) => .call name size
    | _ => .call "" none
  | .operator => .subscript
  | _ =>
    match outer with
    | .call .. => .argument
    | _ => .group

/-! ## The walk -/

/-- A scope whose children are being folded. -/
structure OpenScope where
  place : Place
  /-- The children still to come. -/
  pending : List Scope
  /-- The terms so far, the last one first. -/
  terms : List Term
  deriving Repr

mutual

/-- A measure of the work that a scope takes. -/
def weight : Scope → Nat
  | ⟨_, _, _, children⟩ => weightAll children + 2

def weightAll : List Scope → Nat
  | [] => 0
  | s :: rest => weight s + weightAll rest

end

/-- A measure of the work that open scopes take. -/
def weightOpen : List OpenScope → Nat
  | [] => 0
  | f :: rest => weightAll f.pending + 1 + weightOpen rest

theorem weight_eq (s : Scope) : weight s = weightAll s.children + 2 := by
  cases s; simp [weight]

/-- Folds the innermost open scope and then those around it, the nearest first. -/
def walk (f : OpenScope) (outer : List OpenScope) : Except Obstacle (Option Node) :=
  match f, outer with
  | ⟨place, child :: pending, terms⟩, outer =>
    if child.isScope then
      walk ⟨placeWithin place child, child.children, []⟩ (⟨place, pending, terms⟩ :: outer)
    else walk ⟨place, pending, .ofLeaf child :: terms⟩ outer
  | ⟨place, [], terms⟩, outer =>
    match foldTerms place terms.reverse with
    | .error obstacle => .error obstacle
    | .ok result =>
      match outer with
      | [] => .ok result
      | ⟨place, pending, terms⟩ :: outer =>
        match result with
        | some n => walk ⟨place, pending, .node n :: terms⟩ outer
        | none => walk ⟨place, pending, terms⟩ outer
termination_by weightOpen (f :: outer)
decreasing_by
  all_goals simp only [weightOpen, weightAll, weight_eq]
  all_goals omega

end Fold

/-- Folds a nested line to one node, or to none if there is nothing in it. -/
def Scope.fold (root : Scope) : Except Fold.Obstacle (Option Node) :=
  Fold.walk ⟨.line, root.children, []⟩ []

end MacroAsm
