import MacroAsm.Node

/-!
# Scopes

A line nested by its brackets and macro calls, before operators have taken their operands. Leaves
carry a value; scopes carry children.
-/

namespace MacroAsm

/-- What a scope or leaf is. -/
inductive ScopeKind where
  /-- The line itself, a pair of parentheses, or one macro argument. -/
  | plain
  /-- An operator, or a pair of square brackets if its value is a subscript. -/
  | operator
  | string
  | text
  | number
  /-- A label mark. -/
  | label
  /-- A macro call; its children are its arguments. -/
  | call
  | openBrace
  | closeBrace
  deriving DecidableEq, Repr

/-- A scope or leaf of a nested line. -/
structure Scope where
  kind : ScopeKind
  /-- How many scopes enclose it. -/
  depth : Nat
  value : Option Node
  children : List Scope
  deriving Repr

namespace Scope

instance : Inhabited Scope := ⟨⟨.plain, 0, none, []⟩⟩

def isScope (s : Scope) : Bool :=
  match s.kind, s.value with
  | .plain, _ => true
  | .call, _ => true
  | .operator, some (.op .subscript _ _) => true
  | _, _ => false

end Scope

end MacroAsm
