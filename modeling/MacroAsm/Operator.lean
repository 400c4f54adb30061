/-!
# Operators

Every operator of the assembly dialect, with its written symbol, how tightly it binds and how many
operands it takes. `ofSymbol?_symbol` says that the operator which a symbol names is shown by it.
-/

namespace MacroAsm

/-- An operator of an expression. -/
inductive Operator where
  | add
  | sub
  | mul
  | div
  | mod
  | and
  | or
  | xor
  | shiftLeft
  | shiftRight
  | rotateLeft
  | rotateRight
  | eq
  | notEq
  | lt
  | gt
  | ltEq
  | gtEq
  /-- The equate sign `=`. -/
  | set
  /-- The sign `-` without a left operand. -/
  | neg
  /-- Bitwise complement `~`. -/
  | not
  /-- Logical negation `!`. -/
  | logicalNot
  /-- An index in square brackets. -/
  | subscript
  /-- The cast `::`. -/
  | cast
  /-- The field access `.`. -/
  | field
  deriving DecidableEq, Repr

namespace Operator

def all : List Operator :=
  [add, sub, mul, div, mod, and, or, xor, shiftLeft, shiftRight, rotateLeft, rotateRight, eq,
   notEq, lt, gt, ltEq, gtEq, set, neg, not, logicalNot, subscript, cast, field]

/-- The symbol that shows an operator. -/
def symbol : Operator → String
  | add => "+"
  | sub => "-"
  | neg => "-"
  | mul => "*"
  | div => "/"
  | mod => "%"
  | and => "&"
  | or => "|"
  | xor => "^"
  | shiftLeft => "<<"
  | shiftRight => ">>"
  | rotateLeft => "<<<"
  | rotateRight => ">>>"
  | eq => "=="
  | notEq => "!="
  | lt => "<"
  | gt => ">"
  | ltEq => "<="
  | gtEq => ">="
  | set => "="
  | not => "~"
  | logicalNot => "!"
  | subscript => "[]"
  | cast => "::"
  | field => "."

/-- The operator that a symbol in a line names. The signs `-` and `+` name the binary operators,
which become signs once they turn out to have nothing on their left. -/
def ofSymbol? : String → Option Operator
  | "+" => some add
  | "-" => some sub
  | "*" => some mul
  | "/" => some div
  | "%" => some mod
  | "&" => some and
  | "|" => some or
  | "^" => some xor
  | "=" => some set
  | "!" => some logicalNot
  | "~" => some not
  | "<" => some lt
  | ">" => some gt
  | "==" => some eq
  | "!=" => some notEq
  | "<=" => some ltEq
  | ">=" => some gtEq
  | "<<" => some shiftLeft
  | ">>" => some shiftRight
  | "<<<" => some rotateLeft
  | ">>>" => some rotateRight
  | _ => none

/-- How loosely an operator binds: the lowest number takes its operands first. -/
def looseness : Operator → Nat
  | field => 0
  | cast => 0
  | subscript => 1
  | neg => 2
  | not => 2
  | logicalNot => 2
  | mul => 3
  | div => 3
  | mod => 3
  | add => 4
  | sub => 4
  | shiftLeft => 5
  | shiftRight => 5
  | rotateLeft => 5
  | rotateRight => 5
  | lt => 6
  | gt => 6
  | ltEq => 6
  | gtEq => 6
  | eq => 7
  | notEq => 7
  | and => 8
  | xor => 9
  | or => 10
  | set => 11

/-- Whether the operator takes a right operand only. -/
def isUnary : Operator → Bool
  | neg => true
  | not => true
  | logicalNot => true
  | _ => false

/-- The name that stands for an operator in data. -/
def name : Operator → String
  | add => "Add"
  | sub => "Sub"
  | mul => "Mul"
  | div => "Div"
  | mod => "Mod"
  | and => "And"
  | or => "Or"
  | xor => "Xor"
  | shiftLeft => "ShiftLeft"
  | shiftRight => "ShiftRight"
  | rotateLeft => "RotateLeft"
  | rotateRight => "RotateRight"
  | eq => "Eq"
  | notEq => "NotEq"
  | lt => "Lt"
  | gt => "Gt"
  | ltEq => "LtEq"
  | gtEq => "GtEq"
  | set => "Set"
  | neg => "Neg"
  | not => "Not"
  | logicalNot => "LogicalNot"
  | subscript => "ArraySubscript"
  | cast => "Cast"
  | field => "FieldAccess"

def ofName? (s : String) : Option Operator := all.find? (·.name == s)

/-! ## Laws -/

theorem ofSymbol?_symbol {s : String} {o : Operator} (h : ofSymbol? s = some o) : o.symbol = s := by
  unfold ofSymbol? at h
  split at h <;> first | (cases h; rfl) | cases h

theorem ofName?_name (o : Operator) : ofName? o.name = some o := by
  cases o <;> decide

end Operator

end MacroAsm
