import MacroAsm.Number.Basic
import MacroAsm.Operator
import MacroAsm.Text.Escape

/-!
# Nodes

A `Node` is what one line of source means: a literal, a label, a macro call, an operator with its
operands, or a brace. `print` writes it out with parentheses around every operator, and
`isComplete` tells whether its outermost operator has all its operands.
-/

namespace MacroAsm

/-- An opening or a closing brace. -/
inductive Brace where
  | opening
  | closing
  deriving DecidableEq, Repr

/-- One line of source, folded to a tree. -/
inductive Node where
  /-- A name; the empty one stands for an omitted macro argument. -/
  | text (name : String)
  /-- A string with its escapes read. -/
  | string (value : String)
  | number (n : Numeral)
  /-- A label and the statement that follows it on its line. -/
  | label (name : Node) (target : Option Node)
  /-- A macro call, with what stands after the dot of its name. -/
  | call (name : String) (size : Option String) (args : List Node)
  /-- An operator and the operands it has so far. -/
  | op (operator : Operator) (left right : Option Node)
  | brace (b : Brace)
  deriving Repr, Inhabited

namespace Node

/-- An operator without operands. -/
def bare (o : Operator) : Node := op o none none

def binary (o : Operator) (left right : Node) : Node := op o (some left) (some right)

def unary (o : Operator) (operand : Node) : Node := op o none (some operand)

/-- Whether the node has all operands that its own operator needs. -/
def isComplete : Node → Bool
  | op o left right => right.isSome && (o.isUnary || left.isSome)
  | _ => true

def text? : Node → Option String
  | text name => some name
  | _ => none

/-- What a missing operand is shown as. -/
def missingOperand : String := "_"

mutual

/-- The node written out, every operator in parentheses. -/
def print : Node → String
  | text name => name
  | string value => Text.quoted value
  | number n => n.text
  | label name none => name.print ++ ":"
  | label name (some target) => name.print ++ ": " ++ target.print
  | call name size args =>
    name ++ (match size with | some s => "." ++ s | none => "")
      ++ "(" ++ ", ".intercalate (printAll args) ++ ")"
  | op .subscript left right => printOperand left ++ "[" ++ printOperand right ++ "]"
  | op .field left right => printOperand left ++ "." ++ printOperand right
  | op o left right =>
    if o.isUnary then "(" ++ o.symbol ++ printOperand right ++ ")"
    else "(" ++ printOperand left ++ " " ++ o.symbol ++ " " ++ printOperand right ++ ")"
  | brace .opening => "\x7b"
  | brace .closing => "\x7d"

def printOperand : Option Node → String
  | some node => node.print
  | none => missingOperand

def printAll : List Node → List String
  | [] => []
  | node :: rest => node.print :: printAll rest

end

theorem printAll_eq_map (nodes : List Node) : printAll nodes = nodes.map print := by
  induction nodes with
  | nil => rfl
  | cons node rest ih => simp [printAll, ih]

end Node

end MacroAsm
