import MacroAsm.Node

/-!
# Statements

A `Statement` is a folded line with its place; a `SourceFile` holds the statements of one file.
-/

namespace MacroAsm

/-- One folded line of a file. -/
structure Statement where
  file : String
  /-- The physical line that it starts on, counted from 1 in 32 bits. -/
  line : UInt32
  node : Node
  deriving Repr

def Statement.print (s : Statement) : String := s!"{s.file}:{s.line}: {s.node.print}"

/-- The statements of a file, in order. -/
structure SourceFile where
  name : String
  statements : List Statement
  deriving Repr

namespace SourceFile

def length (f : SourceFile) : Nat := f.statements.length

def isEmpty (f : SourceFile) : Bool := f.statements.isEmpty

def nodes (f : SourceFile) : List Node := f.statements.map (·.node)

end SourceFile

end MacroAsm
