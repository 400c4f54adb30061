import MacroAsm.Interchange.Diagnostic
import MacroAsm.Interchange.Node
import MacroAsm.Json.Read
import MacroAsm.Json.Write
import MacroAsm.Reader

/-!
# Files and settings as JSON

Statements, files and the settings of a reader in the same forms as nodes, and the texts that they
are written as.
-/

namespace MacroAsm

namespace Statement

def toJson (s : Statement) : Json :=
  .object [("file", .string s.file), ("line", .natural s.line), ("node", s.node.toJson)]

def ofJson? (j : Json) : Option Statement := do
  let [file, line, node] ← j.record? ["file", "line", "node"] | none
  return ⟨← (← file).string?, ← (← line).word32?, ← Node.ofJson? (← node)⟩

end Statement

namespace SourceFile

def toJson (f : SourceFile) : Json :=
  .object [("name", .string f.name), ("statements", .array (f.statements.map Statement.toJson))]

def ofJson? (j : Json) : Option SourceFile := do
  let [name, statements] ← j.record? ["name", "statements"] | none
  return ⟨← (← name).string?, ← (← (← statements).items?).mapM Statement.ofJson?⟩

end SourceFile

namespace Limits

def toJson (l : Limits) : Json :=
  .object
    [("max_source_bytes", .natural l.sourceBytes), ("max_line_bytes", .natural l.lineBytes),
      ("max_errors", .natural l.faults)]

def ofJson? (j : Json) : Option Limits := do
  let [sourceBytes, lineBytes, faults] ←
    j.record? ["max_source_bytes", "max_line_bytes", "max_errors"] | none
  return ⟨← (← sourceBytes).nat64?, ← (← lineBytes).nat64?, ← (← faults).nat64?⟩

end Limits

namespace Policy

def toJson (p : Policy) : Json := .string p.name

def ofJson? (j : Json) : Option Policy :=
  match j.bareTag? with
  | some "FailFast" => some failFast
  | some "Collect" => some collect
  | _ => none

end Policy

/-! ## Texts -/

/-- How deeply a text that is read may be nested. -/
def readNesting : Nat := 127

/-- The text that a value is written as, given any text that it can be read from. -/
def standardText? {α : Type} (ofJson? : Json → Option α) (toJson : α → Json) (s : String) :
    Option String := do
  let a ← ofJson? (← Json.read? readNesting s)
  return (toJson a).write

end MacroAsm
