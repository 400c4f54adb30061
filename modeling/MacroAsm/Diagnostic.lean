import MacroAsm.Fault

/-!
# Diagnostics

A `Diagnostic` is what reading a file reports: a fault with its file and position, a limit that was
exceeded, or several diagnostics together. `Fault.locate` attaches file and position to a fault.
-/

namespace MacroAsm

/-- A stretch of a line, counted in bytes; lines and columns start at 1 and have 32 bits. -/
structure Position where
  line : UInt32
  /-- The column, or 0 where a fault has no place in its line. -/
  column : UInt32
  length : Nat
  deriving DecidableEq, Repr

namespace Position

def ofLine (line : UInt32) : Position := ⟨line, 0, 0⟩

/-- A stretch that starts at a byte offset of a line. -/
def ofOffset (line : UInt32) (offset length : Nat) : Position :=
  ⟨line, (offset : UInt32) + 1, length⟩

def print (p : Position) : String :=
  if p.column = 0 then toString p.line else s!"{p.line}:{p.column}"

end Position

/-- What went wrong with a file. -/
inductive Diagnostic where
  /-- A fault in a line of a file. -/
  | located (fault : Fault) (file : String) (position : Position)
  /-- More of a resource was needed than its limit allows. -/
  | limitExceeded (resource : String) (limit : Nat)
  /-- Several diagnostics, in the order of their lines. -/
  | several (diagnostics : List Diagnostic)
  deriving Repr, Inhabited

namespace Diagnostic

/-- The file of a diagnostic, for several that of the first. -/
def file? : Diagnostic → Option String
  | located _ file _ => some file
  | limitExceeded _ _ => none
  | several [] => none
  | several (d :: _) => d.file?

/-- The line of a diagnostic, for several that of the first. -/
def line? : Diagnostic → Option UInt32
  | located _ _ position => some position.line
  | limitExceeded _ _ => none
  | several [] => none
  | several (d :: _) => d.line?

/-- The single diagnostics that a diagnostic is made of. -/
def toList : Diagnostic → List Diagnostic
  | several ds => ds
  | d => [d]

mutual

/-- The wording of a diagnostic; several stand on lines of their own. -/
def message : Diagnostic → String
  | located fault file position => s!"{file}:{position.print}: {fault.message}"
  | limitExceeded resource limit => s!"resource limit exceeded: {resource} (limit: {limit})"
  | several ds => "\n".intercalate (messageAll ds)

def messageAll : List Diagnostic → List String
  | [] => []
  | d :: ds => d.message :: messageAll ds

end

end Diagnostic

/-- A fault as found in line `line` of a file. -/
def Fault.locate (f : Fault) (file : String) (line : UInt32) : Diagnostic :=
  .located f file <|
    match f.offset? with
    | some offset => .ofOffset line offset 1
    | none => .ofLine line

end MacroAsm
