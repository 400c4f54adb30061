import MacroAsm.Diagnostic
import MacroAsm.Fold.Walk
import MacroAsm.Statement

/-!
# Notes

What reading lines and files remarks on its way. Notes change nothing in a result; each has a
level, so that a listener can ask for fewer, and a wording.
-/

namespace MacroAsm

/-- How detailed a note is. -/
inductive NoteLevel where
  | debug
  | trace
  deriving DecidableEq, Repr

def NoteLevel.name : NoteLevel → String
  | debug => "DEBUG"
  | trace => "TRACE"

/-- A remark. -/
inductive Note where
  /-- A line was split into tokens. -/
  | scanned (tokens : Nat)
  /-- A scope was left with several terms. -/
  | unresolved (place : Fold.Place) (terms : Nat)
  /-- A line of a file became a statement. -/
  | statement (s : Statement)
  /-- A line of a file was at fault. -/
  | fault (d : Diagnostic)
  /-- A file was read to its end. -/
  | finished (name : String) (lines statements faults : Nat)
  /-- A file was put into a store. -/
  | stored (name : String) (statements : Nat)
  deriving Repr

namespace Note

def level : Note → NoteLevel
  | scanned _ => .trace
  | unresolved .. => .trace
  | statement _ => .trace
  | fault _ => .debug
  | finished .. => .debug
  | stored .. => .debug

def message : Note → String
  | scanned tokens => s!"{tokens} spans"
  | unresolved place terms => s!"{terms} items left unresolved in {place.name} scope"
  | statement s => s.print
  | fault d => d.message
  | finished name lines statements faults =>
    s!"{name}: {lines} lines, {statements} statements, {faults} errors"
  | stored name statements => s!"cached {name} ({statements} statements)"

def print (n : Note) : String := n.level.name ++ " " ++ n.message

/-- Whether a listener at a level gets the note. -/
def isHeardAt (n : Note) : NoteLevel → Bool
  | .trace => true
  | .debug => n.level = .debug

end Note

/-- The note that an obstacle leaves. -/
def Fold.Obstacle.notes : Fold.Obstacle → List Note
  | several place count => [.unresolved place count]
  | _ => []

end MacroAsm
