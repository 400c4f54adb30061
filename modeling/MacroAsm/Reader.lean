import MacroAsm.Note
import MacroAsm.Number.Literal
import MacroAsm.Scope.Nest
import MacroAsm.Token.Scan

/-!
# Reading lines and files

A `Reader` turns lines into nodes and files into statements. It holds the limits that protect
against oversized input, the policy for faults, and the way numerals are read.

`Reader.line` scans, nests and folds one line. `Reader.file` does so for every logical line of a
file; under the policy `failFast` the first fault ends it, and under `collect` the faults of all
lines are reported together, unless there are as many as the limit says.
-/

namespace MacroAsm

/-- Bounds on what a reader takes. -/
structure Limits where
  /-- The most bytes of one file. -/
  sourceBytes : Nat := 64 * 1024 * 1024
  /-- The most bytes of one logical line. -/
  lineBytes : Nat := 1024 * 1024
  /-- The number of faults at which a reader gives up. -/
  faults : Nat := 64
  deriving DecidableEq, Repr

/-- What happens when a line is at fault. -/
inductive Policy where
  /-- The first fault ends the reading. -/
  | failFast
  /-- The faults of all lines are reported together. -/
  | collect
  deriving DecidableEq, Repr

def Policy.name : Policy → String
  | failFast => "FailFast"
  | collect => "Collect"

/-- The settings under which source is read. -/
structure Reader where
  limits : Limits := {}
  policy : Policy := .collect
  numeral : NumeralReader := readNumeral

/-- A result with the notes that were made on the way, in order. -/
structure Noted (α : Type) where
  value : α
  notes : List Note

namespace Reader

/-- The settings as text; the way numerals are read has none. -/
def print (r : Reader) : String :=
  let l := r.limits
  s!"FrontEnd \x7b limits: ResourceLimits \x7b max_source_bytes: {l.sourceBytes}, " ++
    s!"max_line_bytes: {l.lineBytes}, max_errors: {l.faults} \x7d, " ++
    s!"policy: {r.policy.name}, .. \x7d"

/-! ## Lines -/

/-- Reads one line, and notes how many tokens it has and which scope did not fold. -/
def notedLine (r : Reader) (text : String) : Noted (Except Fault (Option Node)) :=
  let line := text.toList
  match scan line with
  | .error fault => ⟨.error fault, []⟩
  | .ok tokens =>
    let scanned := Note.scanned tokens.length
    match Scope.ofTokens (cutLine line) r.numeral tokens with
    | .error fault => ⟨.error fault, [scanned]⟩
    | .ok root =>
      match root.fold with
      | .error obstacle => ⟨.error obstacle.fault, scanned :: obstacle.notes⟩
      | .ok node? => ⟨.ok node?, [scanned]⟩

/-- Reads one line; a line with nothing in it gives no node. -/
def line (r : Reader) (text : String) : Except Fault (Option Node) := (r.notedLine text).value

/-! ## Files -/

/-- A file read so far. Statements, faults and notes have the last one first. -/
structure Progress where
  lines : Nat := 0
  statements : List Statement := []
  faults : List Diagnostic := []
  notes : List Note := []

/-- A file that is given up, with the notes made so far, the last one first. -/
structure Halt where
  diagnostic : Diagnostic
  notes : List Note

/-- Takes a fault, which may end the reading. -/
def takeFault (r : Reader) (p : Progress) (d : Diagnostic) : Except Halt Progress :=
  let notes := .fault d :: p.notes
  match r.policy with
  | .failFast => .error ⟨d, notes⟩
  | .collect =>
    let faults := d :: p.faults
    if r.limits.faults ≤ faults.length then
      .error ⟨.limitExceeded "errors" r.limits.faults, notes⟩
    else .ok { p with faults, notes }

/-- A fault of a line of a file: a string is reported open from the line on which it is. -/
def faultInFile (l : Line) : Fault → Fault
  | .unterminated _ => .unterminated l.number
  | fault => fault

/-- Reads one logical line of the file `name`. -/
def addLine (r : Reader) (name : String) (p : Progress) (l : Line) : Except Halt Progress :=
  let p := { p with lines := p.lines + 1 }
  if r.limits.lineBytes < l.text.utf8ByteSize then
    .error ⟨.limitExceeded "line bytes" r.limits.lineBytes, p.notes⟩
  else
    let noted := r.notedLine l.text
    let p := { p with notes := noted.notes.reverse ++ p.notes }
    match noted.value with
    | .ok none => .ok p
    | .ok (some node) =>
      let s : Statement := ⟨name, l.number, node⟩
      .ok { p with statements := s :: p.statements, notes := .statement s :: p.notes }
    | .error fault => r.takeFault p ((faultInFile l fault).locate name l.number)

def addLines (r : Reader) (name : String) (p : Progress) : List Line → Except Halt Progress
  | [] => .ok p
  | l :: lines =>
    match r.addLine name p l with
    | .error halt => .error halt
    | .ok p => r.addLines name p lines

/-- Takes the fault at the end of the file `name`, if it ends inside a string. -/
def addEnd (r : Reader) (name : String) (p : Progress) : Option Fault → Except Halt Progress
  | none => .ok p
  | some (.unterminated openedAtLine) =>
    r.takeFault p ((Fault.unterminated openedAtLine).locate name openedAtLine)
  | some fault => r.takeFault p (fault.locate name 0)

/-- What a file that was read to its end comes to. -/
def Progress.outcome (p : Progress) (name : String) : Except Diagnostic SourceFile :=
  match p.faults with
  | [] => .ok ⟨name, p.statements.reverse⟩
  | [d] => .error d
  | ds => .error (.several ds.reverse)

/-- Reads a file, and notes what happens on the way. -/
def notedFile (r : Reader) (name : String) (bytes : List UInt8) :
    Noted (Except Diagnostic SourceFile) :=
  if r.limits.sourceBytes < bytes.length then
    ⟨.error (.limitExceeded "source bytes" r.limits.sourceBytes), []⟩
  else
    let split := logicalLines bytes
    match r.addLines name {} split.lines >>= (r.addEnd name · split.fault?) with
    | .error halt => ⟨.error halt.diagnostic, halt.notes.reverse⟩
    | .ok p =>
      let last := .finished name p.lines p.statements.length p.faults.length
      ⟨p.outcome name, (last :: p.notes).reverse⟩

/-- Reads a file. -/
def file (r : Reader) (name : String) (bytes : List UInt8) : Except Diagnostic SourceFile :=
  (r.notedFile name bytes).value

end Reader

end MacroAsm
