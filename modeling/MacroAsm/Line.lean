import MacroAsm.Fault

/-!
# Logical lines

A source file is a sequence of bytes, each of which is one character. A `LineBuilder` takes them one
at a time and hands out logical lines: a comment runs from a `;` outside a string to the end of its
physical line and is dropped, and a line break inside a string joins two physical lines. Physical
lines are counted in 32 bits, and the count starts over after the largest number.

`logicalLines` runs a builder over a whole file, and a `LineStream` does so only as far as lines are
asked for.
-/

namespace MacroAsm

/-- One logical line without its line break and comment. -/
structure Line where
  text : String
  /-- The physical line that it starts on, counted from 1 in 32 bits. -/
  number : UInt32
  deriving DecidableEq, Repr

/-- What the next byte belongs to. -/
inductive LineMode where
  | code
  | comment
  /-- A string, with its quote, the line it was opened on, and whether the last character was a
  backslash that escapes the next one. -/
  | quoted (quote : Char) (openedAtLine : UInt32) (escaped : Bool)
  deriving DecidableEq, Repr

/-- A logical line under construction. -/
structure LineBuilder where
  mode : LineMode := .code
  /-- The characters so far, the last one first. -/
  reversedText : List Char := []
  /-- The current physical line. -/
  line : UInt32 := 1
  /-- The physical line that the logical line started on. -/
  startLine : UInt32 := 1
  deriving DecidableEq, Repr

/-- A character that opens and closes strings. -/
def isQuote (c : Char) : Bool := c = '\'' || c = '"'

namespace LineBuilder

/-- The line built so far, unless it is empty. -/
def built? (b : LineBuilder) : Option Line :=
  if b.reversedText.isEmpty then none
  else some ⟨String.ofList b.reversedText.reverse, b.startLine⟩

/-- Takes a line break, which ends the logical line unless a string is open. -/
def breakLine (b : LineBuilder) : LineBuilder × Option Line :=
  let next := b.line + 1
  match b.mode with
  | .quoted quote openedAtLine _ =>
    ({ b with mode := .quoted quote openedAtLine false, line := next }, none)
  | _ => ({ line := next, startLine := next }, b.built?)

/-- The mode after a character other than a line break. -/
def modeAfter (mode : LineMode) (line : UInt32) (c : Char) : LineMode :=
  match mode with
  | .comment => .comment
  | .code => if c = ';' then .comment else if isQuote c then .quoted c line false else .code
  | .quoted quote openedAtLine escaped =>
    if c = '\\' then .quoted quote openedAtLine (!escaped)
    else if c = quote && !escaped then .code
    else .quoted quote openedAtLine false

/-- Takes one byte, and hands out a line if the byte completes it. -/
def push (b : LineBuilder) (byte : UInt8) : LineBuilder × Option Line :=
  let c := Char.ofNat byte.toNat
  if c = '\n' then b.breakLine
  else
    match modeAfter b.mode b.line c with
    | .comment => ({ b with mode := .comment }, none)
    | mode => ({ b with mode, reversedText := c :: b.reversedText }, none)

/-- Ends the input: the last line, if there is one and no string is open. -/
def finish (b : LineBuilder) : Except Fault (Option Line) :=
  match b.mode with
  | .quoted _ openedAtLine _ => .error (.unterminated openedAtLine)
  | _ => .ok b.built?

/-- Takes bytes and adds the lines that they complete in front of `done`, the last one first. -/
def pushAll (b : LineBuilder) (done : List Line) : List UInt8 → LineBuilder × List Line
  | [] => (b, done)
  | byte :: bytes =>
    match b.push byte with
    | (b, none) => b.pushAll done bytes
    | (b, some line) => b.pushAll (line :: done) bytes

end LineBuilder

/-- The logical lines of a file, in order, and the fault at its end, if it ends inside a string. -/
structure LineSplit where
  lines : List Line
  fault? : Option Fault
  deriving DecidableEq, Repr

/-- Splits a file into logical lines. -/
def logicalLines (bytes : List UInt8) : LineSplit :=
  let (b, done) := ({} : LineBuilder).pushAll [] bytes
  match b.finish with
  | .ok none => ⟨done.reverse, none⟩
  | .ok (some last) => ⟨(last :: done).reverse, none⟩
  | .error fault => ⟨done.reverse, some fault⟩

/-- The lines and the fault in the order in which they come. -/
def LineSplit.items (split : LineSplit) : List (Except Fault Line) :=
  split.lines.map .ok ++ split.fault?.toList.map .error

/-- A file of which the logical lines are asked for one at a time: the bytes still to come, and the
builder until the end of the file has been handed out. -/
structure LineStream where
  bytes : List UInt8
  builder? : Option LineBuilder := some {}
  deriving DecidableEq, Repr

namespace LineStream

/-- Takes bytes until a line is complete or the file ends. -/
def nextFrom (b : LineBuilder) : List UInt8 → Option (Except Fault Line) × LineStream
  | [] =>
    match b.finish with
    | .ok last => (last.map .ok, ⟨[], none⟩)
    | .error fault => (some (.error fault), ⟨[], none⟩)
  | byte :: bytes =>
    match b.push byte with
    | (b, some line) => (some (.ok line), ⟨bytes, some b⟩)
    | (b, none) => nextFrom b bytes

/-- The next line or the fault at the end, or nothing once all has been handed out. -/
def next (s : LineStream) : Option (Except Fault Line) × LineStream :=
  match s.builder? with
  | some b => nextFrom b s.bytes
  | none => (none, s)

/-- The stream after a number of requests. -/
def skip (s : LineStream) : Nat → LineStream
  | 0 => s
  | n + 1 => s.next.2.skip n

end LineStream

end MacroAsm
