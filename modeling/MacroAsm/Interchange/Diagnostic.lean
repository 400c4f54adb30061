import MacroAsm.Diagnostic
import MacroAsm.Json.Basic

/-!
# Faults and diagnostics as JSON

In the same forms as nodes. A fault of a line is told apart by its stage first: `Lex` for one in the
characters, `Syntax` for one in the structure. Lines, columns and radices have 32 bits, offsets and
lengths 64.
-/

namespace MacroAsm

namespace NumeralFault

def name : NumeralFault → String
  | empty => "Empty"
  | badDigit .. => "InvalidDigit"
  | overflow => "Overflow"
  | badFloat => "InvalidFloat"

def toJson (f : NumeralFault) : Json :=
  match f with
  | badDigit digit radix =>
    .tagged f.name (.object [("digit", .ofChar digit), ("radix", .natural radix)])
  | _ => .string f.name

def ofJson? (j : Json) : Option NumeralFault :=
  match j.bareTag? with
  | some "Empty" => some empty
  | some "Overflow" => some overflow
  | some "InvalidFloat" => some badFloat
  | _ =>
    match j.tagged? with
    | some ("InvalidDigit", some contents) => do
      let [digit, radix] ← contents.record? ["digit", "radix"] | none
      return badDigit (← (← digit).char?) (← (← radix).nat32?)
    | _ => none

end NumeralFault

namespace Fault

def name : Fault → String
  | unrecognized .. => "UnrecognizedCharacter"
  | unterminated _ => "UnterminatedString"
  | emptyLabel _ => "EmptyLabel"
  | repeatedLabel _ => "MultipleLabels"
  | strayParen _ => "UnmatchedCloseParen"
  | strayBracket _ => "UnmatchedCloseBracket"
  | unknownOperator .. => "UnknownOperator"
  | unresolved => "UnresolvedExpression"
  | badArgument .. => "InvalidMacroArgument"
  | unclosed .. => "UnclosedDelimiter"
  | badNumeral .. => "InvalidNumber"

/-- The fields of a fault; one without any has none at all. -/
def fields : Fault → List (String × Json)
  | unrecognized c offset => [("ch", .ofChar c), ("offset", .natural offset)]
  | unterminated line => [("opened_at_line", .natural line)]
  | emptyLabel offset => [("offset", .natural offset)]
  | repeatedLabel offset => [("offset", .natural offset)]
  | strayParen offset => [("offset", .natural offset)]
  | strayBracket offset => [("offset", .natural offset)]
  | unknownOperator symbol offset => [("operator", .string symbol), ("offset", .natural offset)]
  | unresolved => []
  | badArgument detail offset? =>
    [("detail", .string detail), ("offset", .ofOption .natural offset?)]
  | unclosed bracket offset => [("delimiter", .ofChar bracket), ("offset", .natural offset)]
  | badNumeral text cause offset =>
    [("text", .string text), ("error", cause.toJson), ("offset", .natural offset)]

def bareToJson (f : Fault) : Json :=
  match f.fields with
  | [] => .string f.name
  | fields => .tagged f.name (.object fields)

/-- The offset that is the only field of a fault. -/
def offsetOfJson? (j : Json) : Option Nat := do
  let [offset] ← j.record? ["offset"] | none
  (← offset).nat64?

def characterFaultOfJson? (j : Json) : Option Fault :=
  match j.tagged? with
  | some ("UnrecognizedCharacter", some contents) => do
    let [c, offset] ← contents.record? ["ch", "offset"] | none
    return unrecognized (← (← c).char?) (← (← offset).nat64?)
  | some ("UnterminatedString", some contents) => do
    let [line] ← contents.record? ["opened_at_line"] | none
    return unterminated (← (← line).word32?)
  | _ => none

def structuralFaultOfJson? (j : Json) : Option Fault :=
  if j.bareTag? = some "UnresolvedExpression" then some unresolved
  else
    match j.tagged? with
    | some ("EmptyLabel", some contents) => (offsetOfJson? contents).map emptyLabel
    | some ("MultipleLabels", some contents) => (offsetOfJson? contents).map repeatedLabel
    | some ("UnmatchedCloseParen", some contents) => (offsetOfJson? contents).map strayParen
    | some ("UnmatchedCloseBracket", some contents) => (offsetOfJson? contents).map strayBracket
    | some ("UnknownOperator", some contents) => do
      let [symbol, offset] ← contents.record? ["operator", "offset"] | none
      return unknownOperator (← (← symbol).string?) (← (← offset).nat64?)
    | some ("InvalidMacroArgument", some contents) => do
      let [detail, offset] ← contents.record? ["detail", "offset"] | none
      return badArgument (← (← detail).string?) (← Json.optional? Json.nat64? offset)
    | some ("UnclosedDelimiter", some contents) => do
      let [bracket, offset] ← contents.record? ["delimiter", "offset"] | none
      return unclosed (← (← bracket).char?) (← (← offset).nat64?)
    | some ("InvalidNumber", some contents) => do
      let [text, cause, offset] ← contents.record? ["text", "error", "offset"] | none
      let text ← (← text).string?
      return badNumeral text (← NumeralFault.ofJson? (← cause)) (← (← offset).nat64?)
    | _ => none

def Stage.name : Stage → String
  | characters => "Lex"
  | structural => "Syntax"

def bareOfJson? : Stage → Json → Option Fault
  | .characters, j => characterFaultOfJson? j
  | .structural, j => structuralFaultOfJson? j

def toJson (f : Fault) : Json := .tagged f.stage.name f.bareToJson

def ofJson? (j : Json) : Option Fault :=
  match j.tagged? with
  | some ("Lex", some contents) => bareOfJson? .characters contents
  | some ("Syntax", some contents) => bareOfJson? .structural contents
  | _ => none

end Fault

namespace Position

def toJson (p : Position) : Json :=
  .object [("line", .natural p.line), ("col", .natural p.column), ("len", .natural p.length)]

def ofJson? (j : Json) : Option Position := do
  let [line, column, length] ← j.record? ["line", "col", "len"] | none
  return ⟨← (← line).word32?, ← (← column).word32?, ← (← length).nat64?⟩

end Position

namespace Diagnostic

mutual

def toJson : Diagnostic → Json
  | located fault file position =>
    .tagged fault.stage.name (.object
      [("error", fault.bareToJson), ("file", .string file), ("span", position.toJson)])
  | limitExceeded resource limit =>
    .tagged "ResourceLimitExceeded"
      (.object [("resource", .string resource), ("limit", .natural limit)])
  | several ds => .tagged "Multiple" (.object [("errors", .array (listToJson ds))])

def listToJson : List Diagnostic → List Json
  | [] => []
  | d :: ds => d.toJson :: listToJson ds

end

def locatedOfJson? (stage : Fault.Stage) (j : Json) : Option Diagnostic := do
  let [fault, file, position] ← j.record? ["error", "file", "span"] | none
  let fault ← Fault.bareOfJson? stage (← fault)
  return located fault (← (← file).string?) (← Position.ofJson? (← position))

/-- A diagnostic from JSON that is nested less than `fuel` deep. -/
def ofJsonWithin? (fuel : Nat) (j : Json) : Option Diagnostic :=
  match fuel with
  | 0 => none
  | fuel + 1 =>
    match j.tagged? with
    | some ("Lex", some contents) => locatedOfJson? .characters contents
    | some ("Syntax", some contents) => locatedOfJson? .structural contents
    | some ("ResourceLimitExceeded", some contents) => do
      let [resource, limit] ← contents.record? ["resource", "limit"] | none
      return limitExceeded (← (← resource).string?) (← (← limit).nat64?)
    | some ("Multiple", some contents) => do
      let [errors] ← contents.record? ["errors"] | none
      return several (← (← (← errors).items?).mapM (ofJsonWithin? fuel))
    | _ => none

def ofJson? (j : Json) : Option Diagnostic := ofJsonWithin? (j.depth + 1) j

end Diagnostic

end MacroAsm
