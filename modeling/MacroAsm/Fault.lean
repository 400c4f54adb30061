import MacroAsm.Number.Basic
import MacroAsm.Text.Escape

/-!
# Faults of a line

Everything that can be wrong with one line of source. A `Fault` carries what its wording needs and,
where it has one, the byte offset in the line at which it was found.
-/

namespace MacroAsm

/-- Lines and columns are counted in 32 bits. -/
instance coeUInt32 : CoeTail Nat UInt32 := ⟨UInt32.ofNat⟩

instance coeNat : CoeOut UInt32 Nat := ⟨UInt32.toNat⟩

/-- What is wrong with a line. -/
inductive Fault where
  /-- A character that starts no token. -/
  | unrecognized (c : Char) (offset : Nat)
  /-- A string that is still open at the end. -/
  | unterminated (openedAtLine : UInt32)
  /-- A label mark with nothing before it. -/
  | emptyLabel (offset : Nat)
  /-- A second label mark. -/
  | repeatedLabel (offset : Nat)
  /-- A closing parenthesis that does not match the innermost open bracket. -/
  | strayParen (offset : Nat)
  /-- A closing square bracket that does not match the innermost open bracket. -/
  | strayBracket (offset : Nat)
  /-- A symbol that names no operator, or a stray dot. -/
  | unknownOperator (symbol : String) (offset : Nat)
  /-- A scope that does not fold to a single node. -/
  | unresolved
  /-- A misplaced comma, or an argument that is not one complete expression. -/
  | badArgument (detail : String) (offset? : Option Nat)
  /-- A bracket that is still open at the end. -/
  | unclosed (bracket : Char) (offset : Nat)
  /-- A numeral that was refused. -/
  | badNumeral (text : String) (cause : NumeralFault) (offset : Nat)
  deriving DecidableEq, Repr

namespace Fault

/-- The two kinds of faults: in the characters of a line, or in its structure. -/
inductive Stage where
  | characters
  | structural
  deriving DecidableEq, Repr

def stage : Fault → Stage
  | unrecognized .. => .characters
  | unterminated .. => .characters
  | _ => .structural

/-- The byte offset of a fault in its line, if it has one. -/
def offset? : Fault → Option Nat
  | unrecognized _ offset => some offset
  | unterminated _ => none
  | emptyLabel offset => some offset
  | repeatedLabel offset => some offset
  | strayParen offset => some offset
  | strayBracket offset => some offset
  | unknownOperator _ offset => some offset
  | unresolved => none
  | badArgument _ offset? => offset?
  | unclosed _ offset => some offset
  | badNumeral _ _ offset => some offset

/-- The wording of a fault. -/
def message : Fault → String
  | unrecognized c _ => s!"character '{String.ofList (Text.shown c)}' not recognized"
  | unterminated line => s!"string starting at line {line} not terminated"
  | emptyLabel _ => "invalid empty label"
  | repeatedLabel _ => "can not have multiple labels on a line"
  | strayParen _ => "unexpected closing parenthesis"
  | strayBracket _ => "unexpected closing square bracket"
  | unknownOperator symbol _ => s!"unexpected operator encountered: '{symbol}'"
  | unresolved => "expression could not be resolved to a single value"
  | badArgument detail _ => s!"invalid macro argument: {detail}"
  | unclosed bracket _ => s!"'{bracket}' is never closed"
  | badNumeral text cause _ => s!"invalid number '{text}': {cause.message}"

/-- A comma where there is no macro call. -/
def commaOutsideCall (offset : Nat) : Fault :=
  badArgument "',' outside of a macro call" (some offset)

end Fault

end MacroAsm
