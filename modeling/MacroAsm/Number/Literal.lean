import MacroAsm.Number.Basic

/-!
# Reading numerals

The notations of numeric literals, tried in this order:

| notation             | radix | example  |
|----------------------|-------|----------|
| `$` first            | 16    | `$FF00`  |
| digit first, `h` last| 16    | `0FFh`   |
| `0x` first           | 16    | `0x1F`   |
| `0b` first           | 2     | `0b1010` |
| `0o` first           | 8     | `0o777`  |
| a `.` inside         | 10    | `1.5`    |
| anything else        | 10    | `1234`   |

The letters may have either case, and `_` separates digits anywhere. `0BEh` is hexadecimal because
the last letter is looked at before the first ones.
-/

namespace MacroAsm

/-- What a digit counts for, letters of either case counting on from ten. -/
def digitValue? (radix : Nat) (c : Char) : Option Nat :=
  let v :=
    if c.isDigit then some (c.toNat - '0'.toNat)
    else if 'a' ≤ c ∧ c ≤ 'z' then some (c.toNat - 'a'.toNat + 10)
    else if 'A' ≤ c ∧ c ≤ 'Z' then some (c.toNat - 'A'.toNat + 10)
    else none
  v.filter (· < radix)

/-- How the digits of a numeral are to be read. -/
inductive NumeralForm where
  /-- Digits of an integer in a radix. -/
  | integer (radix : Nat) (digits : List Char)
  /-- A decimal fraction. -/
  | fraction (text : List Char)
  deriving DecidableEq, Repr

namespace NumeralForm

/-- The body of a numeral that starts with a digit and ends with `h`. -/
def hexBody? (text : List Char) : Option (List Char) :=
  match text.head?, text.getLast? with
  | some first, some last =>
    if (last = 'h' ∨ last = 'H') ∧ first.isDigit then some text.dropLast else none
  | _, _ => none

/-- The body of a numeral that starts with `0` and a letter for the radix, if there is one. -/
def radixBody? : List Char → Option (Nat × List Char)
  | '0' :: letter :: c :: cs =>
    let radix? :=
      if letter = 'x' ∨ letter = 'X' then some 16
      else if letter = 'b' ∨ letter = 'B' then some 2
      else if letter = 'o' ∨ letter = 'O' then some 8
      else none
    radix?.map (·, c :: cs)
  | _ => none

def ofText (text : List Char) : NumeralForm :=
  match text with
  | '$' :: digits => integer 16 digits
  | _ =>
    match hexBody? text with
    | some digits => integer 16 digits
    | none =>
      match radixBody? text with
      | some (radix, digits) => integer radix digits
      | none => if '.' ∈ text then fraction text else integer 10 text

end NumeralForm

/-- The value of digits in a radix, read on from `value`, where `seen` says that a digit
came before. -/
def readDigits (radix : Nat) (value : Nat) (seen : Bool) : List Char → Except NumeralFault Nat
  | [] => if seen then .ok value else .error .empty
  | c :: cs =>
    if c = '_' then readDigits radix value seen cs
    else
      match digitValue? radix c with
      | none => .error (.badDigit c radix)
      | some d =>
        let next := value * radix + d
        if next < Nat.pow 2 64 then readDigits radix next true cs else .error .overflow

def decimalValue (digits : List Char) : Nat :=
  digits.foldl (fun n c => n * 10 + (c.toNat - '0'.toNat)) 0

/-- The double nearest to a decimal fraction: digits, one point, and digits, where one side may
be empty. -/
def readFraction (text : List Char) : Except NumeralFault Binary64 :=
  let bare := text.filter (· ≠ '_')
  match bare.find? (fun c => !(c.isDigit || c = '.')) with
  | some c => .error (.badDigit c 10)
  | none =>
    if bare.all (· = '.') then .error .empty
    else
      let whole := bare.takeWhile (· ≠ '.')
      let places := (bare.dropWhile (· ≠ '.')).drop 1
      if '.' ∈ places then .error .badFloat
      else .ok (.ofRatio false (decimalValue (whole ++ places)) (Nat.pow 10 places.length))

/-- Reads a numeral. -/
def readNumeral : NumeralReader := fun text => do
  match NumeralForm.ofText text.toList with
  | .integer radix digits =>
    let n := UInt64.ofNat (← readDigits radix 0 false digits)
    return (.integer n, .ofInteger n)
  | .fraction text => return (.float (← readFraction text), .float)

end MacroAsm
