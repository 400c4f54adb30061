import MacroAsm.Json.Basic

/-!
# Writing JSON

`Json.write` gives the compact text of a value: no blanks, characters above ASCII as they are, and
control characters by their short escapes where there are any. An unusable value is written as null.
-/

namespace MacroAsm.Json

/-! ## Texts -/

/-- The letter of a short escape. -/
def shortEscape? : Char → Option Char
  | '"' => some '"'
  | '\\' => some '\\'
  | '\x08' => some 'b'
  | '\x0c' => some 'f'
  | '\n' => some 'n'
  | '\r' => some 'r'
  | '\t' => some 't'
  | _ => none

/-- A character inside a text. -/
def writeChar (c : Char) : List Char :=
  match shortEscape? c with
  | some letter => ['\\', letter]
  | none =>
    if c.toNat < 0x20 then
      ['\\', 'u', '0', '0', Nat.digitChar (c.toNat / 16), Nat.digitChar (c.toNat % 16)]
    else [c]

/-- A text in quotes. -/
def writeString (s : String) : String :=
  String.ofList ('"' :: s.toList.flatMap writeChar ++ ['"'])

/-! ## Numbers -/

/-- As many zeros. -/
def zeros (n : Nat) : List Char := List.replicate n '0'

/-- An exponent with its sign, of either kind. -/
def writeExponent (n : Int) : List Char :=
  (if n < 0 then '-' else '+') :: Nat.toDigits 10 n.natAbs

/-- A decimal with a point or an exponent: the point stands where it belongs as long as no more
than five zeros precede the digits or sixteen digits precede it, and otherwise after the first
digit. -/
def writeDecimal (negative : Bool) (digits : Nat) (exponent : Int) : String :=
  let ds := Nat.toDigits 10 digits
  let point : Int := ds.length + exponent
  let magnitude :=
    if digits = 0 then ['0', '.', '0']
    else if 0 ≤ exponent ∧ point ≤ 16 then ds ++ zeros exponent.toNat ++ ['.', '0']
    else if 0 < point ∧ point ≤ 16 then ds.take point.toNat ++ '.' :: ds.drop point.toNat
    else if -5 < point ∧ point ≤ 0 then '0' :: '.' :: zeros (-point).toNat ++ ds
    else
      let mantissa := if ds.length = 1 then ds else ds.take 1 ++ '.' :: ds.drop 1
      mantissa ++ 'e' :: writeExponent (point - 1)
  String.ofList (if negative then '-' :: magnitude else magnitude)

/-! ## Values -/

mutual

/-- The compact text of a value. -/
def write : Json → String
  | null | unusable => "null"
  | bool true => "true"
  | bool false => "false"
  | natural n => toString n
  | decimal negative digits exponent => writeDecimal negative digits exponent
  | string s => writeString s
  | array items => "[" ++ ",".intercalate (writeAll items) ++ "]"
  | object fields => "\x7b" ++ ",".intercalate (writeFields fields) ++ "\x7d"

/-- The texts of values. -/
def writeAll : List Json → List String
  | [] => []
  | v :: vs => v.write :: writeAll vs

/-- The texts of fields. -/
def writeFields : List (String × Json) → List String
  | [] => []
  | (name, v) :: fields => (writeString name ++ ":" ++ v.write) :: writeFields fields

end

end MacroAsm.Json
