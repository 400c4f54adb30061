import MacroAsm.Text.Printable

/-!
# Backslash escapes

How characters are written inside quotes. `quoted` shows a text the way a printed string literal
does, `shown` names one character in a message, and `unescaped` reads the escapes of a string
literal as it stands in a source line.
-/

namespace MacroAsm.Text

/-- The letter that stands after a backslash for a character that is always escaped. -/
def escapeLetter : Char → Option Char
  | '\t' => some 't'
  | '\r' => some 'r'
  | '\n' => some 'n'
  | '\'' => some '\''
  | '"' => some '"'
  | '\\' => some '\\'
  | _ => none

/-- A character by its code point in hexadecimal, between braces. -/
def codePointEscape (c : Char) : List Char :=
  ['\\', 'u', '{'] ++ Nat.toDigits 16 c.toNat ++ ['}']

/-! ## Quoted texts -/

/-- A character of a quoted text after the first. -/
def quotedChar (c : Char) : List Char :=
  match escapeLetter c with
  | some letter => ['\\', letter]
  | none =>
    if c = '\x00' then ['\\', '0']
    else if isPrintable c then [c]
    else codePointEscape c

/-- The first character of a quoted text: one that extends its predecessor has none there, so it
is written by its code point. -/
def quotedFirstChar (c : Char) : List Char :=
  if extendsGrapheme c then codePointEscape c else quotedChar c

def quotedChars : List Char → List Char
  | [] => []
  | c :: cs => quotedFirstChar c ++ cs.flatMap quotedChar

/-- A text in double quotes. -/
def quoted (s : String) : String :=
  String.ofList ('"' :: quotedChars s.toList ++ ['"'])

/-! ## Characters in messages -/

/-- One character as a message shows it: ASCII, anything else by its code point. -/
def shown (c : Char) : List Char :=
  match escapeLetter c with
  | some letter => ['\\', letter]
  | none => if 0x20 ≤ c.toNat ∧ c.toNat < 0x7f then [c] else codePointEscape c

/-! ## Reading escapes -/

/-- The character that an escape letter stands for in a source line. -/
def escapedChar : Char → Option Char
  | '\\' => some '\\'
  | '\'' => some '\''
  | '"' => some '"'
  | 'n' => some '\n'
  | 't' => some '\t'
  | 'r' => some '\r'
  | '0' => some '\x00'
  | _ => none

/-- Reads the escapes of `cs` after the characters `done`, which are in reverse. -/
def unescapedOnto (done : List Char) : List Char → List Char
  | '\\' :: letter :: cs =>
    match escapedChar letter with
    | some c => unescapedOnto (c :: done) cs
    | none => unescapedOnto (letter :: '\\' :: done) cs
  | c :: cs => unescapedOnto (c :: done) cs
  | [] => done.reverse

/-- The text that the contents of a string literal stand for. A backslash before a letter that is
no escape, or at the end, stands for itself. -/
def unescaped (cs : List Char) : String := String.ofList (unescapedOnto [] cs)

/-! ## Laws -/

theorem quotedChar_of_ascii {c : Char} (h : escapeLetter c = none) (h₁ : 0x20 ≤ c.toNat)
    (h₂ : c.toNat < 0x7f) : quotedChar c = [c] := by
  have h0 : c ≠ '\x00' := by rintro rfl; exact absurd h₁ (by decide)
  simp [quotedChar, h, h0, isPrintable_of_ascii h₁ h₂]

end MacroAsm.Text
