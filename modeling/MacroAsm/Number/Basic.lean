import MacroAsm.Number.Binary64

/-!
# Numeric literals

What a numeral in a source line stands for: a `Value`, the narrowest `Width` that stores it, and
the reasons (`NumeralFault`) for which a numeral is refused. Literals are never negative, as a sign
is an operator.
-/

namespace MacroAsm

/-- The value of a numeric literal. -/
inductive Value where
  | integer (n : UInt64)
  | float (x : Binary64)
  deriving DecidableEq, Repr

/-- The storage class of a numeric literal. -/
inductive Width where
  | float
  | u8
  | u16
  | u32
  | u64
  deriving DecidableEq, Repr

namespace Width

/-- The narrowest integer class that holds `n`. -/
def ofInteger (n : UInt64) : Width :=
  if n.toNat < Nat.pow 2 8 then u8
  else if n.toNat < Nat.pow 2 16 then u16
  else if n.toNat < Nat.pow 2 32 then u32
  else u64

def name : Width → String
  | float => "Float"
  | u8 => "U8"
  | u16 => "U16"
  | u32 => "U32"
  | u64 => "U64"

def all : List Width := [float, u8, u16, u32, u64]

end Width

/-- Why a numeral is refused. -/
inductive NumeralFault where
  /-- There is no digit. -/
  | empty
  /-- A character is no digit in the radix of the numeral. -/
  | badDigit (digit : Char) (radix : Nat)
  /-- The value needs more than 64 bits. -/
  | overflow
  /-- The digits and points do not form a decimal fraction. -/
  | badFloat
  deriving DecidableEq, Repr

def NumeralFault.message : NumeralFault → String
  | empty => "expected digits"
  | badDigit digit radix => s!"'{digit}' is not a base-{radix} digit"
  | overflow => "value does not fit in 64 bits"
  | badFloat => "malformed floating-point literal"

/-- A way to read numerals. -/
abbrev NumeralReader : Type := String → Except NumeralFault (Value × Width)

/-- A numeric literal: how it is written and what it stands for. -/
structure Numeral where
  text : String
  value : Value
  width : Width
  deriving DecidableEq, Repr

end MacroAsm
