/-!
# Binary floating-point numbers

A `Binary64` is the bit pattern of an IEEE 754 double. `ofRatio` rounds an exact quotient to the
nearest one, a half to the even neighbour, and `magnitude?` gives the exact value back as a multiple
of the smallest subnormal number.
-/

namespace MacroAsm

/-- The bit pattern of an IEEE 754 double. -/
structure Binary64 where
  bits : UInt64
  deriving DecidableEq, Repr

namespace Binary64

/-- The bit pattern of positive infinity, which has the largest exponent field. -/
def infinityBits : Nat := 0x7ff * Nat.pow 2 52

/-- `n / d` to the nearest natural number, a half to the even neighbour. -/
def roundedDiv (n d : Nat) : Nat :=
  let q := n / d
  let r := n % d
  if d < 2 * r ∨ (2 * r = d ∧ q % 2 = 1) then q + 1 else q

/-- The number whose magnitude lies closest to `n / d`, for `d ≠ 0`. Every double is a
multiple `m * 2 ^ s` of `2 ^ -1074` with `m < 2 ^ 53`, and those that can share `s` follow each
other, so `s * 2 ^ 52 + m` is the bit pattern; a carry out of `m` moves on to the next exponent. -/
def ofRatio (negative : Bool) (n d : Nat) : Binary64 :=
  let guess := n.log2 + 1022 - d.log2
  let scaled := n * Nat.pow 2 1074
  let shift :=
    if n = 0 then 0
    else if 0 < guess ∧ scaled < d * Nat.pow 2 guess * Nat.pow 2 52 then guess - 1
    else guess
  let bits := min (shift * Nat.pow 2 52 + roundedDiv scaled (d * Nat.pow 2 shift)) infinityBits
  ⟨UInt64.ofNat (if negative then Nat.pow 2 63 + bits else bits)⟩

def isNegative (x : Binary64) : Bool := Nat.pow 2 63 ≤ x.bits.toNat

def magnitudeBits (x : Binary64) : Nat := x.bits.toNat % Nat.pow 2 63

def isInfinite (x : Binary64) : Bool := x.magnitudeBits == infinityBits

/-- The magnitude of a finite number as `(m, s)`, for `m * 2 ^ s` times `2 ^ -1074`. -/
def magnitude? (x : Binary64) : Option (Nat × Nat) :=
  let exponent := x.magnitudeBits / Nat.pow 2 52
  let fraction := x.magnitudeBits % Nat.pow 2 52
  if exponent = 0x7ff then none
  else if exponent = 0 then some (fraction, 0)
  else some (fraction + Nat.pow 2 52, exponent - 1)

end Binary64

end MacroAsm
