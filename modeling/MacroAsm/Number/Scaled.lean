import MacroAsm.Number.Binary64

/-!
# Doubles times powers of ten

`Binary64.ofScaled?` turns `digits * 10 ^ exponent` into a double by arithmetic on doubles: the
digits are rounded first, and then multiplied with or divided by a rounded power of ten, with the
result rounded once more. It is the nearest double as long as digits and power are exact, which
digits below `2 ^ 53` and powers up to `10 ^ 22` are; beyond them it can be a neighbour.
-/

namespace MacroAsm.Binary64

/-- The magnitude of a finite double as a multiple of the smallest subnormal number. -/
def units (x : Binary64) : Nat :=
  match x.magnitude? with
  | some (m, s) => m * Nat.pow 2 s
  | none => 0

def ofNat (n : Nat) : Binary64 := ofRatio false n 1

def product (x y : Binary64) : Binary64 := ofRatio false (x.units * y.units) (Nat.pow 2 1074 * Nat.pow 2 1074)

def quotient (x y : Binary64) : Binary64 := ofRatio false x.units y.units

/-- The exponent of the greatest power of ten that is finite. -/
def greatestTen : Nat := 308

def tenTo (n : Nat) : Binary64 := ofNat (Nat.pow 10 n)

/-- A double divided by a power of ten, in several steps if the power is not finite. -/
def overTenTo (x : Binary64) (n : Nat) : Binary64 :=
  if x.units = 0 then x
  else if n ≤ greatestTen then x.quotient (tenTo n)
  else (x.quotient (tenTo greatestTen)).overTenTo (n - greatestTen)
termination_by n
decreasing_by simp only [greatestTen] at *; omega

/-- A double multiplied with a power of ten, if both the power and the product are finite. -/
def timesTenTo? (x : Binary64) (n : Nat) : Option Binary64 :=
  if x.units = 0 then some x
  else if n ≤ greatestTen then
    let result := x.product (tenTo n)
    if result.isInfinite then none else some result
  else none

def signed (negative : Bool) (x : Binary64) : Binary64 :=
  ⟨UInt64.ofNat (if negative then Nat.pow 2 63 + x.magnitudeBits else x.magnitudeBits)⟩

/-- The double that `digits * 10 ^ exponent` is worked out to, unless that is beyond all finite
numbers. -/
def ofScaled? (negative : Bool) (digits : Nat) (exponent : Int) : Option Binary64 :=
  let x := ofNat digits
  let scaled? :=
    if 0 ≤ exponent then x.timesTenTo? exponent.toNat else some (x.overTenTo (-exponent).toNat)
  scaled?.map (signed negative)

end MacroAsm.Binary64
