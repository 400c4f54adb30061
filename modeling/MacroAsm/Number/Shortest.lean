import MacroAsm.Number.Binary64

/-!
# The shortest decimal of a double

`Binary64.shortest?` finds the fewest decimal digits that round back to a double, and of those the
ones nearest to it; a tie goes to the even last digit. All comparisons are between exact fractions.
-/

namespace MacroAsm

/-- A positive decimal number, `digits * 10 ^ exponent`. -/
structure Decimal where
  digits : Nat
  exponent : Int
  deriving DecidableEq, Repr

namespace Binary64

/-- The exact value of a positive double and the numbers half way to its neighbours, all as
multiples of `1 / unit`. The ends round to the double too if `closed`. -/
structure RoundingInterval where
  low : Nat
  value : Nat
  high : Nat
  unit : Nat
  closed : Bool
  deriving DecidableEq, Repr

/-- The interval of the double `m * 2 ^ s * 2 ^ -1074`. Below a power of two the neighbour is
nearer, unless the numbers are subnormal there. -/
def roundingInterval (m s : Nat) : RoundingInterval :=
  let low := if m = Nat.pow 2 52 ∧ s ≠ 0 then 4 * m - 1 else 4 * m - 2
  { low := low * Nat.pow 2 s
    value := 4 * m * Nat.pow 2 s
    high := (4 * m + 2) * Nat.pow 2 s
    unit := 4 * Nat.pow 2 1074
    closed := m % 2 = 0 }

def RoundingInterval.contains (i : RoundingInterval) (n d : Nat) : Bool :=
  if i.closed then i.low * d ≤ n * i.unit ∧ n * i.unit ≤ i.high * d
  else i.low * d < n * i.unit ∧ n * i.unit < i.high * d

/-- The power of ten that is not above `n / d` while the next one is, for positive `n` and `d`. -/
def decimalExponent (n d : Nat) : Int :=
  if d ≤ n then (Nat.toDigits 10 (n / d)).length - 1
  else
    let inverse := (d + n - 1) / n
    let places : Nat := if inverse ≤ 1 then 0 else (Nat.toDigits 10 (inverse - 1)).length
    Int.negOfNat places

/-- The multiple of `10 ^ exponent` that lies in the interval and is nearest to its value. -/
def RoundingInterval.onGrid? (i : RoundingInterval) (exponent : Int) : Option Decimal :=
  let up := Nat.pow 10 exponent.toNat
  let down := Nat.pow 10 (-exponent).toNat
  let below := i.value * down / (i.unit * up)
  let isIn (k : Nat) : Bool := 0 < k ∧ i.contains (k * up) down
  let twiceRest := 2 * (i.value * down - below * i.unit * up)
  let belowFirst := twiceRest < i.unit * up ∨ (twiceRest = i.unit * up ∧ below % 2 = 0)
  let digits? :=
    match isIn below, isIn (below + 1) with
    | true, true => some (if belowFirst then below else below + 1)
    | true, false => some below
    | false, true => some (below + 1)
    | false, false => none
  digits?.map (⟨·, exponent⟩)

def carry (d : Decimal) : Decimal :=
  if d.digits % 10 = 0 then ⟨d.digits / 10, d.exponent + 1⟩ else d

/-- The first hit on the grids of `exponent`, `exponent - 1` and so on, `count` in number. -/
def RoundingInterval.coarsest? (i : RoundingInterval) (exponent : Int) : Nat → Option Decimal
  | 0 => none
  | count + 1 => (i.onGrid? exponent).or (i.coarsest? (exponent - 1) count)

/-- The shortest decimal that rounds to the magnitude of a finite double other than zero;
seventeen digits always suffice. -/
def shortest? (x : Binary64) : Option Decimal := do
  let (m, s) ← x.magnitude?
  if m = 0 then none
  else
    let i := roundingInterval m s
    (i.coarsest? (decimalExponent i.value i.unit) 17).map carry

end Binary64

end MacroAsm
