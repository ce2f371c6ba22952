/-! # Binary floating-point magnitudes

A positive finite 64-bit float is `mant · 2 ^ exp`. The reals that round to it form an interval
around it, which contains its ends when `mant` is even.
-/

namespace SchemaMock.Decimal

/-- The value `mant · 2 ^ exp`. Below a power of two the floats lie twice as close (`narrow`). -/
structure Magnitude where
  mant : Nat
  exp : Int
  narrow : Bool
deriving DecidableEq, Repr

/-- The magnitude of the 63 low bits of a finite value. -/
def Magnitude.ofBits (bits : Nat) : Magnitude :=
  let fraction : Nat := bits % (1 <<< 52)
  let biased : Nat := bits / (1 <<< 52)
  if biased = 0 then ⟨fraction, -1074, false⟩
  else ⟨(1 <<< 52) + fraction, (biased : Int) - 1075, fraction == 0 && decide (1 < biased)⟩

/-- A value and the ends of its interval, as numerators over one denominator. -/
structure Surroundings where
  low : Nat
  value : Nat
  high : Nat
  den : Nat
  closed : Bool

/-- In quarters of the last place: half a place up, and half or a quarter down. -/
def Magnitude.surroundings (x : Magnitude) : Surroundings :=
  let below := if x.narrow then 1 else 2
  let scale := 1 <<< (x.exp - 2).toNat
  ⟨(4 * x.mant - below) * scale, 4 * x.mant * scale, (4 * x.mant + 2) * scale,
    1 <<< (2 - x.exp).toNat, x.mant % 2 == 0⟩

end SchemaMock.Decimal
