/-! # Reading decimals as floats

Two rules are in use: rounding the exact decimal once, and scaling a 64-bit whole number by a power
of ten, which rounds at each step.
-/

namespace SchemaMock.Decimal

/-- The float nearest to `digits · 10 ^ exp`. Beyond four hundred places the result is infinite or
zero whatever the digits are. -/
def nearest (digits : Nat) (exp : Int) : Float :=
  if digits = 0 then 0
  else
    let places : Int := (Nat.toDigits 10 digits).length + exp
    if 400 < places then Float.ofBits 0x7ff0000000000000
    else if places < -400 then 0
    else Float.ofScientific digits (decide (exp < 0)) exp.natAbs

/-- The float nearest to `10 ^ n`. -/
def powerOfTen (n : Nat) : Float := nearest 1 n

/-- The float nearest to `digits`, multiplied or divided by powers of ten of at most 308 places;
`none` when it leaves the finite range. -/
def scaled (digits : Nat) (exp : Int) : Option Float :=
  go 4 (nearest digits 0) exp
where
  go : Nat → Float → Int → Option Float
    | 0, x, _ => some x
    | fuel + 1, x, e =>
      if e.natAbs ≤ 308 then
        if 0 ≤ e then
          let y := x * powerOfTen e.natAbs
          if y.isInf then none else some y
        else some (x / powerOfTen e.natAbs)
      else if x == 0 then some x
      else if 0 ≤ e then none
      else go fuel (x / powerOfTen 308) (e + 308)

end SchemaMock.Decimal
