import SchemaMock.Decimal.Binary

/-! # The fewest digits that read back

Among the decimals that round to a float, the one with the fewest digits is written; of two such
the nearer, and a tie goes by a rule of the format.
-/

namespace SchemaMock.Decimal

/-- The value `digits · 10 ^ exp`. -/
structure Digits where
  digits : Nat
  exp : Int
deriving DecidableEq, Repr

inductive Tie where
  | up
  | toEven
deriving DecidableEq, Repr

/-- The fraction `digits · 10 ^ exp` over the denominator of `s`, both sides scaled to whole
numbers. -/
def Surroundings.contains (s : Surroundings) (d : Digits) : Bool :=
  let up := Nat.pow 10 d.exp.toNat
  let down := Nat.pow 10 (-d.exp).toNat
  let here := d.digits * up * s.den
  if s.closed then decide (s.low * down ≤ here) && decide (here ≤ s.high * down)
  else decide (s.low * down < here) && decide (here < s.high * down)

def countDigits (n : Nat) : Nat := if n = 0 then 0 else (Nat.toDigits 10 n).length

/-- The `k` with `10 ^ (k - 1) ≤ value < 10 ^ k`. -/
def Surroundings.magnitude (s : Surroundings) : Int :=
  if s.den ≤ s.value then countDigits (s.value / s.den)
  else 1 - (countDigits ((s.den + s.value - 1) / s.value - 1) : Int)

/-- The point of the grid `10 ^ exp` that stands for the value: one of its two neighbours there. -/
def Surroundings.onGrid (s : Surroundings) (tie : Tie) (exp : Int) : Option Digits :=
  let num := s.value * Nat.pow 10 (-exp).toNat
  let unit := s.den * Nat.pow 10 exp.toNat
  let down := num / unit
  let lower : Digits := ⟨down, exp⟩
  let upper : Digits := ⟨down + 1, exp⟩
  match s.contains lower, s.contains upper with
  | true, true =>
    let twice := 2 * num
    let middle := (2 * down + 1) * unit
    if twice < middle then some lower
    else if middle < twice then some upper
    else match tie with
      | .up => some upper
      | .toEven => some (if down % 2 = 0 then lower else upper)
  | true, false => some lower
  | false, true => some upper
  | false, false => none

/-- Seventeen digits tell any two floats apart, so some grid has a hit. -/
def Magnitude.shortest (x : Magnitude) (tie : Tie) : Digits :=
  let s := x.surroundings
  let k := s.magnitude
  ((List.range 17).findSome? fun (n : Nat) => s.onGrid tie (k - (n + 1))).getD ⟨0, 0⟩

end SchemaMock.Decimal
