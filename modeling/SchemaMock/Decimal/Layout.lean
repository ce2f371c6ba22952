import SchemaMock.Decimal.Shortest

/-! # Writing a float

A layout fixes what the shortest digits leave open: where positional writing ends, whether a whole
number shows a point, and which way a tie goes.
-/

namespace SchemaMock.Decimal

/-- Positional writing for the scientific exponents from `least` to `greatest`; outside of them the
exponent is written with its sign. -/
structure Bounds where
  least : Int
  greatest : Int

structure Layout where
  /-- Without a range every value is written positionally. -/
  positional : Option Bounds
  /-- Whole numbers end in `.0`. -/
  wholePoint : Bool
  tie : Tie

def zeros (n : Nat) : List Char := List.replicate n '0'

/-- Writes digits of which `point` stand before the point. -/
def Layout.writePositional (l : Layout) (ds : List Char) (point : Int) : List Char :=
  if point ≤ 0 then ['0', '.'] ++ zeros (-point).toNat ++ ds
  else if (ds.length : Int) ≤ point then
    ds ++ zeros (point.toNat - ds.length) ++ (if l.wholePoint then ['.', '0'] else [])
  else ds.take point.toNat ++ '.' :: ds.drop point.toNat

def writeExponent (ds : List Char) (exp : Int) : List Char :=
  let fraction := match ds.drop 1 with
    | [] => []
    | rest => '.' :: rest
  let sign := if exp < 0 then '-' else '+'
  ds.take 1 ++ fraction ++ 'e' :: sign :: Nat.toDigits 10 exp.natAbs

/-- Digits without trailing zeros; a rounded-up last digit may have left some. -/
def Digits.text (d : Digits) : List Char :=
  ((Nat.toDigits 10 d.digits).reverse.dropWhile (· == '0')).reverse

def Layout.writeMagnitude (l : Layout) (x : Magnitude) : List Char :=
  let d := x.shortest l.tie
  let point : Int := (Nat.toDigits 10 d.digits).length + d.exp
  match l.positional with
  | none => l.writePositional d.text point
  | some b =>
    if b.least ≤ point - 1 && point - 1 ≤ b.greatest then l.writePositional d.text point
    else writeExponent d.text (point - 1)

/-- The text of a float: sign, then the words for what is not a finite number, then the digits. -/
def Layout.write (l : Layout) (x : Float) : String :=
  if x.isNaN then "NaN"
  else
    let bits := x.toBits.toNat
    let sign := if 1 <<< 63 ≤ bits then ['-'] else []
    let low := bits % (1 <<< 63)
    let body :=
      if x.isInf then ['i', 'n', 'f']
      else if low = 0 then (if l.wholePoint then ['0', '.', '0'] else ['0'])
      else l.writeMagnitude (Magnitude.ofBits low)
    String.ofList (sign ++ body)

end SchemaMock.Decimal
