import SchemaMock.Decimal.Reading
import SchemaMock.Json.Basic

/-! # Reading host values

A number literal without point and exponent is an integer when it fits 64 bits. The digits of any
other number are gathered while they fit 64 bits and then scaled by a power of ten.
-/

namespace SchemaMock.Json.Reader

/-- A value read off the front of a text, and the rest. -/
abbrev Read (α : Type) := Option (α × List Char)

def skipBlanks (cs : List Char) : List Char :=
  cs.dropWhile fun c => c == ' ' || c == '\n' || c == '\t' || c == '\r'

def digitValue (c : Char) : Nat := c.toNat - '0'.toNat

def hexValue? (c : Char) : Option Nat :=
  if c.isDigit then some (digitValue c)
  else if 'a' ≤ c ∧ c ≤ 'f' then some (c.toNat - 'a'.toNat + 10)
  else if 'A' ≤ c ∧ c ≤ 'F' then some (c.toNat - 'A'.toNat + 10)
  else none

def hexQuad? (a b c d : Char) : Option Nat := do
  return (((← hexValue? a) * 16 + (← hexValue? b)) * 16 + (← hexValue? c)) * 16 + (← hexValue? d)

def simpleEscape? : Char → Option Char
  | '"' => some '"'
  | '\\' => some '\\'
  | '/' => some '/'
  | 'b' => some '\x08'
  | 'f' => some '\x0c'
  | 'n' => some '\n'
  | 'r' => some '\r'
  | 't' => some '\t'
  | _ => none

/-- The rest of a string after its opening quote. `high` holds the first half of a surrogate pair,
which the second half has to follow at once. -/
def stringBody (high : Option Nat) : List Char → Read (List Char)
  | [] => none
  | '"' :: rest => if high.isSome then none else some ([], rest)
  | '\\' :: 'u' :: a :: b :: c :: d :: rest =>
    match hexQuad? a b c d, high with
    | none, _ => none
    | some n, some h =>
      if 0xDC00 ≤ n ∧ n ≤ 0xDFFF then
        (stringBody none rest).map fun (text, rest) =>
          (Char.ofNat (0x10000 + (h - 0xD800) * 0x400 + (n - 0xDC00)) :: text, rest)
      else none
    | some n, none =>
      if 0xD800 ≤ n ∧ n ≤ 0xDBFF then stringBody (some n) rest
      else if 0xDC00 ≤ n ∧ n ≤ 0xDFFF then none
      else (stringBody none rest).map fun (text, rest) => (Char.ofNat n :: text, rest)
  | '\\' :: e :: rest =>
    if high.isSome then none
    else match simpleEscape? e with
      | none => none
      | some c => (stringBody none rest).map fun (text, rest) => (c :: text, rest)
  | c :: rest =>
    if high.isSome ∨ c.toNat < 0x20 ∨ c = '\\' then none
    else (stringBody none rest).map fun (text, rest) => (c :: text, rest)

/-- Digits gathered so far, and how many came after they no longer fit 64 bits. -/
structure Gathered where
  value : Nat
  joined : Nat
  dropped : Nat

def Gathered.add (g : Gathered) (d : Nat) : Gathered :=
  if g.dropped = 0 ∧ g.value * 10 + d < 1 <<< 64 then
    { g with value := g.value * 10 + d, joined := g.joined + 1 }
  else { g with dropped := g.dropped + 1 }

def gather (value : Nat) (digits : List Char) : Gathered :=
  digits.foldl (fun g c => g.add (digitValue c)) ⟨value, 0, 0⟩

/-- An exponent with its mark, if one stands here. -/
def exponent? (cs : List Char) : Read (Option Int) :=
  match cs with
  | c :: rest =>
    if c = 'e' ∨ c = 'E' then
      let (negative, rest) := match rest with
        | '-' :: r => (true, r)
        | '+' :: r => (false, r)
        | r => (false, r)
      let digits := rest.takeWhile Char.isDigit
      if digits.isEmpty then none
      else
        let n : Int := digits.foldl (fun n c => n * 10 + digitValue c) (0 : Nat)
        some (some (if negative then -n else n), rest.dropWhile Char.isDigit)
    else some (none, cs)
  | [] => some (none, [])

/-- A number literal without its sign: `value · 10 ^ exp`, and whether it is written as an
integer. -/
structure Literal where
  value : Nat
  exp : Int
  whole : Bool

def unsigned (cs : List Char) : Read Literal :=
  let digits := cs.takeWhile Char.isDigit
  let whole := gather 0 digits
  if digits.isEmpty ∨ (digits.length > 1 ∧ digits.head? = some '0') then none
  else
    match cs.dropWhile Char.isDigit with
    | '.' :: rest =>
      let places := rest.takeWhile Char.isDigit
      let all := gather whole.value places
      if places.isEmpty then none
      else (exponent? (rest.dropWhile Char.isDigit)).map fun (mark, rest) =>
        (⟨all.value, (whole.dropped : Int) - all.joined + mark.getD 0, false⟩, rest)
    | rest => (exponent? rest).map fun (mark, rest) =>
        (⟨whole.value, (whole.dropped : Int) + mark.getD 0, mark.isNone && whole.dropped == 0⟩,
          rest)

/-- A negative integer below the 64-bit range is a float, and so is the negative zero. -/
def Literal.toJson? (l : Literal) (negative : Bool) : Option Json :=
  if l.whole && !negative then some (.int l.value)
  else if l.whole && 0 < l.value && l.value ≤ 1 <<< 63 then some (.int (-l.value))
  else (Decimal.scaled l.value l.exp).map fun x => .float (if negative then -x else x)

def number (cs : List Char) : Read Json :=
  let (negative, cs) := match cs with
    | '-' :: r => (true, r)
    | r => (false, r)
  match unsigned cs with
  | none => none
  | some (l, rest) => (l.toJson? negative).map fun j => (j, rest)

/-- One level further down, if the limit allows it. -/
def deeper : Option Nat → Option (Option Nat)
  | none => some none
  | some n => if n ≤ 1 then none else some (some (n - 1))

mutual

/-- A value; `fuel` bounds the nesting and the number of parts, so the length of the text
suffices. -/
def value : Nat → Option Nat → List Char → Read Json
  | 0, _, _ => none
  | fuel + 1, limit, cs =>
    match skipBlanks cs with
    | 'n' :: 'u' :: 'l' :: 'l' :: rest => some (.null, rest)
    | 't' :: 'r' :: 'u' :: 'e' :: rest => some (.bool true, rest)
    | 'f' :: 'a' :: 'l' :: 's' :: 'e' :: rest => some (.bool false, rest)
    | '"' :: rest =>
      (stringBody none rest).map fun (text, rest) => (.str (String.ofList text), rest)
    | '[' :: rest =>
      match deeper limit with
      | none => none
      | some limit =>
        match skipBlanks rest with
        | ']' :: rest => some (.arr [], rest)
        | rest => (items fuel limit rest).map fun (js, rest) => (.arr js, rest)
    | '\x7b' :: rest =>
      match deeper limit with
      | none => none
      | some limit =>
        match skipBlanks rest with
        | '\x7d' :: rest => some (.obj [], rest)
        | rest => (members fuel limit rest).map fun (fs, rest) => (ofFields fs, rest)
    | cs => number cs

/-- The items of an array up to its closing bracket. -/
def items : Nat → Option Nat → List Char → Read (List Json)
  | 0, _, _ => none
  | fuel + 1, limit, cs =>
    match value fuel limit cs with
    | none => none
    | some (j, rest) =>
      match skipBlanks rest with
      | ',' :: rest => (items fuel limit rest).map fun (js, rest) => (j :: js, rest)
      | ']' :: rest => some ([j], rest)
      | _ => none

/-- The fields of an object up to its closing brace. -/
def members : Nat → Option Nat → List Char → Read (List (String × Json))
  | 0, _, _ => none
  | fuel + 1, limit, cs =>
    match skipBlanks cs with
    | '"' :: rest =>
      match stringBody none rest with
      | none => none
      | some (name, rest) =>
        match skipBlanks rest with
        | ':' :: rest =>
          match value fuel limit rest with
          | none => none
          | some (j, rest) =>
            let field := (String.ofList name, j)
            match skipBlanks rest with
            | ',' :: rest => (members fuel limit rest).map fun (fs, rest) => (field :: fs, rest)
            | '\x7d' :: rest => some ([field], rest)
            | _ => none
        | _ => none
    | _ => none

end

end SchemaMock.Json.Reader

namespace SchemaMock.Json

/-- The value of a text that holds one value and blanks. With a limit `n`, arrays and objects may
nest at most `n - 1` levels. -/
def parse? (limit : Option Nat) (s : String) : Option Json :=
  let cs := s.toList
  match Reader.value (2 * cs.length + 2) limit cs with
  | some (j, rest) => if (Reader.skipBlanks rest).isEmpty then some j else none
  | none => none

end SchemaMock.Json
