import SchemaMock.Decimal.Reading
import SchemaMock.Malformed

/-! # Literals

The values of number and string tokens. Both functions take the text that the lexer cut out.
-/

namespace SchemaMock.Literal

def natural (digits : List Char) : Nat :=
  digits.foldl (fun n c => n * 10 + (c.toNat - '0'.toNat)) 0

/-- Integers have 128 bits; underscores do not count. -/
def integer (text : List Char) : Except SourceFault Int :=
  let digits := text.filter (· != '_')
  if natural digits < 1 <<< 127 then .ok (natural digits)
  else .error (.integerRange (String.ofList digits))

/-- The float nearest to the decimal that is written. -/
def float (text : List Char) : Float :=
  let whole := text.takeWhile Char.isDigit
  let afterPoint := (text.dropWhile Char.isDigit).drop 1
  let places := afterPoint.takeWhile Char.isDigit
  let exp : Int := match (afterPoint.dropWhile Char.isDigit).drop 1 with
    | '-' :: digits => -(natural digits)
    | '+' :: digits => natural digits
    | digits => natural digits
  Decimal.nearest (natural (whole ++ places)) (exp - places.length)

def hexDigit? (c : Char) : Option Nat :=
  if c.isDigit then some (c.toNat - '0'.toNat)
  else if 'a' ≤ c ∧ c ≤ 'f' then some (c.toNat - 'a'.toNat + 10)
  else if 'A' ≤ c ∧ c ≤ 'F' then some (c.toNat - 'A'.toNat + 10)
  else none

def hexNumber? (digits : List Char) : Option Nat :=
  if digits.isEmpty then none
  else digits.foldlM (fun n c => (hexDigit? c).map (n * 16 + ·)) 0

/-- The character of a code point in hexadecimal, which may carry a plus sign. -/
def codePoint? (digits : List Char) : Option Char := do
  let n ← match digits with
    | '+' :: rest => hexNumber? rest
    | _ => hexNumber? digits
  if n.isValidChar then some (Char.ofNat n) else none

/-- The text of a string between its quotes, with escapes resolved. A Unicode escape takes up to
four characters. -/
def unescape : List Char → Except SourceFault (List Char)
  | [] => .ok []
  | '\\' :: 'u' :: cs =>
    let digits := cs.take 4
    match codePoint? digits with
    | some c => (c :: ·) <$> unescape (cs.drop 4)
    | none => .error (.unicodeEscape (String.ofList digits))
  | '\\' :: 'n' :: cs => ('\n' :: ·) <$> unescape cs
  | '\\' :: 't' :: cs => ('\t' :: ·) <$> unescape cs
  | '\\' :: 'r' :: cs => ('\r' :: ·) <$> unescape cs
  | '\\' :: '"' :: cs => ('"' :: ·) <$> unescape cs
  | '\\' :: '\\' :: cs => ('\\' :: ·) <$> unescape cs
  | '\\' :: '/' :: cs => ('/' :: ·) <$> unescape cs
  | '\\' :: c :: _ => .error (.unknownEscape (String.singleton c))
  | ['\\'] => .error (.unknownEscape "")
  | c :: cs => (c :: ·) <$> unescape cs
termination_by cs => cs.length
decreasing_by all_goals simp [List.length_drop] <;> omega

def unquote (text : List Char) : Except SourceFault String :=
  String.ofList <$> unescape (text.drop 1).dropLast

end SchemaMock.Literal
