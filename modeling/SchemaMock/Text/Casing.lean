import SchemaMock.Text.CaseData

/-! # Upper and lower case

The full mappings of the standard: one character may become several, and a capital sigma at the
end of a word becomes the final sigma.
-/

namespace SchemaMock.Text

def CaseRun.covers (r : CaseRun) (n : Nat) : Bool :=
  r.first ≤ n && n ≤ r.last && (n - r.first) % r.step == 0

/-- The mapping of one character, itself where the table is silent. -/
def CaseTable.map (t : CaseTable) (c : Char) : List Char :=
  match t.special.find? (·.1 == c.toNat) with
  | some (_, image) => image.map Char.ofNat
  | none =>
    match t.runs.find? (·.covers c.toNat) with
    | some r => [Char.ofNat (c.toNat + r.shift).toNat]
    | none => [c]

def upperChar (c : Char) : List Char :=
  if c.toNat < 0x80 then [c.toUpper] else upperTable.map c

def lowerChar (c : Char) : List Char :=
  if c.toNat < 0x80 then [c.toLower] else lowerTable.map c

/-- The first character that is not ignorable is a cased one. -/
def startsCased (cs : List Char) : Bool :=
  match cs.dropWhile caseIgnorable.contains with
  | [] => false
  | c :: _ => cased.contains c

/-- Whether a sigma ends a word; `before` runs backwards from it. -/
def endsWord (before after : List Char) : Bool := startsCased before && !startsCased after

def lowerFrom (before : List Char) : List Char → List Char
  | [] => []
  | c :: cs =>
    let image := if c = 'Σ' then [if endsWord before cs then 'ς' else 'σ'] else lowerChar c
    image ++ lowerFrom (c :: before) cs

def upper (s : String) : String := String.ofList (s.toList.flatMap upperChar)

def lower (s : String) : String := String.ofList (lowerFrom [] s.toList)

end SchemaMock.Text
