import SchemaMock.Text.CharSet

/-! # Blank characters

The property White_Space, by which the text between brackets is trimmed.
-/

namespace SchemaMock.Text

/-- The property White_Space. -/
def whiteSpace : CharSet where
  ranges := [(0x9, 0xd), (0x20, 0x20), (0x85, 0x85), (0xa0, 0xa0), (0x1680, 0x1680),
    (0x2000, 0x200a), (0x2028, 0x2029), (0x202f, 0x202f), (0x205f, 0x205f), (0x3000, 0x3000)]

def isBlank (c : Char) : Bool := whiteSpace.contains c

def trim (cs : List Char) : List Char :=
  ((cs.dropWhile isBlank).reverse.dropWhile isBlank).reverse

end SchemaMock.Text
