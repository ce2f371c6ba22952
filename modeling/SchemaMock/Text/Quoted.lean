import SchemaMock.Text.GraphemeExtend
import SchemaMock.Text.Printable

/-! # Quoted text in messages

A text in a message stands between double quotes. Characters that a reader would not see as
themselves are escaped: controls and separators, and marks that would attach to the character
before them.
-/

namespace SchemaMock.Text

/-- The code point in lower-case hexadecimal between braces. -/
def hexEscape (c : Char) : List Char :=
  ['\\', 'u', '\x7b'] ++ Nat.toDigits 16 c.toNat ++ ['\x7d']

def escapeChar (c : Char) : List Char :=
  match c with
  | '\x00' => ['\\', '0']
  | '\t' => ['\\', 't']
  | '\r' => ['\\', 'r']
  | '\n' => ['\\', 'n']
  | '"' => ['\\', '"']
  | '\\' => ['\\', '\\']
  | c => if extendsGrapheme c || !isPrintable c then hexEscape c else [c]

def quote (s : String) : String :=
  String.ofList ('"' :: s.toList.flatMap escapeChar ++ ['"'])

end SchemaMock.Text
