/-! # Byte ranges of a source text

Positions count the bytes of the UTF-8 form of a text from zero.
-/

namespace SchemaMock

/-- The bytes from `start` up to but excluding `stop`. -/
structure Span where
  start : Nat
  stop : Nat
deriving DecidableEq, Repr, Inhabited

namespace Span

def origin : Span := ⟨0, 0⟩

/-- The least range that covers both. -/
def merge (a b : Span) : Span := ⟨min a.start b.start, max a.stop b.stop⟩

theorem merge_assoc (a b c : Span) : (a.merge b).merge c = a.merge (b.merge c) := by
  simp [merge, Nat.min_assoc, Nat.max_assoc]

theorem merge_self (a : Span) : a.merge a = a := by simp [merge]

end Span

end SchemaMock
