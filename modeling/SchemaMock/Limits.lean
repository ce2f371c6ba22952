/-! # Limits

Bounds on the nesting of texts, trees and values, and on the search for an alternative.
-/

namespace SchemaMock

/-- The greatest depth of a tree of expressions, of a host value, and of an evaluation. -/
def maxDepth : Nat := 256

/-- The greatest nesting of brackets, operators and labels in a text. -/
def maxNesting : Nat := 64

/-- The greatest number of ways to choose one alternative from each disjunction of a value. -/
def maxCombinations : Nat := 256

end SchemaMock
