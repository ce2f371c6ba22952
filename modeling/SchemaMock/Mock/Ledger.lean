/-! # Call accounting

A ledger counts for one function how often each overload was attempted, and how many calls no
overload accepted. Counts have 64 bits and stay at the greatest.
-/

namespace SchemaMock

structure Ledger where
  attempts : List Nat
  unmatched : Nat
deriving DecidableEq, Repr, Inhabited

namespace Ledger

def saturatingSucc (n : Nat) : Nat := min (n + 1) (1 <<< 64 - 1)

def ofOverloads (n : Nat) : Ledger := ⟨List.replicate n 0, 0⟩

def overloads (l : Ledger) : Nat := l.attempts.length

/-- Zero for an overload that there is not. -/
def attemptsAt (l : Ledger) (index : Nat) : Nat := l.attempts.getD index 0

/-- Counts an attempt; the result is the number of attempts with it. -/
def recordAttempt (l : Ledger) (index : Nat) : Nat × Ledger :=
  (saturatingSucc (l.attemptsAt index), { l with attempts := l.attempts.modify index saturatingSucc })

def recordUnmatched (l : Ledger) : Ledger := { l with unmatched := saturatingSucc l.unmatched }

theorem overloads_ofOverloads (n : Nat) : (ofOverloads n).overloads = n := by
  simp [ofOverloads, overloads]

theorem overloads_recordAttempt (l : Ledger) (index : Nat) :
    (l.recordAttempt index).2.overloads = l.overloads := by
  simp [recordAttempt, overloads]

theorem overloads_recordUnmatched (l : Ledger) : l.recordUnmatched.overloads = l.overloads := rfl

end Ledger

end SchemaMock
