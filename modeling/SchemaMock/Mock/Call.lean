import SchemaMock.Mock

/-! # Calls

A call tries the overloads in order. Each attempt is counted before anything else is looked at. The
first overload that is within its limit, takes that many arguments, and stays concrete once they are
filled in, gives the results. An overload that cannot be read ends the call.
-/

namespace SchemaMock

inductive Verdict where
  | accepted (returns : List Value)
  | rejected (why : Rejection)
  | unreadable (fault : Fault)

namespace Overload

/-- The results of a bound overload: its `returns`, which must be a list of host values. -/
def returnsOf (bound : Value) : Except Fault (List Value) := do
  match ← (bound.lookup (.ofNames [Mock.returnsName])).toJson with
  | .arr items => (items.mapM Value.ofJson).mapError .of
  | j => throw (.of (.returnsNotList j))

def judge (o : Overload) (attempts : Nat) (args : List Value) : Verdict :=
  match o.maxCalls with
  | .error f => .unreadable f
  | .ok maxCalls =>
    if maxCalls < attempts ∧ attempts < Mock.unbounded then
      .rejected (.maxCallsExceeded maxCalls attempts)
    else match o.arity with
      | .error f => .unreadable f
      | .ok expected =>
        if expected ≠ args.length then .rejected (.argumentCount expected args.length)
        else
          let bound := o.bind args
          match bound.faults true with
          | f :: fs => .rejected (.mismatch (f :: fs))
          | [] =>
            match returnsOf bound with
            | .ok returns => .accepted returns
            | .error f => .unreadable f

end Overload

namespace MockFunction

def tryOverloads (name : String) (args : List Value) (failed : List OverloadFailure)
    (ledger : Ledger) : List Overload → Called Ledger (List Value)
  | [] => (.error (.noMatch name failed), ledger.recordUnmatched)
  | o :: rest =>
    let (attempts, ledger) := ledger.recordAttempt o.index
    match o.judge attempts args with
    | .accepted returns => (.ok returns, ledger)
    | .unreadable f => (.error (.schema name f), ledger)
    | .rejected why => tryOverloads name args (failed ++ [⟨o.index, why⟩]) ledger rest

def resolve (f : MockFunction) (ledger : Ledger) (args : List Value) : Called Ledger (List Value) :=
  tryOverloads f.name args [] ledger f.overloads

end MockFunction

namespace Mock

/-- Calls a function by name. A call that does not reach an overload counts nowhere. -/
def call (m : Mock) (name : String) (args : List Json) : Called Mock (List Value) :=
  match m.find? name with
  | none => (.error (.functionNotFound name), m)
  | some e =>
    match args.mapM Value.ofJson with
    | .error c => (.error (.encode (.arguments name) (Fault.of c).display), m)
    | .ok values =>
      let (result, ledger) := e.function.resolve e.ledger values
      (result, m.setLedger name ledger)

end Mock

end SchemaMock
