import SchemaMock.Eval.Process

/-! # Queries

What may be asked of the vertex at a path.
-/

namespace SchemaMock.Eval

open Attempt

def lookup (path : Path) : Attempt Nat := do
  let v ← path.selectors.foldlM (select evaluate) Arena.root
  perform do
    let v ← settle evaluate v
    evaluate v
    return v

def faultOf (v : Nat) : Eval (Option Fault) := do
  let v ← settle evaluate v
  match (← vertex v).val with
  | .bottom f => return some (f.atPath (← view (·.pathText v)))
  | _ => return none

def kindsOf (v : Nat) : Eval Kinds := do
  return (← vertex (← settle evaluate v)).val.kinds

/-- Why the parts of a vertex cannot be listed: it is bottom, or has several alternatives. -/
def partsObstacle? (a : Arena) (v : Nat) : Option Fault :=
  let x := a.vertex v
  match x.val with
  | .bottom f => some (f.atPath (a.pathText v))
  | _ => if x.disjuncts.isEmpty then none else x.pending.getLast?.map (·.atPath (a.pathText v))

/-- The vertex that stands in for `v`, whose parts can be listed. -/
def listable (v : Nat) : Attempt Nat := do
  let v ← perform (settle evaluate v)
  match ← perform (view (partsObstacle? · v)) with
  | some f => throw f
  | none => return v

/-- The selectors of the fields of a struct, in the order of their declaration. -/
def fieldsOf (v : Nat) : Attempt (List Selector) := do
  let v ← listable v
  let x ← perform (vertex v)
  if x.val.kinds.struct then return x.fields.map fun (label, _) => .label label
  else failAt v (.noFields x.val.display)

def lengthOf (v : Nat) : Attempt Nat := do
  let v ← listable v
  let x ← perform (vertex v)
  if x.val.kinds = .ofList then return x.elems.length
  else failAt v (.notList x.val.display)

end SchemaMock.Eval
