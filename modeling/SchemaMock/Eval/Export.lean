import SchemaMock.Arena
import SchemaMock.Expr.Host

/-! # Validation and export

Both walk down a value and process the vertices they meet. `process` stands for processing one
vertex at the depth at hand.
-/

namespace SchemaMock

/-- Why a vertex has no concrete value, where that is known before its parts are looked at. -/
def Arena.obstacle? (a : Arena) (v : Nat) : Option Fault :=
  let x := a.vertex v
  if x.stage = .processing then some (.of (.cyclicReference (a.pathText v)))
  else match x.val with
    | .bottom f => some (f.atPath (a.pathText v))
    | _ => x.pending.head?.map (·.atPath (a.pathText v))

namespace Eval

open Attempt

variable (process : Nat → Eval Unit)

/-- Processes a vertex and gives the one that stands in for it. -/
def settle (v : Nat) : Eval Nat := do
  process v
  view (·.follow v)

def failAt {α : Type} (v : Nat) (c : Cause) : Attempt α := do
  let path ← perform (view (·.pathText v))
  throw ((Fault.of c).atPath path)

/-- The host value of a vertex; `left` more levels may be opened. Only regular fields are part
of it. -/
def exportAt : Nat → Nat → Attempt Json
  | 0, _ => refuse .valueDepth
  | left + 1, v => do
    let v ← perform (settle process v)
    match ← perform (view (·.obstacle? v)) with
    | some f => throw f
    | none =>
      let x ← perform (vertex v)
      match x.val with
      | .atom s =>
        match s.toJson with
        | .ok j => return j
        | .error c => failAt v c
      | val =>
        if val.kinds = .ofStruct then
          let fields ← (x.fields.filter (·.1.isRegular)).mapM fun (label, w) => do
            return (label.display, ← exportAt left w)
          return Json.ofFields fields
        else if val.kinds = .ofList then return .arr (← x.elems.mapM (exportAt left))
        else failAt v (.incompleteValue val.display)

def exportVertex (v : Nat) : Attempt Json := exportAt process (maxDepth + 1) v

/-- The faults below a vertex. When `concrete`, those of values that are not yet concrete count
too, outside of definitions and hidden fields. -/
def faultsAt : Nat → Bool → Nat → Eval (List Fault)
  | 0, _, _ => return [.of .valueDepth]
  | left + 1, concrete, v => do
    let v ← settle process v
    let x ← vertex v
    let path ← view (·.pathText v)
    match x.val with
    | .bottom f => return [f.atPath path]
    | val =>
      if !x.pending.isEmpty then
        return if concrete then x.pending.map (·.atPath path) else []
      else if val.kinds = .ofStruct then
        let below ← x.fields.mapM fun (label, w) =>
          faultsAt left (concrete && label.isRegular) w
        return below.flatten
      else if val.kinds = .ofList then
        return (← x.elems.mapM (faultsAt left concrete)).flatten
      else match val with
        | .constraint _ =>
          return if concrete then [(Fault.of (.incompleteValue val.display)).atPath path] else []
        | _ => return []

def faults (concrete : Bool) (v : Nat) : Eval (List Fault) :=
  faultsAt process (maxDepth + 1) concrete v

end Eval

end SchemaMock
