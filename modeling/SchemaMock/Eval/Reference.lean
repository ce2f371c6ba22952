import SchemaMock.Builtin.Call
import SchemaMock.Eval.Export

/-! # References and scalar expressions

Names are looked up in the scope of a conjunct outwards, then among the fields of the root, the
type names, the functions and the imported packages.
-/

namespace SchemaMock

inductive Resolved where
  | vertex (v : Nat)
  | val (x : Val)
  | builtin (f : Builtin)
  | package (name : String)

def Decl.declares (label : Label) : Decl → Bool
  | .field l _ _ => l = label
  | _ => false

namespace Arena

def lookupOutermost (a : Arena) (name : String) (imports : List String) : Except Cause Resolved :=
  match (a.vertex (a.follow root)).arc? (Label.ofIdent name.toList) with
  | some arc => .ok (.vertex arc.vertex)
  | none =>
    match Constraint.ofTypeName? name, Builtin.function? name with
    | some c, _ => .ok (.val (.constraint c))
    | none, some f => .ok (.builtin f)
    | none, none =>
      if Builtin.isPackage name && imports.contains name then .ok (.package name)
      else .error (.unknownName name)

/-- What a name stands for in a scope. The scope around a struct has a lower number, so there are
fewer steps than scopes. -/
def lookupName (a : Arena) (name : String) (scope : Nat) : Except Cause Resolved :=
  go a.scopes.size scope
where
  go : Nat → Nat → Except Cause Resolved
    | 0, _ => .error (.unknownName name)
    | n + 1, s =>
      match a.scope s with
      | .root imports => a.lookupOutermost name imports
      | .struct parent decls v =>
        let label := Label.ofIdent name.toList
        if decls.any (Decl.declares label) then
          match (a.vertex (a.follow v)).arc? label with
          | some arc => .ok (.vertex arc.vertex)
          | none => .error (.cyclicReference label.display)
        else go n parent

/-- Why a vertex without alternatives has no such part. -/
def missing (a : Arena) (v : Nat) (s : Selector) : Fault :=
  let x := a.vertex v
  match x.val with
  | .bottom f => f
  | val =>
    if x.stage = .processing then .of (.cyclicReference (a.pathText v))
    else match s with
      | .index n =>
        if val.kinds = .ofList ∧ x.openList = false then .of (.indexRange n x.elems.length)
        else .of (.indexIntoOpen val.display n)
      | .label _ =>
        if x.groups.isEmpty then .of (.undefinedField s) else .of (.undefinedFieldOfClosed s)

end Arena

namespace Eval

open Attempt

variable (process : Nat → Eval Unit)

def select (v : Nat) (s : Selector) : Attempt Nat := do
  let v ← perform (settle process v)
  perform (process v)
  let x ← perform (vertex v)
  if !x.disjuncts.isEmpty then refuse (.selectFromAlternatives s)
  else match x.part? s with
    | some w => return w
    | none => throw (← perform (view (·.missing v s)))

def selectLabel (r : Resolved) (label : Label) : Attempt Resolved :=
  match r with
  | .vertex v => return .vertex (← select process v (.label label))
  | .package name =>
    match Builtin.member? name label.display with
    | some f => return .builtin f
    | none => refuse (.undefinedMember name label.display)
  | _ => refuse (.selectFromScalar label)

/-- Lists are indexed by integers of 64 bits and structs by strings. -/
def positionOf (position : Scalar) : Except Cause Selector :=
  match position with
  | .int i =>
    if 0 ≤ i ∧ i < (1 <<< 64 : Nat) then .ok (.index i.toNat)
    else .error (.invalidIndex (toString i))
  | .str name => .ok (.label (.regular name))
  | x => .error (.invalidIndex x.display)

def scalarOf (v : Nat) : Attempt Scalar := do
  let v ← perform (settle process v)
  match ← perform (view (·.obstacle? v)) with
  | some f => throw f
  | none =>
    match (← perform (vertex v)).val with
    | .atom s => return s
    | val =>
      if val.kinds = .ofStruct ∨ val.kinds = .ofList then failAt v (.notScalar val.kinds)
      else failAt v (.incompleteValue val.display)

def scalarOfResolved : Resolved → Attempt Scalar
  | .vertex v => scalarOf process v
  | .val x => refuse (.notConcrete x.display)
  | .builtin f => refuse (.builtinAsValue f)
  | .package name => refuse (.packageAsValue name)

/-- The scalar of an expression evaluated at a vertex of its own. -/
def scalarAlone (x : Expr) (scope : Nat) : Attempt Scalar := do
  scalarOf process (← perform (alone x scope))

def resolveName (name : String) (scope : Nat) : Attempt Resolved := do
  ofExcept (← perform (view (·.lookupName name scope)))

/-- Of two failures the first one counts, unless it is incomplete. -/
def combine (op : BinaryOp) (lhs rhs : Except Fault Scalar) : Except Fault Scalar :=
  match lhs, rhs with
  | .ok x, .ok y => (op.apply x y).mapError .of
  | .error f, .error g => .error (if f.isIncomplete then g else f)
  | .error f, .ok _ => .error f
  | .ok _, .error g => .error g

mutual

def resolve (scope : Nat) : Expr → Attempt Resolved
  | .ident name => resolveName name scope
  | .select base label => do selectLabel process (← resolve scope base) label
  | .index base position => do
    match ← resolve scope base with
    | .vertex v =>
      let s ← ofExcept (positionOf (← evalScalar scope position))
      return .vertex (← select process v s)
    | _ => refuse .indexIntoScalar
  | _ => refuse .notReference

/-- The scalar that an expression denotes. Both operands are evaluated even if one fails. -/
def evalScalar (scope : Nat) : Expr → Attempt Scalar
  | .null => return .null
  | .bool b => return .bool b
  | .int i => return .int i
  | .float x => return .float x
  | .str s => return .str s
  | .unary op operand =>
    if (BoundOp.ofUnary? op).isSome then scalarAlone process (.unary op operand) scope
    else do ofExcept (op.apply (← evalScalar scope operand))
  | .binary op lhs rhs =>
    if op = .unify ∨ op = .disjoin then scalarAlone process (.binary op lhs rhs) scope
    else do
      let x ← perform (evalScalar scope lhs).run
      let y ← perform (evalScalar scope rhs).run
      ofResult (combine op x y)
  | .ident name => do scalarOfResolved process (← resolveName name scope)
  | .select base label => do
    scalarOfResolved process (← selectLabel process (← resolve scope base) label)
  | .index base position => do
    match ← resolve scope base with
    | .vertex v =>
      let s ← ofExcept (positionOf (← evalScalar scope position))
      scalarOf process (← select process v s)
    | _ => refuse .indexIntoScalar
  | .call func args => do
    match ← resolve scope func with
    | .builtin f => ofExcept (f.call (← arguments scope args))
    | _ => refuse .notFunction
  | x => scalarAlone process x scope

def arguments (scope : Nat) : List Expr → Attempt (List Json)
  | [] => return []
  | x :: rest => do
    let v ←
      if x.isReference then
        match ← resolve scope x with
        | .vertex v => pure v
        | .val w => refuse (.notConcrete w.display)
        | _ => refuse .notArgument
      else perform (alone x scope)
    let j ← exportVertex process v
    return j :: (← arguments scope rest)

end

end Eval

end SchemaMock
