import SchemaMock.Eval.Export

/-! # Lists, patterns and closed structs

When the conjuncts of a vertex are unified, its list literals become elements, its fills become
fields, its patterns constrain the fields they match, and fields that a closed struct does not admit
become faults.
-/

namespace SchemaMock

namespace Eval

variable (process : Nat → Eval Unit)

/-! ## Lists -/

/-- The length that list literals agree on, or two lengths that clash. A literal without tail fixes
the length; no other may be longer. -/
def agreedLength (lists : List ListPart) : Except (Nat × Nat) Nat :=
  let longest := (lists.map (·.elems.length)).foldl max 0
  match (lists.filter (·.tail.isNone)).map (·.elems.length) with
  | [] => .ok longest
  | length :: others =>
    match others.find? (· != length) with
    | some other => .error (length, other)
    | none => if length < longest then .error (length, longest) else .ok length

/-- What a list literal says about one element. -/
def ListPart.conjunct? (l : ListPart) (index : Nat) : Option Conjunct :=
  match l.elems[index]? with
  | some x => some (.of x l.scope l.closed)
  | none => l.tail.map fun x => .of x l.scope l.closed

def element (v : Nat) (lists : List ListPart) (index : Nat) : Eval Nat := do
  let paths := (← vertex v).paths.map (·.child (.index index))
  let fills ← view (·.fillsAt paths)
  add (some v) paths (fills ++ lists.filterMap (ListPart.conjunct? · index))

def buildList (v : Nat) : Eval Unit := do
  let lists := (← vertex v).lists
  if !lists.isEmpty then
    update v fun x => { x with lists := [], openList := lists.all (·.tail.isSome) }
    match agreedLength lists with
    | .error (a, b) => meet v (.ofCause (.listLengths a b))
    | .ok length =>
      let elems ← (List.range length).mapM (element v lists)
      update v fun x => { x with elems := elems }

/-! ## Fills -/

/-- A fill below a vertex makes it a struct with that field, or needs that element. -/
def requirePart (v : Nat) : Selector → Eval Unit
  | .index n => do
    let length := (← vertex v).elems.length
    if length ≤ n then meet v (.ofCause (.indexRange n length))
  | .label l => do
    meet v (.ofKinds .ofStruct)
    let _ ← arc v l true

def requireFilledParts (v : Nat) : Eval Unit := do
  let paths := (← vertex v).paths
  (← view (·.fillSelectors paths)).forM (requirePart v)

/-! ## Patterns and closed structs -/

/-- Whether a vertex, or one of its alternatives, admits a scalar. Alternatives nest no deeper than
evaluation does. -/
def admits (s : Scalar) : Nat → Nat → Eval Bool
  | 0, _ => return false
  | left + 1, v => do
    let v ← settle process v
    let x ← vertex v
    if x.disjuncts.isEmpty then return !(x.val.meet (.atom s)).isBottom
    else x.disjuncts.anyM (admits s left)

def labelMatches (label : Expr) (scope : Nat) (name : String) : Eval Bool := do
  admits process (.str name) (maxDepth + 1) (← alone label scope)

/-- A conjunct that a vertex has yet to be unified with. -/
def addSeed (v : Nat) (c : Conjunct) : Eval Unit :=
  update v fun x => { x with seeds := x.seeds ++ [c] }

def applyPatterns (v : Nat) : Eval Unit := do
  let x ← vertex v
  if !x.patterns.isEmpty then
    x.regularArcs.forM fun (name, w) =>
      x.patterns.forM fun p => do
        if ← labelMatches process p.label p.scope name then addSeed w (.of p.value p.scope p.closed)

def groupAdmits (name : String) (g : Group) : Eval Bool :=
  if g.anything || g.labels.contains (.regular name) then return true
  else g.patterns.anyM fun (label, scope) => labelMatches process label scope name

/-- Every group has to admit every regular field. -/
def checkClosed (v : Nat) : Eval Unit := do
  let x ← vertex v
  if !x.groups.isEmpty then
    x.regularArcs.forM fun (name, w) => do
      if !(← x.groups.allM (groupAdmits process name)) then
        addSeed w ⟨.fault (.of (.fieldNotAllowed name)), plainScope, false, none⟩

/-- The last step of a vertex that has no disjunction. -/
def finish (v : Nat) : Eval Unit := do
  if !(← vertex v).val.isBottom then
    buildList v
    requireFilledParts v
    applyPatterns process v
    checkClosed process v

end Eval

end SchemaMock
