import SchemaMock.Eval.Export

/-! # Disjunctions

To decide the disjunctions of a vertex, every way to choose one alternative from each is evaluated
in a vertex of its own. Those without final faults survive. Of the survivors only defaults stay, if
there are any; survivors that export the same host value count as one. A single survivor stands in
for the vertex.
-/

namespace SchemaMock

/-- One alternative of a disjunction, and whether it is marked as a default. -/
structure Alternative where
  conjunct : Conjunct
  default : Bool
deriving Inhabited

namespace Expr

/-- The alternatives of an expression from left to right; a mark holds for all it encloses. -/
def alternatives (marked : Bool) : Expr → List (Expr × Bool)
  | .binary .disjoin lhs rhs => lhs.alternatives marked ++ rhs.alternatives marked
  | .marked x => x.alternatives true
  | x => [(x, marked)]

end Expr

namespace Conjunct

def alternatives (c : Conjunct) (x : Expr) : List Alternative :=
  (x.alternatives false).map fun (x, marked) => ⟨{ c with source := .expr x }, marked⟩

end Conjunct

/-- Every way to choose one item of each list, the last list varying fastest; nothing when there are
too many ways. -/
def combinations {α : Type} (lists : List (List α)) : Option (List (List α)) :=
  lists.foldlM (fun chosen list =>
    let more := chosen.flatMap fun c => list.map fun x => c ++ [x]
    if maxCombinations < more.length then none else some more) [[]]

/-- A choice is a default if it takes a marked alternative wherever there is one. -/
def isDefaultChoice (disjunctions : List (List Alternative)) (choice : List Alternative) : Bool :=
  (disjunctions.zip choice).all fun (list, alternative) =>
    alternative.default || !list.any (·.default)

/-- A choice that led to no final fault. -/
structure Survivor where
  seeds : List Conjunct
  vertex : Nat
  default : Bool
deriving Inhabited

namespace Eval

open Attempt

variable (process : Nat → Eval Unit)

/-- A vertex for one choice, in the place of `v`. -/
def stand (v : Nat) (seeds : List Conjunct) : Eval Nat := do
  let x ← vertex v
  let w ← add x.parent x.paths seeds
  update w fun y => { y with copied := x.copied }
  return w

/-- Evaluates one choice; the faults are its final ones. -/
def tryChoice (v : Nat) (seeds : List Conjunct) : Eval (Nat × List Fault) := do
  let w ← stand v seeds
  update v fun x => { x with forward := some w }
  let found ← faults process false w
  update v fun x => { x with forward := none }
  return (w, found.filter (!·.isIncomplete))

/-- Evaluates the choices in order and parts survivors from faults. -/
def tryChoices (v : Nat) (kept : List Conjunct) (disjunctions : List (List Alternative)) :
    List (List Alternative) → Eval (List Survivor × List Fault)
  | [] => return ([], [])
  | choice :: rest => do
    let seeds := kept ++ choice.map (·.conjunct)
    let (w, found) ← tryChoice process v seeds
    let (survivors, failures) ← tryChoices v kept disjunctions rest
    if found.isEmpty then
      return (⟨seeds, w, isDefaultChoice disjunctions choice⟩ :: survivors, failures)
    else return (survivors, found ++ failures)

/-- Holds back the fills below some paths while a computation runs. -/
def withholding {α : Type} (paths : List Path) (m : Eval α) : Eval α := fun a =>
  let before := a.withheld
  let (r, a) := m { a with withheld := before ++ paths }
  (r, { a with withheld := before })

/-- Whether all vertices export the same host value; stops at the first that does not. -/
def exportAlike (first : Option Json) : List Nat → Eval Bool
  | [] => return true
  | v :: rest => do
    match ← (exportVertex process v).run with
    | .error _ => return false
    | .ok j =>
      match first with
      | none => exportAlike (some j) rest
      | some k => if k == j then exportAlike first rest else return false

/-- The survivors that count: the defaults if there are any, and one of several that are alike. -/
def narrow (survivors : List Survivor) : Eval (List Survivor) := do
  let preferred := if survivors.any (·.default) then survivors.filter (·.default) else survivors
  if 1 < preferred.length then
    if ← exportAlike process none (preferred.map (·.vertex)) then return preferred.take 1
  return preferred

/-- The single survivor stands in for the vertex. Where fills were held back it is evaluated anew,
with them. -/
def forwardTo (v : Nat) (s : Survivor) : Eval Unit := do
  let x ← vertex v
  let w ← if ← view (·.hasFillsBelow x.paths) then stand v s.seeds else pure s.vertex
  update v fun x => { x with forward := some w }
  process w

def describe (val : Val) : String :=
  match val with
  | .constraint c =>
    if c.kinds = .ofStruct then "\x7b...\x7d" else if c.kinds = .ofList then "[...]" else c.display
  | val => val.display

def leaveOpen (v : Nat) (survivors : List Survivor) : Eval Unit := do
  let vals ← survivors.mapM fun s => do return (← vertex (← view (·.follow s.vertex))).val
  update v fun x => { x with
    val := .ofKinds (vals.foldl (fun k val => k.union val.kinds) .none)
    disjuncts := survivors.map (·.vertex)
    pending := x.pending ++ [.of (.unresolved (vals.map describe))] }

/-- Decides the disjunctions of a vertex; `kept` are its other conjuncts. -/
def decideChoice (v : Nat) (kept : List Conjunct) (disjunctions : List (List Alternative)) :
    Eval Unit := do
  match combinations disjunctions with
  | none => meet v (.ofCause .tooManyAlternatives)
  | some choices =>
    let paths := (← vertex v).paths
    let (survivors, failures) ← withholding paths (tryChoices process v kept disjunctions choices)
    if survivors.isEmpty then meet v (.bottom ⟨.noAlternative, "", failures⟩)
    else
      match ← narrow process survivors with
      | [s] => forwardTo process v s
      | survivors => leaveOpen v survivors

end Eval

end SchemaMock
