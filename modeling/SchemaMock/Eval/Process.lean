import SchemaMock.Eval.Choice
import SchemaMock.Eval.Reference
import SchemaMock.Eval.Structure

/-! # Processing a vertex

The conjuncts of a vertex are unified one after the other. A conjunct may be replaced by others: a
unification by its operands, a reference by the seeds of its target, a struct by the expressions it
embeds. These follow in the next round. When no conjunct is left, the disjunctions are decided.
-/

namespace SchemaMock

/-- What a conjunct leaves behind. -/
structure Yield where
  /-- Conjuncts for the next round. -/
  next : List Conjunct
  /-- Conjuncts that hold in every alternative. -/
  kept : List Conjunct
  disjunctions : List (List Alternative)

namespace Yield

def nothing : Yield := ⟨[], [], []⟩

def keep (c : Conjunct) : Yield := ⟨[], [c], []⟩

def append (a b : Yield) : Yield :=
  ⟨a.next ++ b.next, a.kept ++ b.kept, a.disjunctions ++ b.disjunctions⟩

end Yield

namespace Eval

open Attempt

variable (process : Nat → Eval Unit)

/-- Unifies a vertex with the value of an expression. -/
def meetScalar (v : Nat) (x : Expr) (scope : Nat) : Eval Unit := do
  match ← (evalScalar process scope x).run with
  | .ok s => meet v (.atom s)
  | .error f => record v f

def meetBound (v : Nat) (op : BoundOp) (operand : Expr) (scope : Nat) : Eval Unit := do
  match ← (evalScalar process scope operand).run with
  | .ok s => meet v (.constraint (.ofBound ⟨op, s⟩))
  | .error f => record v f

/-- The group that a closed struct adds its labels to: that of the expression it is embedded by, or
a new one. -/
def openGroup (v : Nat) (c : Conjunct) : Eval (Option Nat) := do
  if !c.closed then return none
  let count := (← vertex v).groups.length
  match c.group with
  | some g => if g < count then return some g
  | none => pure ()
  update v fun x => { x with groups := x.groups ++ [⟨[], [], false⟩] }
  return some count

def updateGroup (v : Nat) (group : Option Nat) (f : Group → Group) : Eval Unit :=
  match group with
  | none => return
  | some g => update v fun x => { x with groups := x.groups.modify g f }

/-- A declaration of a struct; the result is the expression that it embeds. -/
def addDecl (v : Nat) (c : Conjunct) (scope : Nat) (group : Option Nat) :
    Decl → Eval (List Conjunct)
  | .field label optional value => do
    let w ← arc v label !optional
    addSeed w (.of value scope c.closed)
    updateGroup v group fun g => { g with labels := g.labels ++ [label] }
    return []
  | .pattern label value => do
    update v fun x => { x with patterns := x.patterns ++ [⟨label, value, scope, c.closed⟩] }
    updateGroup v group fun g => { g with patterns := g.patterns ++ [(label, scope)] }
    return []
  | .ellipsis => do
    updateGroup v group fun g => { g with anything := true }
    return []
  | .embed x => return [⟨.expr x, scope, c.closed, group⟩]

def addStruct (v : Nat) (decls : List Decl) (c : Conjunct) : Eval (List Conjunct) := do
  meet v (.ofKinds .ofStruct)
  let scope ← addScope (.struct c.scope decls v)
  let group ← openGroup v c
  return (← decls.mapM (addDecl v c scope group)).flatten

/-- The seeds of a target join the vertex, once for each target. Through a definition they are
closed. -/
def copyTarget (v target : Nat) (c : Conjunct) : Eval (List Conjunct) := do
  let x ← vertex v
  if x.copied.contains target then return []
  update v fun x => { x with copied := x.copied ++ [target] }
  let y ← vertex target
  let closed := c.closed || (y.paths.head?.map Path.hasDefinition).getD false
  addPaths v y.paths
  return y.seeds.map fun seed => { seed with closed := seed.closed || closed, group := c.group }

/-- A reference to the vertex itself adds nothing; one to a struct around it would never end. -/
def addReference (v : Nat) (x : Expr) (c : Conjunct) : Eval Yield := do
  match ← (resolve process c.scope x).run with
  | .ok (.vertex target) =>
    if target = v ∨ (← view (·.follow target)) = (← view (·.follow v)) then return .nothing
    else if ← view (·.isAncestor target v) then
      let path ← view (·.pathText target)
      meet v (.ofCause (.structuralCycle path))
      return .nothing
    else return { Yield.nothing with next := ← copyTarget v target c }
  | .ok (.val val) => do
    meet v val
    return .keep c
  | .ok (.builtin f) => do
    meet v (.ofCause (.builtinAsValue f))
    return .nothing
  | .ok (.package name) => do
    meet v (.ofCause (.packageAsValue name))
    return .nothing
  | .error f => do
    record v f
    return .keep c

def addExpr (v : Nat) (c : Conjunct) (x : Expr) : Eval Yield :=
  let keepAfter (m : Eval Unit) : Eval Yield := do
    m
    return .keep c
  match x with
  | .top => return .keep c
  | .bottom => keepAfter (meet v (.ofCause .explicitBottom))
  | .null => keepAfter (meet v (.atom .null))
  | .bool b => keepAfter (meet v (.atom (.bool b)))
  | .int i => keepAfter (meet v (.atom (.int i)))
  | .float f => keepAfter (meet v (.atom (.float f)))
  | .str s => keepAfter (meet v (.atom (.str s)))
  | .struct decls => do
    let embedded ← addStruct v decls c
    return ⟨embedded, [c], []⟩
  | .list elems tail => keepAfter do
    meet v (.ofKinds .ofList)
    update v fun x => { x with lists := x.lists ++ [⟨elems, tail, c.scope, c.closed⟩] }
  | .binary .unify lhs rhs =>
    return ⟨[{ c with source := .expr lhs }, { c with source := .expr rhs }], [], []⟩
  | .binary .disjoin lhs rhs => return ⟨[], [], [c.alternatives (.binary .disjoin lhs rhs)]⟩
  | .marked y => return ⟨[], [], [c.alternatives (.marked y)]⟩
  | .ident name => addReference process v (.ident name) c
  | .select base label => addReference process v (.select base label) c
  | .index base position => addReference process v (.index base position) c
  | .unary op operand => keepAfter do
    match BoundOp.ofUnary? op with
    | some bound => meetBound process v bound operand c.scope
    | none => meetScalar process v (.unary op operand) c.scope
  | .binary op lhs rhs => keepAfter (meetScalar process v (.binary op lhs rhs) c.scope)
  | .call func args => keepAfter (meetScalar process v (.call func args) c.scope)

def addConjunct (v : Nat) (c : Conjunct) : Eval Yield :=
  match c.source with
  | .expr x => addExpr process v c x
  | .fault f => do
    meet v (.bottom f)
    return .keep c

/-- Unifies a vertex with conjuncts, round by round; the last result are those that hold in every
alternative, and the disjunctions. A source that would take more rounds than `rounds` is refused. -/
def addRounds (v : Nat) : Nat → List Conjunct → Eval (List Conjunct × List (List Alternative))
  | _, [] => return ([], [])
  | 0, _ => do
    meet v (.ofCause .evaluationDepth)
    return ([], [])
  | rounds + 1, work => do
    let yields ← work.mapM (addConjunct process v)
    let all := yields.foldl Yield.append .nothing
    let (kept, disjunctions) ← addRounds v rounds all.next
    return (all.kept ++ kept, all.disjunctions ++ disjunctions)

/-- A bound on the rounds that no source of a size that fits in memory needs: a round without a
reference splits an expression, and each reference has a target of its own. -/
def roundLimit (a : Arena) : Nat := (1 <<< 40) * (a.vertices.size + 1)

def setStage (v : Nat) (stage : Stage) : Eval Unit := update v fun x => { x with stage := stage }

def unifySeeds (v : Nat) : Eval Unit := do
  let seeds := (← vertex v).seeds
  let (kept, disjunctions) ← addRounds process v (← view roundLimit) seeds
  if disjunctions.isEmpty || (← vertex v).val.isBottom then finish process v
  else decideChoice process v kept disjunctions

/-- Runs a computation one level further down. -/
def deeper (m : Eval Unit) : Eval Unit := do
  modify fun a => { a with depth := a.depth + 1 }
  m
  modify fun a => { a with depth := a.depth - 1 }

/-- Processes a vertex that is pending, with `left` levels of evaluation left. -/
def processAt : Nat → Nat → Eval Unit
  | 0, v => do
    if (← vertex v).stage = .pending then
      let path ← view (·.pathText v)
      meet v (.bottom ((Fault.of .evaluationDepth).atPath path))
      setStage v .done
  | left + 1, v => do
    if (← vertex v).stage = .pending then
      deeper do
        setStage v .processing
        unifySeeds (processAt left) v
        setStage v .done

def evaluate : Nat → Eval Unit := processAt maxDepth

end Eval

end SchemaMock
