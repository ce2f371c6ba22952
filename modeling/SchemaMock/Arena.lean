import SchemaMock.Val

/-! # The arena of an evaluation

A value is evaluated in an arena of vertices, one for each path that is reached. A vertex begins
with its seeds: the expressions declared for its path, each with the scope it was written in.
Vertices and scopes are only ever added, and refer to each other by number.
-/

namespace SchemaMock

/-- What a conjunct contributes: an expression, or a fault that a fill carries. -/
inductive Source where
  | expr (x : Expr)
  | fault (f : Fault)
deriving Inhabited

structure Conjunct where
  source : Source
  /-- The scope that its names are looked up in. -/
  scope : Nat
  /-- Structs of this conjunct admit their declared fields only. -/
  closed : Bool
  /-- The closed group of the vertex that an embedded expression adds its labels to. -/
  group : Option Nat
deriving Inhabited

def Conjunct.of (x : Expr) (scope : Nat) (closed : Bool) : Conjunct :=
  ⟨.expr x, scope, closed, none⟩

/-- Where names are looked up: the declarations of a struct being evaluated at a vertex, or the
whole source with its imports. -/
inductive Scope where
  | root (imports : List String)
  | struct (parent : Nat) (decls : List Decl) (vertex : Nat)
deriving Inhabited

/-- The scope of expressions that stand in no file. -/
def plainScope : Nat := 0

inductive Stage where
  | pending
  | processing
  | done
deriving DecidableEq, Repr, Inhabited

/-- A field of a vertex. Optional fields that nothing has required do not count as present. -/
structure Arc where
  vertex : Nat
  required : Bool
deriving DecidableEq, Repr, Inhabited

/-- What one closed struct admits: labels, names that match a pattern, or everything. -/
structure Group where
  labels : List Label
  patterns : List (Expr × Nat)
  anything : Bool
deriving Inhabited

structure Pattern where
  label : Expr
  value : Expr
  scope : Nat
  closed : Bool
deriving Inhabited

structure ListPart where
  elems : List Expr
  tail : Option Expr
  scope : Nat
  closed : Bool
deriving Inhabited

structure Vertex where
  parent : Option Nat
  /-- The path of the vertex, then those of the references copied into it. -/
  paths : List Path
  seeds : List Conjunct
  stage : Stage
  val : Val
  /-- Incomplete faults: the value is not yet concrete. -/
  pending : List Fault
  arcs : List (Label × Arc)
  elems : List Nat
  /-- None of the list literals has a fixed length. -/
  openList : Bool
  groups : List Group
  patterns : List Pattern
  lists : List ListPart
  /-- The targets of the references copied into the vertex. -/
  copied : List Nat
  /-- The vertex that stands in for this one: the alternative that was chosen. -/
  forward : Option Nat
  /-- The alternatives of a disjunction that is not resolved. -/
  disjuncts : List Nat
deriving Inhabited

namespace Vertex

def fresh (parent : Option Nat) (paths : List Path) (seeds : List Conjunct) : Vertex where
  parent
  paths
  seeds
  stage := .pending
  val := .top
  pending := []
  arcs := []
  elems := []
  openList := false
  groups := []
  patterns := []
  lists := []
  copied := []
  forward := none
  disjuncts := []

def arc? (x : Vertex) (label : Label) : Option Arc := x.arcs.lookup label

def part? (x : Vertex) : Selector → Option Nat
  | .label l => (x.arc? l).map (·.vertex)
  | .index n => x.elems[n]?

def meet (x : Vertex) (v : Val) : Vertex := { x with val := x.val.meet v }

def fields (x : Vertex) : List (Label × Nat) :=
  (x.arcs.filter (·.2.required)).map fun (label, arc) => (label, arc.vertex)

/-- The regular fields, present or not, by name. -/
def regularArcs (x : Vertex) : List (String × Nat) :=
  x.arcs.filterMap fun (label, arc) =>
    match label with
    | .regular name => some (name, arc.vertex)
    | _ => none

/-- Incomplete faults are kept beside the value; all others make it bottom. -/
def record (x : Vertex) (f : Fault) : Vertex :=
  if f.isIncomplete then { x with pending := x.pending ++ [f] } else x.meet (.bottom f)

end Vertex

structure Fill where
  path : Path
  source : Source
deriving Inhabited

structure Arena where
  vertices : Array Vertex
  scopes : Array Scope
  fills : List Fill
  /-- Paths whose fills below them are held back while a disjunction is decided. -/
  withheld : List Path
  /-- How many vertices are being processed inside one another. -/
  depth : Nat
deriving Inhabited

namespace Arena

def vertex (a : Arena) (v : Nat) : Vertex := a.vertices.getD v default

def scope (a : Arena) (s : Nat) : Scope := a.scopes.getD s default

def modify (a : Arena) (v : Nat) (f : Vertex → Vertex) : Arena :=
  { a with vertices := a.vertices.modify v f }

def add (a : Arena) (x : Vertex) : Nat × Arena :=
  (a.vertices.size, { a with vertices := a.vertices.push x })

def addScope (a : Arena) (s : Scope) : Nat × Arena :=
  (a.scopes.size, { a with scopes := a.scopes.push s })

/-- The vertex that stands in for `v` in the end. Stand-ins have higher numbers, so there are fewer
steps than vertices. -/
def follow (a : Arena) (v : Nat) : Nat := go a.vertices.size v
where
  go : Nat → Nat → Nat
    | 0, v => v
    | n + 1, v =>
      match (a.vertex v).forward with
      | none => v
      | some w => go n w

/-- Whether `target` lies on the way from `v` to the root. -/
def isAncestor (a : Arena) (target v : Nat) : Bool :=
  go (a.follow target) a.vertices.size (a.vertex v).parent
where
  go (target : Nat) : Nat → Option Nat → Bool
    | 0, _ => false
    | _, none => false
    | n + 1, some u => a.follow u == target || go target n (a.vertex u).parent

/-- The path of a vertex, empty for one that stands alone. -/
def pathText (a : Arena) (v : Nat) : String := ((a.vertex v).paths.head?.map Path.display).getD ""

/-! ## Fills -/

/-- A fill strictly below a withheld path is held back. -/
def isWithheld (a : Arena) (fill : Path) : Bool :=
  a.withheld.any fun path => decide (path.length < fill.length) && fill.startsWith path

def fillsAt (a : Arena) (paths : List Path) : List Conjunct :=
  (a.fills.filter fun fill => paths.contains fill.path && !a.isWithheld fill.path).map
    fun fill => ⟨fill.source, plainScope, false, none⟩

/-- Whether a fill, withheld or not, lies strictly below one of the paths. -/
def hasFillsBelow (a : Arena) (paths : List Path) : Bool :=
  a.fills.any fun fill =>
    paths.any fun path => decide (path.length < fill.path.length) && fill.path.startsWith path

/-- The first selectors below the paths on the way to a fill, each once. -/
def fillSelectors (a : Arena) (paths : List Path) : List Selector :=
  let found := (a.fills.filter fun fill => !a.isWithheld fill.path).flatMap fun fill =>
    paths.filterMap fun path =>
      if fill.path.startsWith path then fill.path.selectors[path.length]? else none
  found.foldl (fun done s => if done.contains s then done else done ++ [s]) []

/-! ## The beginning -/

inductive Input where
  | file (f : SchemaFile)
  | expr (x : Expr)
deriving Inhabited

/-- The root conjunct of an input; each file has a scope of its own. -/
def addInput (done : List Conjunct × Arena) (input : Input) : List Conjunct × Arena :=
  match input with
  | .file f =>
    let (s, a) := done.2.addScope (.root f.imports)
    (done.1 ++ [.of f.body s false], a)
  | .expr x => (done.1 ++ [.of x plainScope false], done.2)

def root : Nat := 0

def ofInputs (inputs : List Input) (fills : List Fill) : Arena :=
  let (seeds, a) := inputs.foldl addInput ([], ⟨#[], #[.root []], fills, [], 0⟩)
  (a.add (.fresh none [.root] (seeds ++ a.fillsAt [.root]))).2

end Arena

abbrev Eval := StateM Arena

/-- A computation that may fail; what it did to the arena stays. -/
abbrev Attempt := ExceptT Fault Eval

namespace Eval

def vertex (v : Nat) : Eval Vertex := fun a => (a.vertex v, a)

/-- What the arena shows, without changing it. -/
def view {α : Type} (f : Arena → α) : Eval α := fun a => (f a, a)

def update (v : Nat) (f : Vertex → Vertex) : Eval Unit := fun a => ((), a.modify v f)

def meet (v : Nat) (val : Val) : Eval Unit := update v (·.meet val)

def record (v : Nat) (f : Fault) : Eval Unit := update v (·.record f)

def add (parent : Option Nat) (paths : List Path) (seeds : List Conjunct) : Eval Nat :=
  fun a => a.add (.fresh parent paths seeds)

def addScope (s : Scope) : Eval Nat := fun a => a.addScope s

def alone (x : Expr) (scope : Nat) : Eval Nat := add none [] [.of x scope false]

/-- The vertex of a field, which is added when it is not there. A field that a fill reaches is
required. -/
def arc (v : Nat) (label : Label) (required : Bool) : Eval Nat := do
  let x ← vertex v
  match x.arc? label with
  | some arc =>
    update v fun x => { x with arcs := x.arcs.map fun (l, arc) =>
      (l, if l = label then { arc with required := arc.required || required } else arc) }
    return arc.vertex
  | none =>
    let paths := x.paths.map (·.child (.label label))
    let fills ← view (·.fillsAt paths)
    let w ← add (some v) paths fills
    update v fun x => { x with arcs := x.arcs ++ [(label, ⟨w, required || !fills.isEmpty⟩)] }
    return w

/-- The arcs of a vertex answer to the new paths too, and so take the fills there. -/
def addPathsToArc (v : Nat) (added : List Path) (label : Label) (w : Nat) : Eval Unit := do
  let paths := added.map (·.child (.label label))
  let fills ← view (·.fillsAt paths)
  if !fills.isEmpty then
    update v fun x => { x with arcs := x.arcs.map fun (l, arc) =>
      (l, if l = label then { arc with required := true } else arc) }
  update w fun x => { x with paths := x.paths ++ paths, seeds := x.seeds ++ fills }

/-- A vertex answers to further paths. The first path of a vertex is the one that is shown, and only
fills ask for the others, so without fills a vertex that has a path takes no more. -/
def addPaths (v : Nat) (paths : List Path) : Eval Unit := do
  let x ← vertex v
  if (← view (·.fills.isEmpty)) && !x.paths.isEmpty then return
  let added := (paths.foldl (fun done p =>
    if x.paths.contains p || done.contains p then done else done ++ [p]) [])
  if !added.isEmpty then
    update v fun x => { x with paths := x.paths ++ added }
    x.arcs.forM fun (label, arc) => addPathsToArc v added label arc.vertex

end Eval

def Attempt.perform {α : Type} (m : Eval α) : Attempt α := ExceptT.lift m

/-- Fails with a fault that has no place yet. -/
def Attempt.refuse {α : Type} (c : Cause) : Attempt α := throw (.of c)

def Attempt.ofExcept {α : Type} : Except Cause α → Attempt α
  | .ok a => pure a
  | .error c => throw (.of c)

def Attempt.ofResult {α : Type} (r : Except Fault α) : Attempt α := ExceptT.mk (pure r)

end SchemaMock
