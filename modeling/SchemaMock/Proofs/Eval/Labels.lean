import Mathlib.Data.List.Nodup
import SchemaMock.Eval.Query
import SchemaMock.Proofs.Eval.Inputs
import SchemaMock.Proofs.Eval.Turn

/-! # The labels of a vertex

A field is added to a vertex when there is none of its label yet, and later it only becomes
required. So no vertex has two fields of one label, whatever an evaluation does.
-/

namespace SchemaMock

open Arena Eval

def Vertex.labels (x : Vertex) : List Label := x.arcs.map (·.1)

namespace Arena

/-- No vertex has two fields of one label. -/
def Labelled (a : Arena) : Prop := ∀ v, (a.vertex v).labels.Nodup

variable {a b : Arena}

theorem labelled_of_eq (h : a.Labelled) (hv : b.vertices = a.vertices) : b.Labelled := by
  intro v
  unfold vertex
  rw [hv]
  exact h v

theorem Labelled.modify (h : a.Labelled) (v : Nat) {f : Vertex → Vertex}
    (hf : (f (a.vertex v)).labels.Nodup) : (a.modify v f).Labelled := by
  intro u
  by_cases huv : u = v
  · subst huv
    by_cases hu : u < a.vertices.size
    · rw [vertex_modify f hu]
      exact hf
    · rw [modify_of_size_le f (Nat.le_of_not_lt hu)]
      exact h u
  · rw [vertex_modify_of_ne a f huv]
    exact h u

/-- A new vertex has no fields, and neither has a number that no vertex took. -/
theorem labels_add (a : Arena) (parent : Option Nat) (paths : List Path)
    (seeds : List Conjunct) (v : Nat) :
    ((a.add (.fresh parent paths seeds)).2.vertex v).labels = (a.vertex v).labels := by
  rcases Nat.lt_trichotomy v a.vertices.size with hv | rfl | hv
  · rw [vertex_add_of_lt _ hv]
  · rw [vertex_add, vertex_of_size_le (Nat.le_refl _)]
    rfl
  · rw [vertex_of_size_le (by rw [size_add]; omega), vertex_of_size_le (by omega)]

theorem Labelled.add (h : a.Labelled) (parent : Option Nat) (paths : List Path)
    (seeds : List Conjunct) : (a.add (.fresh parent paths seeds)).2.Labelled := by
  intro v
  rw [labels_add]
  exact h v

theorem Labelled.begin (h : a.Labelled) (v : Nat) : (a.begin v).Labelled :=
  Labelled.modify (a := { a with depth := a.depth + 1 }) (labelled_of_eq h rfl) v (h v)

theorem Labelled.conclude (h : a.Labelled) (v : Nat) : (a.conclude v).Labelled :=
  labelled_of_eq (h.modify v (f := ({ · with stage := .done })) (h v)) rfl

end Arena

namespace Vertex

theorem labels_meet (x : Vertex) (val : Val) : (x.meet val).labels = x.labels := rfl

theorem labels_record (x : Vertex) (f : Fault) : (x.record f).labels = x.labels := by
  unfold record
  split <;> rfl

/-- Fields that become required keep their labels. -/
theorem labels_require (x : Vertex) (f : Label → Arc → Arc) :
    labels { x with arcs := x.arcs.map fun (l, arc) => (l, f l arc) } = x.labels := by
  unfold labels
  rw [List.map_map]
  rfl

theorem not_mem_labels {x : Vertex} {label : Label} (h : x.arc? label = none) :
    label ∉ x.labels := by
  intro hmem
  obtain ⟨entry, hentry, rfl⟩ := List.mem_map.mp hmem
  simpa using List.lookup_eq_none_iff.mp h entry hentry

theorem nodup_labels_append {x : Vertex} {label : Label} (h : x.labels.Nodup)
    (hnew : label ∉ x.labels) (arc : Arc) :
    (labels { x with arcs := x.arcs ++ [(label, arc)] }).Nodup := by
  rw [labels, List.map_append]
  refine List.nodup_append.mpr ⟨h, List.nodup_singleton _, fun l hl m hm he => hnew ?_⟩
  obtain rfl : m = label := List.mem_singleton.mp hm
  exact he ▸ hl

end Vertex

namespace Eval

variable {v : Nat}

/-! ## Single changes -/

theorem labelled_update (v : Nat) {f : Vertex → Vertex}
    (hf : ∀ x : Vertex, (f x).labels = x.labels) :
    Keeps (Preserves Labelled) (update v f) :=
  fun a ha => ha.modify v ((hf (a.vertex v)).symm ▸ ha v)

theorem labelled_meet (v : Nat) (val : Val) : Keeps (Preserves Labelled) (meet v val) :=
  labelled_update v fun x => x.labels_meet val

theorem labelled_record (v : Nat) (f : Fault) : Keeps (Preserves Labelled) (record v f) :=
  labelled_update v fun x => x.labels_record f

theorem labelled_add (parent : Option Nat) (paths : List Path) (seeds : List Conjunct) :
    Keeps (Preserves Labelled) (add parent paths seeds) := fun _ ha => ha.add parent paths seeds

theorem labelled_addScope (s : Scope) : Keeps (Preserves Labelled) (addScope s) :=
  fun _ ha => labelled_of_eq ha rfl

theorem labelled_alone (x : Expr) (scope : Nat) : Keeps (Preserves Labelled) (alone x scope) :=
  labelled_add none [] _

theorem labelled_addSeed (v : Nat) (c : Conjunct) : Keeps (Preserves Labelled) (addSeed v c) :=
  labelled_update v fun _ => rfl

/-! ## Fields -/

/-- A field is added only where its label is new. -/
theorem labelled_arc (v : Nat) (label : Label) (required : Bool) :
    Keeps (Preserves Labelled) (arc v label required) := by
  intro a ha
  unfold arc
  rw [run_bind]
  dsimp only [vertex]
  rcases hold : (a.vertex v).arc? label with _ | old
  case some =>
    refine ha.modify v ?_
    rw [Vertex.labels_require (a.vertex v) fun l arc =>
      if l = label then { arc with required := arc.required || required } else arc]
    exact ha v
  case none =>
    let paths := (a.vertex v).paths.map (·.child (.label label))
    have hadded := ha.add (some v) paths (a.fillsAt paths)
    refine hadded.modify v (Vertex.nodup_labels_append (hadded v) ?_ _)
    rw [labels_add]
    exact Vertex.not_mem_labels hold

theorem labelled_addPathsToArc (v : Nat) (added : List Path) (label : Label) (w : Nat) :
    Keeps (Preserves Labelled) (addPathsToArc v added label w) := by
  unfold addPathsToArc
  refine (keeps_view _).bind fun fills => ?_
  have hlast (paths : List Path) : Keeps (Preserves Labelled) (update w fun x =>
      { x with paths := x.paths ++ paths, seeds := x.seeds ++ fills }) :=
        labelled_update w fun _ => rfl
  have hrequire :
      Keeps (Preserves Labelled) (update v fun x => { x with arcs := x.arcs.map fun (l, arc) =>
      (l, if l = label then { arc with required := true } else arc) }) :=
    labelled_update v fun x => x.labels_require fun l arc =>
      if l = label then { arc with required := true } else arc
  dsimp only
  split
  · exact hrequire.bind fun _ => hlast _
  · exact hlast _

theorem labelled_addPaths (v : Nat) (paths : List Path) :
    Keeps (Preserves Labelled) (addPaths v paths) := by
  unfold addPaths
  refine (keeps_vertex v).bind fun x => (keeps_view _).bind fun _ => ?_
  split
  · exact keeps_pure _
  · dsimp only
    split
    · refine Keeps.bind (labelled_update v fun _ => rfl) fun _ => ?_
      exact keeps_forM (fun _ => labelled_addPathsToArc v _ _ _) _
    · exact keeps_pure _

theorem labelled_openGroup (v : Nat) (c : Conjunct) :
    Keeps (Preserves Labelled) (openGroup v c) := by
  have hnew : Keeps (Preserves Labelled) (update v fun x => { x with groups := x.groups ++ [⟨[], [], false⟩] }) :=
    labelled_update v fun _ => rfl
  unfold openGroup
  split
  · exact keeps_pure _
  · refine (keeps_vertex v).bind fun x => ?_
    dsimp only
    split
    · split
      · exact keeps_pure _
      · exact hnew.bind fun _ => keeps_pure _
    · exact hnew.bind fun _ => keeps_pure _

theorem labelled_updateGroup (v : Nat) (group : Option Nat) (f : Group → Group) :
    Keeps (Preserves Labelled) (updateGroup v group f) := by
  unfold updateGroup
  split
  · exact keeps_pure _
  · exact labelled_update v fun _ => rfl

theorem labelled_addDecl (v : Nat) (c : Conjunct) (scope : Nat) (group : Option Nat) (decl : Decl) :
    Keeps (Preserves Labelled) (addDecl v c scope group decl) := by
  unfold addDecl
  split
  · refine (labelled_arc v _ _).bind fun w => (labelled_addSeed w _).bind fun _ => ?_
    exact (labelled_updateGroup v _ _).bind fun _ => keeps_pure _
  · refine Keeps.bind (labelled_update v fun _ => rfl) fun _ => ?_
    exact (labelled_updateGroup v _ _).bind fun _ => keeps_pure _
  · exact (labelled_updateGroup v _ _).bind fun _ => keeps_pure _
  · exact keeps_pure _

theorem labelled_addStruct (v : Nat) (decls : List Decl) (c : Conjunct) :
    Keeps (Preserves Labelled) (addStruct v decls c) := by
  unfold addStruct
  refine (labelled_meet v _).bind fun _ => (labelled_addScope _).bind fun scope => ?_
  refine (labelled_openGroup v c).bind fun group => ?_
  exact (keeps_mapM (labelled_addDecl v c scope group) decls).bind fun _ => keeps_pure _

theorem labelled_copyTarget (v target : Nat) (c : Conjunct) :
    Keeps (Preserves Labelled) (copyTarget v target c) := by
  unfold copyTarget
  refine (keeps_vertex v).bind fun x => ?_
  dsimp only
  split
  · exact keeps_pure _
  · refine Keeps.bind (labelled_update v fun _ => rfl) fun _ =>
      (keeps_vertex target).bind fun y => ?_
    exact (labelled_addPaths v _).bind fun _ => keeps_pure _

theorem labelled_buildList (v : Nat) : Keeps (Preserves Labelled) (buildList v) := by
  unfold buildList
  refine (keeps_vertex v).bind fun x => ?_
  dsimp only
  split
  · refine Keeps.bind (labelled_update v fun _ => rfl) fun _ => ?_
    split
    · exact labelled_meet v _
    · have helement (i : Nat) : Keeps (Preserves Labelled) (element v x.lists i) :=
        (keeps_vertex v).bind fun _ => (keeps_view _).bind fun _ => labelled_add _ _ _
      exact (keeps_mapM helement _).bind fun elems => labelled_update v fun _ => rfl
  · exact keeps_pure _

theorem labelled_requireFilledParts (v : Nat) :
    Keeps (Preserves Labelled) (requireFilledParts v) := by
  refine (keeps_vertex v).bind fun x => (keeps_view _).bind fun selectors =>
    keeps_forM (fun s => ?_) _
  unfold requirePart
  split
  · refine (keeps_vertex v).bind fun x => ?_
    dsimp only
    split
    · exact labelled_meet v _
    · exact keeps_pure _
  · exact (labelled_meet v _).bind fun _ => (labelled_arc v _ _).bind fun _ => keeps_pure _

theorem labelled_stand (v : Nat) (seeds : List Conjunct) :
    Keeps (Preserves Labelled) (stand v seeds) :=
  (keeps_vertex v).bind fun _ => (labelled_add _ _ _).bind fun w =>
    Keeps.bind (labelled_update w fun _ => rfl) fun _ => keeps_pure _

theorem labelled_leaveOpen (v : Nat) (survivors : List Survivor) :
    Keeps (Preserves Labelled) (leaveOpen v survivors) := by
  refine Keeps.bind (keeps_mapM (fun s => ?_) survivors) fun vals => labelled_update v fun _ => rfl
  exact (keeps_view _).bind fun w => (keeps_vertex w).bind fun _ => keeps_pure _

theorem labelled_withholding {α : Type} {m : Eval α} (h : Keeps (Preserves Labelled) m)
    (paths : List Path) : Keeps (Preserves Labelled) (withholding paths m) := by
  intro a ha
  exact labelled_of_eq (h { a with withheld := a.withheld ++ paths } (labelled_of_eq ha rfl)) rfl

/-! ## Conjuncts -/

section

variable {process : Nat → Eval Unit} (hp : ∀ u, Keeps (Preserves Labelled) (process u))
include hp

theorem labelled_meetScalar (v : Nat) (x : Expr) (scope : Nat) :
    Keeps (Preserves Labelled) (meetScalar process v x scope) := by
  refine (keeps_evalScalar hp labelled_alone scope x).bind fun r => ?_
  split
  · exact labelled_meet v _
  · exact labelled_record v _

theorem labelled_meetBound (v : Nat) (op : BoundOp) (operand : Expr) (scope : Nat) :
    Keeps (Preserves Labelled) (meetBound process v op operand scope) := by
  refine (keeps_evalScalar hp labelled_alone scope operand).bind fun r => ?_
  split
  · exact labelled_meet v _
  · exact labelled_record v _

theorem labelled_addReference (v : Nat) (x : Expr) (c : Conjunct) :
    Keeps (Preserves Labelled) (addReference process v x c) := by
  refine (keeps_resolve hp labelled_alone c.scope x).bind fun r => ?_
  split
  · refine (keeps_view _).bind fun _ => (keeps_view _).bind fun _ => ?_
    split
    · exact keeps_pure _
    · refine (keeps_view _).bind fun _ => ?_
      split
      · exact (keeps_view _).bind fun path => (labelled_meet v _).bind fun _ => keeps_pure _
      · exact (labelled_copyTarget v _ c).bind fun _ => keeps_pure _
  · exact (labelled_meet v _).bind fun _ => keeps_pure _
  · exact (labelled_meet v _).bind fun _ => keeps_pure _
  · exact (labelled_meet v _).bind fun _ => keeps_pure _
  · exact (labelled_record v _).bind fun _ => keeps_pure _

theorem labelled_addExpr (v : Nat) (c : Conjunct) (x : Expr) :
    Keeps (Preserves Labelled) (addExpr process v c x) := by
  have hkeep {m : Eval Unit} (hm : Keeps (Preserves Labelled) m) :
      Keeps (Preserves Labelled) (do m; return .keep c : Eval Yield) :=
        hm.bind fun _ => keeps_pure _
  match x with
  | .top => exact keeps_pure _
  | .bottom | .null | .bool _ | .int _ | .float _ | .str _ => exact hkeep (labelled_meet v _)
  | .struct decls => exact (labelled_addStruct v decls c).bind fun _ => keeps_pure _
  | .list elems tail =>
    exact hkeep ((labelled_meet v _).bind fun _ => labelled_update v fun _ => rfl)
  | .marked y => exact keeps_pure _
  | .ident name => exact labelled_addReference hp v (.ident name) c
  | .select base label => exact labelled_addReference hp v (.select base label) c
  | .index base position => exact labelled_addReference hp v (.index base position) c
  | .unary op operand =>
    refine hkeep ?_
    split
    · exact labelled_meetBound hp v _ operand c.scope
    · exact labelled_meetScalar hp v _ c.scope
  | .binary op lhs rhs =>
    cases op
    case unify | disjoin => exact keeps_pure _
    all_goals exact hkeep (labelled_meetScalar hp v _ c.scope)
  | .call func args => exact hkeep (labelled_meetScalar hp v (.call func args) c.scope)

theorem labelled_addConjunct (v : Nat) (c : Conjunct) :
    Keeps (Preserves Labelled) (addConjunct process v c) := by
  unfold addConjunct
  split
  · exact labelled_addExpr hp v c _
  · exact (labelled_meet v _).bind fun _ => keeps_pure _

theorem labelled_addRounds (v rounds : Nat) (work : List Conjunct) :
    Keeps (Preserves Labelled) (addRounds process v rounds work) := by
  induction rounds generalizing work with
  | zero =>
    cases work with
    | nil => exact keeps_pure _
    | cons c work => exact (labelled_meet v _).bind fun _ => keeps_pure _
  | succ rounds ih =>
    cases work with
    | nil => exact keeps_pure _
    | cons c work =>
      exact (keeps_mapM (labelled_addConjunct hp v) _).bind fun _ =>
        (ih _).bind fun _ => keeps_pure _

/-! ## The last step -/

theorem labelled_applyPatterns (v : Nat) :
    Keeps (Preserves Labelled) (applyPatterns process v) := by
  refine (keeps_vertex v).bind fun x => ?_
  split
  · refine keeps_forM (fun e => keeps_forM (fun p => ?_) _) _
    refine (keeps_labelMatches hp labelled_alone _ _ _).bind fun b => ?_
    split
    · exact labelled_addSeed _ _
    · exact keeps_pure _
  · exact keeps_pure _

theorem labelled_checkClosed (v : Nat) : Keeps (Preserves Labelled) (checkClosed process v) := by
  refine (keeps_vertex v).bind fun x => ?_
  split
  · refine keeps_forM (fun e => ?_) _
    refine (keeps_allM (keeps_groupAdmits hp labelled_alone _) _).bind fun b => ?_
    split
    · exact labelled_addSeed _ _
    · exact keeps_pure _
  · exact keeps_pure _

theorem labelled_finish (v : Nat) : Keeps (Preserves Labelled) (finish process v) := by
  refine (keeps_vertex v).bind fun x => ?_
  split
  · refine (labelled_buildList v).bind fun _ => (labelled_requireFilledParts v).bind fun _ => ?_
    exact (labelled_applyPatterns hp v).bind fun _ => labelled_checkClosed hp v
  · exact keeps_pure _

/-! ## Disjunctions -/

theorem labelled_tryChoices (v : Nat) (kept : List Conjunct)
    (disjunctions choices : List (List Alternative)) :
    Keeps (Preserves Labelled) (tryChoices process v kept disjunctions choices) := by
  have htry (seeds : List Conjunct) : Keeps (Preserves Labelled) (tryChoice process v seeds) :=
    (labelled_stand v seeds).bind fun w => Keeps.bind (labelled_update v fun _ => rfl) fun _ =>
      (keeps_faults hp false w).bind fun _ => Keeps.bind (labelled_update v fun _ => rfl)
        fun _ => keeps_pure _
  induction choices with
  | nil => exact keeps_pure _
  | cons choice rest ih =>
    refine (htry _).bind fun (w, found) => ih.bind fun (survivors, failures) => ?_
    dsimp only
    split
    · exact keeps_pure _
    · exact keeps_pure _

theorem labelled_forwardTo (v : Nat) (s : Survivor) :
    Keeps (Preserves Labelled) (forwardTo process v s) := by
  refine (keeps_vertex v).bind fun x => (keeps_view _).bind fun b => ?_
  have hlast (w : Nat) : Keeps (Preserves Labelled) (do
      update v fun x => { x with forward := some w }
      process w) := Keeps.bind (labelled_update v fun _ => rfl) fun _ => hp w
  split
  · exact (labelled_stand v _).bind hlast
  · exact hlast _

theorem labelled_decideChoice (v : Nat) (kept : List Conjunct)
    (disjunctions : List (List Alternative)) :
    Keeps (Preserves Labelled) (decideChoice process v kept disjunctions) := by
  unfold decideChoice
  split
  · exact labelled_meet v _
  · refine (keeps_vertex v).bind fun x => ?_
    refine (labelled_withholding (labelled_tryChoices hp v kept disjunctions _) _).bind
      fun (survivors, failures) => ?_
    dsimp only
    split
    · exact labelled_meet v _
    · refine (keeps_narrow hp survivors).bind fun r => ?_
      split
      · exact labelled_forwardTo hp v _
      · exact labelled_leaveOpen v _

theorem labelled_unifySeeds (v : Nat) : Keeps (Preserves Labelled) (unifySeeds process v) := by
  rw [unifySeeds]
  -- the limit is a number that unification must not count down from
  generalize roundLimit = limit
  refine (keeps_vertex v).bind fun x => (keeps_view limit).bind fun rounds => ?_
  refine (labelled_addRounds hp v rounds _).bind fun r => (keeps_vertex v).bind fun y => ?_
  split
  · exact labelled_finish hp v
  · exact labelled_decideChoice hp v _ _

end

/-! ## Processing -/

theorem labelled_processAt (left v : Nat) : Keeps (Preserves Labelled) (processAt left v) := by
  induction left generalizing v with
  | zero =>
    rw [processAt]
    refine (keeps_vertex v).bind fun x => ?_
    split
    · exact (keeps_view _).bind fun path => (labelled_meet v _).bind fun _ =>
        labelled_update v fun _ => rfl
    · exact keeps_pure _
  | succ left ih =>
    intro a ha
    by_cases hs : (a.vertex v).stage = .pending
    · rw [run_turn left hs]
      exact (labelled_unifySeeds ih v _ (ha.begin v)).conclude v
    · rw [processAt_of_stage _ hs]
      exact ha

theorem labelled_evaluate (v : Nat) : Keeps (Preserves Labelled) (evaluate v) :=
  labelled_processAt maxDepth v

theorem labelled_lookup (path : Path) : Keeps (Preserves Labelled) (Eval.lookup path).run := by
  rw [lookup_eq]
  exact Attempt.keeps_bind (keeps_select_path labelled_evaluate _ _) fun v =>
    Attempt.keeps_perform (keeps_arrive labelled_evaluate v)

end Eval

namespace Arena

theorem labelled_ofInputs (inputs : List Input) (fills : List Fill) :
    (ofInputs inputs fills).Labelled := by
  refine Labelled.add (fun v => ?_) none [.root] _
  rw [vertex_of_size_le (by rw [(gathered_inputs inputs fills).vertices]; exact Nat.zero_le v)]
  exact List.nodup_nil

end Arena

end SchemaMock
