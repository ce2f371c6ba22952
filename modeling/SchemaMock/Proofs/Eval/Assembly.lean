import SchemaMock.Proofs.Eval.Elements
import SchemaMock.Proofs.Eval.Gathering
import SchemaMock.Proofs.Eval.Turn

/-! # Vertices of struct literals

A vertex whose seeds are structs of required fields becomes a struct. Its parts are the next
vertices, one for each label that any of the structs declares, and each struct opens a scope.
-/

namespace SchemaMock

open Arena Eval

/-- A struct literal of required fields that constrains a vertex. -/
structure StructPart where
  fields : List (Label × Expr)
  scope : Nat
  closed : Bool

namespace StructPart

def decls (p : StructPart) : List Decl := p.fields.map Decl.required

def labels (p : StructPart) : List Label := p.fields.map (·.1)

end StructPart

def Conjunct.IsFields (c : Conjunct) (p : StructPart) : Prop :=
  c.source = .expr (.struct p.decls) ∧ c.group = none ∧ p.scope = c.scope ∧ p.closed = c.closed

namespace Vertex

/-- The vertex is a struct under these literals. -/
def asStructs (ps : List StructPart) (x : Vertex) : Vertex :=
  { x with
    val := ps.foldl (fun v _ => v.meet (.ofKinds .ofStruct)) x.val
    groups := x.groups ++ (ps.filter (·.closed)).map fun p => ⟨p.labels, [], false⟩ }

theorem asStructs_cons (p : StructPart) (ps : List StructPart) (x : Vertex) :
    x.asStructs (p :: ps) = (x.asStruct p.closed p.labels).asStructs ps := by
  cases hp : p.closed <;> simp [asStructs, asStruct, hp]

end Vertex

/-- The fields of several structs, whose scopes are numbered from `n` on. -/
def Table.declareParts (t : Table) (n : Nat) : List StructPart → Table
  | [] => t
  | p :: ps => (t.declareAll n p.closed p.fields).declareParts (n + 1) ps

theorem Table.nodup_declareParts {t : Table} (h : t.labels.Nodup) (n : Nat) (ps : List StructPart) :
    (t.declareParts n ps).labels.Nodup := by
  induction ps generalizing t n with
  | nil => exact h
  | cons p ps ih => exact ih (nodup_declareAll h n p.closed p.fields) (n + 1)

namespace Arena

theorem mem_of_mem_regularArcs {x : Vertex} {n : Nat} {ls : List Label} {e : String × Nat}
    (harcs : x.arcs = arcsFrom n ls) (h : e ∈ x.regularArcs) : .regular e.1 ∈ ls := by
  obtain ⟨⟨l, arc⟩, hmem, he⟩ := List.mem_filterMap.mp h
  rw [harcs] at hmem
  cases l with
  | regular name =>
    obtain rfl := Option.some.inj he
    have := List.mem_map_of_mem (f := (·.1)) hmem
    rwa [map_fst_arcsFrom] at this
  | definition name => cases he
  | hidden name => cases he

variable {a b : Arena} {v s : Nat} {ps : List StructPart}

def addScopes (a : Arena) (v : Nat) (ps : List StructPart) : Arena :=
  { a with scopes := a.scopes ++ (ps.map fun p => Scope.struct p.scope p.decls v).toArray }

theorem addScopes_nil (a : Arena) (v : Nat) : a.addScopes v [] = a := by simp [addScopes]

theorem addScopes_cons (a : Arena) (v : Nat) (p : StructPart) (ps : List StructPart) :
    a.addScopes v (p :: ps) = ((a.addScope (.struct p.scope p.decls v)).2).addScopes v ps := by
  simp [addScopes, addScope]

theorem scopes_addScopes (a : Arena) (v : Nat) (ps : List StructPart) :
    (a.addScopes v ps).scopes.size = a.scopes.size + ps.length := by simp [addScopes]

@[simp] theorem size_addScopes (a : Arena) (v : Nat) (ps : List StructPart) :
    (a.addScopes v ps).vertices.size = a.vertices.size := by simp [addScopes]

theorem scope_addScopes (a : Arena) (v : Nat) {i : Nat} (h : i < ps.length) :
    (a.addScopes v ps).scope (a.scopes.size + i) = .struct ps[i].scope ps[i].decls v := by
  simp [addScopes, scope, h]

theorem intact_addScopes (own : Nat → Prop) (a : Arena) (v : Nat) (ps : List StructPart) :
    Intact own a (a.addScopes v ps) :=
  { Intact.refl own a with
    scopes := by simp [addScopes]
    scope := fun hs => by simp [addScopes, scope, Array.getElem?_append, hs] }

/-- A vertex has taken a struct literal, and its scope is open. -/
def takeStruct (a : Arena) (v : Nat) (p : StructPart) : Arena :=
  (a.addScope (.struct p.scope p.decls v)).2.modify v (·.asStruct p.closed p.labels)

@[simp] theorem size_takeStruct (a : Arena) (v : Nat) (p : StructPart) :
    (a.takeStruct v p).vertices.size = a.vertices.size := by simp [takeStruct]

theorem intact_takeStruct (a : Arena) (v : Nat) (p : StructPart) :
    Intact (· = v) a (a.takeStruct v p) :=
  (intact_addScope _ a _).trans (intact_modify_self _ v _)

theorem vertex_takeStruct (p : StructPart) (h : v < a.vertices.size) :
    (a.takeStruct v p).vertex v = (a.vertex v).asStruct p.closed p.labels :=
  vertex_modify _ (by simpa using h)

/-- A vertex that is begun has taken struct literals, and their scopes are open. -/
def takeStructs (a : Arena) (v : Nat) (ps : List StructPart) : Arena :=
  ((a.begin v).addScopes v ps).modify v (·.asStructs ps)

@[simp] theorem size_takeStructs (a : Arena) (v : Nat) (ps : List StructPart) :
    (a.takeStructs v ps).vertices.size = a.vertices.size := by simp [takeStructs]

theorem intact_takeStructs (a : Arena) (v : Nat) (ps : List StructPart) :
    Intact (· = v) a (a.takeStructs v ps) :=
  ((intact_begin a v).trans (intact_addScopes _ _ v ps)).trans (intact_modify_self _ v _)

theorem foldl_meet_ofStruct (hps : ps ≠ []) :
    ps.foldl (fun v _ => v.meet (.ofKinds .ofStruct)) Val.top = .ofKinds .ofStruct := by
  cases ps with
  | nil => exact absurd rfl hps
  | cons p ps =>
    clear hps
    rw [List.foldl_cons, show Val.top.meet (.ofKinds .ofStruct) = .ofKinds .ofStruct from rfl]
    induction ps with
    | nil => rfl
    | cons q ps ih => exact ih

theorem vertex_takeStructs {parent : Option Nat} {paths : List Path} {copied : List Nat}
    {seeds : List Conjunct} (hlt : v < a.vertices.size)
    (hv : a.vertex v = { Vertex.fresh parent paths seeds with copied := copied })
    (hps : ps ≠ []) : (a.takeStructs v ps).vertex v = { a.vertex v with
      stage := .processing
      val := .ofKinds .ofStruct
      groups := (ps.filter (·.closed)).map fun p => ⟨p.labels, [], false⟩ } := by
  have htaken : (a.takeStructs v ps).vertex v = ((a.begin v).vertex v).asStructs ps :=
    vertex_modify _ (by simpa using hlt)
  rw [htaken, vertex_begin hlt, hv]
  simp only [Vertex.asStructs, Vertex.fresh, foldl_meet_ofStruct hps, List.nil_append]

theorem vertex_gather_takeStructs {parent : Option Nat} {paths : List Path} {copied : List Nat}
    {seeds : List Conjunct} (hlt : v < a.vertices.size)
    (hv : a.vertex v = { Vertex.fresh parent paths seeds with copied := copied })
    (hps : ps ≠ []) (t : Table) :
    ((a.takeStructs v ps).gather v t).vertex v = { a.vertex v with
      stage := .processing
      val := .ofKinds .ofStruct
      arcs := arcsFrom a.vertices.size t.labels
      groups := (ps.filter (·.closed)).map fun p => ⟨p.labels, [], false⟩ } := by
  rw [vertex_gather_self t (by simpa using hlt), size_takeStructs, vertex_takeStructs hlt hv hps]

/-- A vertex has become a struct, with the parts of a table and a scope for each literal. -/
structure Assembled (a b : Arena) (v : Nat) (ps : List StructPart) (t : Table) : Prop where
  intact : Intact (· = v) a b
  size : b.vertices.size = a.vertices.size + t.length
  scopes : b.scopes.size = a.scopes.size + ps.length
  self : b.vertex v = { a.vertex v with
    stage := .done
    val := .ofKinds .ofStruct
    arcs := arcsFrom a.vertices.size t.labels
    groups := (ps.filter (·.closed)).map fun p => ⟨p.labels, [], false⟩ }
  part {i : Nat} (h : i < t.length) : b.vertex (a.vertices.size + i) = a.partVertex v t[i]
  scope {i : Nat} (h : i < ps.length) :
    b.scope (a.scopes.size + i) = .struct ps[i].scope ps[i].decls v

end Arena

namespace Eval

variable {process : Nat → Eval Unit} {a : Arena} {v : Nat} {cs idle : List Conjunct}
  {ps : List StructPart} {t : Table}

theorem addConjunct_part (process : Nat → Eval Unit) {c : Conjunct} {p : StructPart}
    (hc : c.IsFields p) (hlt : v < a.vertices.size) (hnodup : t.labels.Nodup) :
    addConjunct process v c (a.gather v t) =
      (.keep c, (a.takeStruct v p).gather v (t.declareAll a.scopes.size p.closed p.fields)) := by
  obtain ⟨hsource, hgroup, hscope, hclosed⟩ := hc
  rw [takeStruct, hscope, hclosed]
  exact addConjunct_struct process hsource hgroup hlt hnodup

theorem run_structs (process : Nat → Eval Unit) (h : List.Forall₂ Conjunct.IsFields cs ps)
    (hlt : v < a.vertices.size) (hnodup : t.labels.Nodup) :
    cs.mapM (addConjunct process v) (a.gather v t) = (cs.map .keep,
      ((a.addScopes v ps).modify v (·.asStructs ps)).gather v
      (t.declareParts a.scopes.size ps)) := by
  induction h generalizing a t with
  | nil =>
    have hsame : (a.addScopes v []).modify v (·.asStructs []) = a := by
      rw [addScopes_nil]
      exact modify_eq_self (by simp [Vertex.asStructs])
    rw [hsame]
    rfl
  | @cons c p cs ps hc _ ih =>
    let b := a.takeStruct v p
    have hadd : addConjunct process v c (a.gather v t) =
        (.keep c, b.gather v (t.declareAll a.scopes.size p.closed p.fields)) :=
        addConjunct_part process hc hlt hnodup
    have hsize : b.scopes.size = a.scopes.size + 1 := Array.size_push _
    have hend : (b.addScopes v ps).modify v (·.asStructs ps) =
        (a.addScopes v (p :: ps)).modify v (·.asStructs (p :: ps)) := by
      let f (x : Vertex) : Vertex := x.asStruct p.closed p.labels
      rw [addScopes_cons]
      refine (modify_modify (((a.addScope (.struct p.scope p.decls v)).2).addScopes v ps) v f
        (·.asStructs ps)).trans ?_
      simp only [f, Vertex.asStructs_cons]
    rw [run_mapM_cons, hadd]
    dsimp only
    rw [ih (by simpa [b] using hlt) (Table.nodup_declareAll hnodup _ _ _), hend, hsize]
    rfl

/-- The first literals of a vertex that is begun. -/
theorem run_takeStructs (process : Nat → Eval Unit) (h : List.Forall₂ Conjunct.IsFields cs ps)
    (hlt : v < a.vertices.size) (harcs : (a.vertex v).arcs = []) :
    cs.mapM (addConjunct process v) (a.begin v) =
      (cs.map .keep, (a.takeStructs v ps).gather v (Table.declareParts [] a.scopes.size ps)) := by
  have hempty : (a.begin v).gather v [] = a.begin v :=
    gather_nil (by rw [vertex_begin hlt]; exact harcs)
  have hstructs := run_structs process h (a := a.begin v) (by simpa using hlt) (t := [])
    List.nodup_nil
  rw [hempty] at hstructs
  exact hstructs

/-- Nothing is left after a round that keeps some conjuncts as they are and makes nothing of the
others. -/
theorem addRounds_of_keep {others : List Conjunct} {b : Arena}
    (h : (cs ++ others).mapM (addConjunct process v) a =
      (cs.map .keep ++ others.map fun _ => .nothing, b)) :
    addRounds process v (roundLimit a) (cs ++ others) a = ((cs, []), b) := by
  obtain ⟨rounds, hr⟩ : ∃ rounds, roundLimit a = rounds + 1 :=
    Nat.exists_eq_add_one.mpr (Nat.mul_pos (by decide) (Nat.succ_pos _))
  have hkept (cs : List Conjunct) : (cs.map Yield.keep).flatMap (·.kept) = cs := by
    induction cs with
    | nil => rfl
    | cons c cs ih => exact congrArg (c :: ·) ih
  have hkeptAll :
      (cs.map Yield.keep ++ others.map fun _ => Yield.nothing).flatMap (·.kept) = cs := by
    rw [List.flatMap_append, hkept]
    simp [Yield.nothing]
  have hround : addRounds process v (rounds + 1) (cs ++ others) a = ((cs ++ [], [] ++ []), b) :=
    addRounds_of_mapM h (by simp [Yield.keep, Yield.nothing]) hkeptAll
      (by simp [Yield.keep, Yield.nothing]) (addRounds_nil rounds)
  rwa [← hr, List.append_nil, List.append_nil] at hround

section Fresh

variable {parent : Option Nat} {paths : List Path} {copied : List Nat} {c : Conjunct} {l : ListPart}

/-- At the end of its turn nothing is done to a vertex whose fields are declared. -/
theorem finish_takeStructs (process : Nat → Eval Unit) {seeds : List Conjunct}
    (hlt : v < a.vertices.size)
    (hv : a.vertex v = { Vertex.fresh parent paths seeds with copied := copied }) (hps : ps ≠ [])
    (hnodup : t.labels.Nodup) (hfills : ∀ s ∈ a.fillSelectors paths, ∃ l ∈ t.labels, s = .label l)
    (hclosed : ∀ p ∈ ps, p.closed = true → ∀ name, .regular name ∈ t.labels →
      .regular name ∈ p.labels) :
    finish process v ((a.takeStructs v ps).gather v t) = ((), (a.takeStructs v ps).gather v t) := by
  have hself := vertex_gather_takeStructs hlt hv hps t
  have hintact := (intact_takeStructs a v ps).trans (intact_gather _ v t)
  refine finish_of_struct _ ?_ ?_ ?_ ?_ ?_ ?_
  · rw [hself]
  · rw [hself, hv]; rfl
  · rw [hself, hv]; rfl
  · rw [hself]; exact fun p hp => required_of_mem_arcsFrom hp
  · intro x hx
    have hpaths : (((a.takeStructs v ps).gather v t).vertex v).paths = paths := by
      rw [hself, hv]; rfl
    rw [hpaths, hintact.fillSelectors] at hx
    obtain ⟨l, hl, rfl⟩ := hfills x hx
    obtain ⟨i, hi, rfl⟩ := List.mem_iff_getElem.mp hl
    refine ⟨t.labels[i], ⟨a.vertices.size + i, true⟩, rfl, ?_⟩
    rw [hself]
    exact lookup_arcsFrom hnodup hi _
  · intro field hfield g hg
    rw [hself] at hg
    obtain ⟨p, hp, rfl⟩ := List.mem_map.mp hg
    obtain ⟨hp, hpc⟩ := List.mem_filter.mp hp
    exact List.contains_iff_mem.mpr (hclosed p hp hpc _ (mem_of_mem_regularArcs (by rw [hself]) hfield))

/-- What a vertex is once it has taken the literals and its turn has ended. -/
theorem assembled_conclude {seeds : List Conjunct} (hlt : v < a.vertices.size)
    (hv : a.vertex v = { Vertex.fresh parent paths seeds with copied := copied })
    (hps : ps ≠ []) (t : Table) :
    Assembled a (((a.takeStructs v ps).gather v t).conclude v) v ps t := by
  have hlte : v < (a.takeStructs v ps).vertices.size := by simpa using hlt
  have hself : (a.takeStructs v ps).vertex v = _ := vertex_takeStructs hlt hv hps
  have hend := intact_conclude ((a.takeStructs v ps).gather v t) v
  have hsize : ((a.takeStructs v ps).gather v t).vertices.size = a.vertices.size + t.length := by
    simp
  refine
    { intact := ((intact_takeStructs a v ps).trans (intact_gather _ v t)).trans hend
      size := by rw [size_conclude, hsize]
      scopes := scopes_addScopes (a.begin v) v ps
      self := ?_
      part := fun {i} hi => ?_
      scope := fun hi => scope_addScopes (a.begin v) v hi }
  · rw [vertex_conclude (by omega), vertex_gather_takeStructs hlt hv hps]
  · have hne : a.vertices.size + i ≠ v := by omega
    have hpart := vertex_gather_part (t := t) hlte hi
    rw [size_takeStructs] at hpart
    rw [hend.vertex (by omega) hne, hpart,
      partVertex_congr (by rw [hself]) (intact_takeStructs a v ps).fillsAt]

/-- A vertex of structs, and of conjuncts that add nothing, becomes a struct. Fills below it have to
be at its fields, and each closed struct has to declare all of them. -/
theorem exists_assembled (left : Nat) (hlt : v < a.vertices.size)
    (hv : a.vertex v = { Vertex.fresh parent paths (cs ++ idle) with copied := copied })
    (h : List.Forall₂ Conjunct.IsFields cs ps) (hps : ps ≠ [])
    (hidle : ∀ c ∈ idle, ∀ b, Intact (· = v) a b → (b.vertex v).parent = parent →
      (b.vertex v).copied = copied → (b.vertex v).forward = none →
      addConjunct (processAt left) v c b = (.nothing, b))
    (ht : t = Table.declareParts [] a.scopes.size ps)
    (hfills : ∀ s ∈ a.fillSelectors paths, ∃ l ∈ t.labels, s = .label l)
    (hclosed : ∀ p ∈ ps, p.closed = true → ∀ name, .regular name ∈ t.labels →
      .regular name ∈ p.labels) :
    ∃ b, processAt (left + 1) v a = ((), b) ∧ Assembled a b v ps t := by
  let s := a.begin v
  let d := (a.takeStructs v ps).gather v t
  have hpending : (a.vertex v).stage = .pending := by rw [hv]; rfl
  have hseeds : (s.vertex v).seeds = cs ++ idle := by rw [vertex_begin hlt, hv]; rfl
  have had : Intact (· = v) a d := (intact_takeStructs a v ps).trans (intact_gather _ v t)
  have hd : d.vertex v = _ := vertex_gather_takeStructs hlt hv hps t
  have hround : (cs ++ idle).mapM (addConjunct (processAt left) v) s =
      (cs.map .keep ++ idle.map fun _ => .nothing, d) := by
    rw [run_mapM_append, run_takeStructs _ h hlt (by rw [hv]; rfl), ← ht]
    dsimp only
    rw [run_mapM_of_same idle fun c hc => hidle c hc d had ?_ ?_ ?_]
    · rw [hd, hv]; rfl
    · rw [hd, hv]
    · rw [hd, hv]; rfl
  have hrounds : addRounds (processAt left) v (roundLimit s) (s.vertex v).seeds s = ((cs, []), d) :=
    hseeds ▸ addRounds_of_keep hround
  have hnodup : t.labels.Nodup := ht ▸ Table.nodup_declareParts (t := []) List.nodup_nil _ ps
  have hfinish := finish_takeStructs (processAt left) hlt hv hps hnodup hfills hclosed
  have hrun := processAt_of_unifySeeds hpending ((unifySeeds_of_addRounds hrounds).trans hfinish)
  exact ⟨d.conclude v, hrun, assembled_conclude hlt hv hps t⟩

/-- A list contradicts structs. -/
theorem exists_contradiction (left : Nat) (hlt : v < a.vertices.size)
    (hv : a.vertex v = { Vertex.fresh parent paths (cs ++ [c]) with copied := copied })
    (h : List.Forall₂ Conjunct.IsFields cs ps) (hps : ps ≠ []) (hc : c.IsList l) :
    ∃ b f, processAt (left + 1) v a = ((), b) ∧ Intact (· = v) a b ∧ (b.vertex v).stage = .done ∧
      (b.vertex v).forward = none ∧ (b.vertex v).val = .bottom f ∧ f.isIncomplete = false := by
  let s := a.begin v
  let t := Table.declareParts [] a.scopes.size ps
  let d := (a.takeStructs v ps).gather v t
  let b := d.modify v (·.asList [l])
  have hpending : (a.vertex v).stage = .pending := by rw [hv]; rfl
  have hseeds : (s.vertex v).seeds = (cs ++ [c]) ++ [] := by
    rw [vertex_begin hlt, hv, List.append_nil]; rfl
  have hltd : v < d.vertices.size := by simp [d]; omega
  have hab : Intact (· = v) a b :=
    ((intact_takeStructs a v ps).trans (intact_gather _ v t)).trans (intact_modify_self d v _)
  have hb : b.vertex v = (d.vertex v).asList [l] := vertex_modify _ hltd
  have hd : d.vertex v = _ := vertex_gather_takeStructs hlt hv hps t
  have hround : ((cs ++ [c]) ++ []).mapM (addConjunct (processAt left) v) s =
      ((cs ++ [c]).map .keep ++ ([] : List Conjunct).map fun _ => .nothing, b) := by
    rw [List.append_nil, run_mapM_append, run_takeStructs _ h hlt (by rw [hv]; rfl)]
    dsimp only
    rw [run_mapM_cons, addConjunct_list hc, List.map_append, List.map_nil, List.append_nil]
    rfl
  have hrounds : addRounds (processAt left) v (roundLimit s) (s.vertex v).seeds s =
      ((cs ++ [c], []), b) :=
    hseeds ▸ addRounds_of_keep hround
  obtain ⟨f, hbottom, hfinal⟩ : ∃ f, (b.vertex v).val = .bottom f ∧ f.isIncomplete = false := by
    rw [hb, hd]
    exact ⟨_, rfl, rfl⟩
  have hfinish : finish (processAt left) v b = ((), b) :=
    finish_of_isBottom _ (by rw [hbottom]; rfl)
  have hlast := vertex_conclude (a := b) (v := v) (by simpa [b] using hltd)
  refine ⟨b.conclude v, f, processAt_of_unifySeeds hpending ((unifySeeds_of_addRounds hrounds).trans hfinish),
    hab.trans (intact_conclude b v), ?_, ?_, ?_, hfinal⟩
  · rw [hlast]
  · rw [hlast, hb, hd, hv]; rfl
  · rw [hlast]; exact hbottom

end Fresh

end Eval

end SchemaMock
