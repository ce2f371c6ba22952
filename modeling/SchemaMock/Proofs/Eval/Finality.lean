import SchemaMock.Eval.Query
import SchemaMock.Proofs.Combinations
import SchemaMock.Proofs.Condition
import SchemaMock.Proofs.Eval.Decision

/-! # Final faults and incomplete ones

A vertex is bottom by a final fault only, and what it is still waiting for are incomplete faults.
Each step of an evaluation upholds this: faults that come up on the way are recorded by what they
are, and those that seeds carry are final.
-/

namespace SchemaMock

open Arena Eval

/-! ## The invariant -/

/-- A fault that the source carries is final. -/
def Source.Final : Source → Prop
  | .expr _ => True
  | .fault f => f.isIncomplete = false

theorem Conjunct.final_of (x : Expr) (scope : Nat) (closed : Bool) :
    (Conjunct.of x scope closed).source.Final := trivial

namespace Vertex

/-- Final faults make the value bottom, and incomplete ones are pending. -/
structure Parted (x : Vertex) : Prop where
  val : x.val.Final
  pending : ∀ f ∈ x.pending, f.isIncomplete = true
  seeds : ∀ c ∈ x.seeds, c.source.Final

variable {x : Vertex}

theorem parted_default : (default : Vertex).Parted where
  val _ h := by cases h
  pending := List.forall_mem_nil _
  seeds := List.forall_mem_nil _

theorem parted_fresh (parent : Option Nat) (paths : List Path) {seeds : List Conjunct}
    (h : ∀ c ∈ seeds, c.source.Final) : (fresh parent paths seeds).Parted where
  val _ h := by cases h
  pending := List.forall_mem_nil _
  seeds := h

theorem Parted.meet (h : x.Parted) {v : Val} (hv : v.Final) : (x.meet v).Parted :=
  { h with val := h.val.meet hv }

theorem Parted.record (h : x.Parted) (f : Fault) : (x.record f).Parted := by
  unfold Vertex.record
  by_cases hf : f.isIncomplete = true
  · rw [if_pos hf]
    exact { h with pending := fun g hg => (List.mem_append.mp hg).elim (h.pending g) fun hg =>
      List.mem_singleton.mp hg ▸ hf }
  · rw [if_neg hf]
    refine h.meet fun g hg => ?_
    cases hg
    exact Bool.eq_false_iff.mpr hf

theorem Parted.addSeeds (h : x.Parted) {cs : List Conjunct} (hcs : ∀ c ∈ cs, c.source.Final) :
    ∀ c ∈ x.seeds ++ cs, c.source.Final :=
  fun c hc => (List.mem_append.mp hc).elim (h.seeds c) (hcs c)

end Vertex

namespace Arena

/-- Final and incomplete faults are told apart throughout. -/
structure Parted (a : Arena) : Prop where
  vertex (v : Nat) : (a.vertex v).Parted
  fills : ∀ fill ∈ a.fills, fill.source.Final

variable {a b : Arena}

theorem parted_of_eq (h : a.Parted) (hv : b.vertices = a.vertices) (hf : b.fills = a.fills) :
    b.Parted where
  vertex v := by
    unfold Arena.vertex
    rw [hv]
    exact h.vertex v
  fills := hf ▸ h.fills

theorem Parted.modify (h : a.Parted) (v : Nat) {f : Vertex → Vertex}
    (hf : (a.vertex v).Parted → (f (a.vertex v)).Parted) : (a.modify v f).Parted where
  vertex u := by
    by_cases huv : u = v
    · subst huv
      by_cases hu : u < a.vertices.size
      · rw [vertex_modify f hu]
        exact hf (h.vertex u)
      · rw [modify_of_size_le f (Nat.le_of_not_lt hu)]
        exact h.vertex u
    · rw [vertex_modify_of_ne a f huv]
      exact h.vertex u
  fills := h.fills

theorem Parted.add (h : a.Parted) {x : Vertex} (hx : x.Parted) : (a.add x).2.Parted where
  vertex u := by
    rcases Nat.lt_trichotomy u a.vertices.size with hu | rfl | hu
    · rw [vertex_add_of_lt x hu]
      exact h.vertex u
    · rw [vertex_add]
      exact hx
    · rw [vertex_of_size_le (by rw [size_add]; omega)]
      exact Vertex.parted_default
  fills := h.fills

theorem Parted.fillsAt (h : a.Parted) (paths : List Path) :
    ∀ c ∈ a.fillsAt paths, c.source.Final := by
  intro c hc
  obtain ⟨fill, hfill, rfl⟩ := List.mem_map.mp hc
  exact h.fills fill (List.mem_filter.mp hfill).1

end Arena

/-- What a reference stands for is not bottom by an incomplete fault. -/
def Resolved.Final (r : Resolved) : Prop := ∀ val, r = .val val → val.Final

theorem Resolved.final_vertex (v : Nat) : (Resolved.vertex v).Final := nofun

namespace Yield

/-- The conjuncts that are left carry final faults only. -/
structure Final (y : Yield) : Prop where
  next : ∀ c ∈ y.next, c.source.Final
  kept : ∀ c ∈ y.kept, c.source.Final
  disjunctions : ∀ list ∈ y.disjunctions, ∀ t ∈ list, t.conjunct.source.Final

theorem final_nothing : nothing.Final :=
  ⟨List.forall_mem_nil _, List.forall_mem_nil _, List.forall_mem_nil _⟩

theorem final_keep {c : Conjunct} (h : c.source.Final) : (keep c).Final :=
  ⟨List.forall_mem_nil _, List.forall_mem_singleton.mpr h, List.forall_mem_nil _⟩

theorem Final.append {y z : Yield} (hy : y.Final) (hz : z.Final) : (y.append z).Final where
  next c hc := (List.mem_append.mp hc).elim (hy.next c) (hz.next c)
  kept c hc := (List.mem_append.mp hc).elim (hy.kept c) (hz.kept c)
  disjunctions l hl := (List.mem_append.mp hl).elim (hy.disjunctions l) (hz.disjunctions l)

theorem Final.foldl {ys : List Yield} {y : Yield} (hy : y.Final) (hys : ∀ z ∈ ys, z.Final) :
    (ys.foldl Yield.append y).Final := by
  induction ys generalizing y with
  | nil => exact hy
  | cons z ys ih =>
    exact ih (hy.append (hys z List.mem_cons_self)) fun w hw => hys w (List.mem_cons_of_mem z hw)

end Yield

namespace Eval

variable {v : Nat}

/-! ## Single changes -/

theorem upholds_vertex (v : Nat) : Upholds Parted (vertex v) Vertex.Parted :=
  fun _ ha => ⟨ha, ha.vertex v⟩

theorem upholds_fillsAt (paths : List Path) :
    Upholds Parted (view (·.fillsAt paths)) fun cs => ∀ c ∈ cs, c.source.Final :=
  upholds_view fun _ (ha : Parted _) => ha.fillsAt paths

theorem upholds_update (v : Nat) {f : Vertex → Vertex}
    (hf : ∀ x : Vertex, x.Parted → (f x).Parted) :
    Upholds Parted (update v f) fun _ => True := fun _ ha => ⟨ha.modify v (hf _), trivial⟩

theorem upholds_meet (v : Nat) {val : Val} (h : val.Final) :
    Upholds Parted (meet v val) fun _ => True :=
  upholds_update v fun _ hx => hx.meet h

theorem upholds_record (v : Nat) (f : Fault) : Upholds Parted (record v f) fun _ => True :=
  upholds_update v fun _ hx => hx.record f

theorem upholds_add (parent : Option Nat) (paths : List Path) {seeds : List Conjunct}
    (h : ∀ c ∈ seeds, c.source.Final) : Upholds Parted (add parent paths seeds) fun _ => True :=
  fun _ ha => ⟨ha.add (Vertex.parted_fresh parent paths h), trivial⟩

theorem upholds_addScope (s : Scope) : Upholds Parted (addScope s) fun _ => True :=
  fun _ ha => ⟨parted_of_eq ha rfl rfl, trivial⟩

theorem keeps_alone_parted (x : Expr) (scope : Nat) : Keeps (Preserves Parted) (alone x scope) :=
  (upholds_add none [] (List.forall_mem_singleton.mpr (Conjunct.final_of x scope false))).keeps

theorem upholds_addSeed (v : Nat) {c : Conjunct} (h : c.source.Final) :
    Upholds Parted (addSeed v c) fun _ => True :=
  upholds_update v fun _ hx => { hx with seeds := hx.addSeeds (List.forall_mem_singleton.mpr h) }

/-! ## Fields -/

theorem upholds_arc (v : Nat) (label : Label) (required : Bool) :
    Upholds Parted (arc v label required) fun _ => True := by
  unfold arc
  refine (upholds_vertex v).bind fun x _ => ?_
  split
  · exact Upholds.bind (upholds_update v fun x hx => { hx with }) fun _ _ => upholds_pure trivial
  · refine (upholds_fillsAt _).bind fun fills hfills => (upholds_add _ _ hfills).bind fun w _ => ?_
    exact Upholds.bind (upholds_update v fun x hx => { hx with }) fun _ _ => upholds_pure trivial

theorem upholds_addPathsToArc (v : Nat) (added : List Path) (label : Label) (w : Nat) :
    Upholds Parted (addPathsToArc v added label w) fun _ => True := by
  unfold addPathsToArc
  refine (upholds_fillsAt _).bind fun fills hfills => ?_
  have hlast (paths : List Path) : Upholds Parted (update w fun x =>
      { x with paths := x.paths ++ paths, seeds := x.seeds ++ fills }) fun _ => True :=
    upholds_update w fun x hx => { hx with seeds := hx.addSeeds hfills }
  split
  · exact Upholds.bind (upholds_update v fun x hx => { hx with }) fun _ _ => hlast _
  · exact Upholds.bind (P := fun _ => True) (upholds_pure trivial) fun _ _ => hlast _

theorem upholds_addPaths (v : Nat) (paths : List Path) :
    Upholds Parted (addPaths v paths) fun _ => True := by
  unfold addPaths
  refine (upholds_vertex v).bind fun x _ => (keeps_view _).upholds.bind fun _ _ => ?_
  split
  · exact upholds_pure trivial
  · dsimp only
    split
    · refine Upholds.bind (upholds_update v fun x hx => { hx with }) fun _ _ => ?_
      exact upholds_forM fun e _ => upholds_addPathsToArc v _ _ _
    · exact upholds_pure trivial

theorem upholds_openGroup (v : Nat) (c : Conjunct) :
    Upholds Parted (openGroup v c) fun _ => True := by
  have hnew : Upholds Parted (update v fun x => { x with groups := x.groups ++ [⟨[], [], false⟩] })
      fun _ => True := upholds_update v fun x hx => { hx with }
  unfold openGroup
  split
  · exact upholds_pure trivial
  · refine (upholds_vertex v).bind fun x _ => ?_
    dsimp only
    split
    · split
      · exact upholds_pure trivial
      · exact hnew.bind fun _ _ => upholds_pure trivial
    · exact hnew.bind fun _ _ => upholds_pure trivial

theorem upholds_updateGroup (v : Nat) (group : Option Nat) (f : Group → Group) :
    Upholds Parted (updateGroup v group f) fun _ => True := by
  unfold updateGroup
  split
  · exact upholds_pure trivial
  · exact upholds_update v fun x hx => { hx with }

theorem upholds_addDecl (v : Nat) (c : Conjunct) (scope : Nat) (group : Option Nat) (decl : Decl) :
    Upholds Parted (addDecl v c scope group decl) fun cs => ∀ c ∈ cs, c.source.Final := by
  unfold addDecl
  split
  · refine (upholds_arc v _ _).bind fun w _ =>
      (upholds_addSeed w (Conjunct.final_of _ _ _)).bind fun _ _ => ?_
    exact (upholds_updateGroup v _ _).bind fun _ _ => upholds_pure (List.forall_mem_nil _)
  · refine Upholds.bind (upholds_update v fun x hx => { hx with }) fun _ _ => ?_
    exact (upholds_updateGroup v _ _).bind fun _ _ => upholds_pure (List.forall_mem_nil _)
  · exact (upholds_updateGroup v _ _).bind fun _ _ => upholds_pure (List.forall_mem_nil _)
  · exact upholds_pure (List.forall_mem_singleton.mpr (trivial : Source.Final (.expr _)))

theorem final_ofKinds (k : Kinds) : (Val.ofKinds k).Final := fun _ h => by cases h

theorem final_ofCause {c : Cause} (h : (Fault.of c).isIncomplete = false) :
    (Val.ofCause c).Final := by
  intro f hf
  cases hf
  exact h

theorem upholds_addStruct (v : Nat) (decls : List Decl) (c : Conjunct) :
    Upholds Parted (addStruct v decls c) fun cs => ∀ c ∈ cs, c.source.Final := by
  unfold addStruct
  refine (upholds_meet v (final_ofKinds _)).bind fun _ _ =>
    (upholds_addScope _).bind fun scope _ => ?_
  refine (upholds_openGroup v c).bind fun group _ => ?_
  refine (upholds_mapM fun d _ => upholds_addDecl v c scope group d).bind fun css hcss => ?_
  refine upholds_pure fun c hc => ?_
  obtain ⟨cs, hcs, hc⟩ := List.mem_flatten.mp hc
  exact hcss cs hcs c hc

/-! ## References and scalars -/

/-- A name stands for a vertex or a type. -/
theorem final_lookupName {a : Arena} {name : String} {scope : Nat} {r : Resolved}
    (h : a.lookupName name scope = .ok r) : r.Final := by
  have houter {imports : List String} (h : a.lookupOutermost name imports = .ok r) : r.Final := by
    unfold lookupOutermost at h
    split at h
    · cases h; exact nofun
    · split at h
      · cases h
        intro val hval
        cases hval
        exact nofun
      · cases h; exact nofun
      · split at h
        · cases h; exact nofun
        · cases h
  have hgo (n s : Nat) (h : lookupName.go a name n s = .ok r) : r.Final := by
    induction n generalizing s with
    | zero => cases h
    | succ n ih =>
      unfold lookupName.go at h
      split at h
      · exact houter h
      · dsimp only at h
        split at h
        · split at h
          · cases h; exact nofun
          · cases h
        · exact ih _ h
  exact hgo _ _ h

variable {process : Nat → Eval Unit}

theorem gives_resolveName (name : String) (scope : Nat) :
    (resolveName name scope).Gives Resolved.Final := by
  intro a r b h
  rw [resolveName, Attempt.run_bind, Attempt.run_perform] at h
  dsimp only [view] at h
  cases hl : a.lookupName name scope with
  | error c => rw [hl] at h; cases h
  | ok s =>
    rw [hl] at h
    cases h
    exact final_lookupName hl

theorem gives_selectLabel (r : Resolved) (label : Label) :
    (selectLabel process r label).Gives Resolved.Final := by
  cases r with
  | vertex v =>
    exact (Attempt.gives_any _).bind fun w _ => Attempt.gives_pure (Resolved.final_vertex w)
  | package name =>
    unfold selectLabel
    dsimp only
    split
    · exact Attempt.gives_pure nofun
    · exact Attempt.gives_throw _
  | _ => exact Attempt.gives_throw _

theorem gives_resolve (scope : Nat) (x : Expr) :
    (resolve process scope x).Gives Resolved.Final := by
  cases x with
  | ident name => exact gives_resolveName name scope
  | select base label =>
    rw [resolve]
    exact (Attempt.gives_any _).bind fun r _ => gives_selectLabel r label
  | index base position =>
    rw [resolve]
    refine (Attempt.gives_any _).bind fun r _ => ?_
    split
    · refine (Attempt.gives_any _).bind fun s _ => (Attempt.gives_any _).bind fun p _ => ?_
      exact (Attempt.gives_any _).bind fun w _ => Attempt.gives_pure (Resolved.final_vertex w)
    · exact Attempt.gives_throw _
  | _ => exact Attempt.gives_throw (.of .notReference)

variable (hp : ∀ u, Keeps (Preserves Parted) (process u))
include hp

theorem upholds_meetScalar (v : Nat) (x : Expr) (scope : Nat) :
    Upholds Parted (meetScalar process v x scope) fun _ => True := by
  refine (keeps_evalScalar hp keeps_alone_parted scope x).upholds.bind fun r _ => ?_
  split
  · exact upholds_meet v nofun
  · exact upholds_record v _

theorem upholds_meetBound (v : Nat) (op : BoundOp) (operand : Expr) (scope : Nat) :
    Upholds Parted (meetBound process v op operand scope) fun _ => True := by
  refine (keeps_evalScalar hp keeps_alone_parted scope operand).upholds.bind fun r _ => ?_
  split
  · exact upholds_meet v nofun
  · exact upholds_record v _

omit hp in
theorem upholds_copyTarget (v target : Nat) (c : Conjunct) :
    Upholds Parted (copyTarget v target c) fun cs => ∀ c ∈ cs, c.source.Final := by
  unfold copyTarget
  refine (upholds_vertex v).bind fun x _ => ?_
  dsimp only
  split
  · exact upholds_pure (List.forall_mem_nil _)
  · refine Upholds.bind (upholds_update v fun x hx => { hx with }) fun _ _ => ?_
    refine (upholds_vertex target).bind fun y hy => (upholds_addPaths v _).bind fun _ _ => ?_
    refine upholds_pure fun d hd => ?_
    obtain ⟨seed, hseed, rfl⟩ := List.mem_map.mp hd
    exact hy.seeds seed hseed

theorem upholds_addReference (v : Nat) (x : Expr) {c : Conjunct} (hc : c.source.Final) :
    Upholds Parted (addReference process v x c) Yield.Final := by
  have hresolve := upholds_of_gives (keeps_resolve hp keeps_alone_parted c.scope x)
    (gives_resolve c.scope x)
  refine hresolve.bind fun r hr => ?_
  split
  · refine (keeps_view _).upholds.bind fun _ _ => (keeps_view _).upholds.bind fun _ _ => ?_
    split
    · exact upholds_pure Yield.final_nothing
    · refine (keeps_view _).upholds.bind fun _ _ => ?_
      split
      · exact (keeps_view _).upholds.bind fun path _ =>
          (upholds_meet v (final_ofCause (c := .structuralCycle path) rfl)).bind fun _ _ =>
          upholds_pure Yield.final_nothing
      · refine (upholds_copyTarget v _ c).bind fun cs hcs => upholds_pure ?_
        exact { Yield.final_nothing with next := hcs }
  · exact (upholds_meet v (hr _ rfl _ rfl)).bind fun _ _ => upholds_pure (Yield.final_keep hc)
  · rename_i f
    exact (upholds_meet v (final_ofCause (c := .builtinAsValue f) rfl)).bind fun _ _ =>
      upholds_pure Yield.final_nothing
  · rename_i name
    exact (upholds_meet v (final_ofCause (c := .packageAsValue name) rfl)).bind fun _ _ =>
      upholds_pure Yield.final_nothing
  · exact (upholds_record v _).bind fun _ _ => upholds_pure (Yield.final_keep hc)

/-! ## Conjuncts -/

theorem upholds_addExpr (v : Nat) {c : Conjunct} (hc : c.source.Final) (x : Expr) :
    Upholds Parted (addExpr process v c x) Yield.Final := by
  have hkeep {m : Eval Unit} (hm : Upholds Parted m fun _ => True) :
      Upholds Parted (do m; return .keep c : Eval Yield) Yield.Final :=
    hm.bind fun _ _ => upholds_pure (Yield.final_keep hc)
  have hchoice (y : Expr) : (⟨[], [], [c.alternatives y]⟩ : Yield).Final := by
    refine ⟨List.forall_mem_nil _, List.forall_mem_nil _,
      List.forall_mem_singleton.mpr fun t ht => ?_⟩
    obtain ⟨z, -, rfl⟩ := List.mem_map.mp ht
    trivial
  match x with
  | .top => exact upholds_pure (Yield.final_keep hc)
  | .bottom => exact hkeep (upholds_meet v (final_ofCause (c := .explicitBottom) rfl))
  | .null | .bool _ | .int _ | .float _ | .str _ => exact hkeep (upholds_meet v nofun)
  | .struct decls =>
    refine (upholds_addStruct v decls c).bind fun cs hcs => upholds_pure ?_
    exact { Yield.final_keep hc with next := hcs }
  | .list elems tail =>
    exact hkeep ((upholds_meet v (final_ofKinds _)).bind fun _ _ =>
      upholds_update v fun x hx => { hx with })
  | .marked y => exact upholds_pure (hchoice (.marked y))
  | .ident name => exact upholds_addReference hp v (.ident name) hc
  | .select base label => exact upholds_addReference hp v (.select base label) hc
  | .index base position => exact upholds_addReference hp v (.index base position) hc
  | .unary op operand =>
    refine hkeep ?_
    split
    · exact upholds_meetBound hp v _ operand c.scope
    · exact upholds_meetScalar hp v _ c.scope
  | .binary op lhs rhs =>
    cases op
    case unify =>
      refine upholds_pure ⟨List.forall_mem_cons.mpr ⟨?_, List.forall_mem_singleton.mpr ?_⟩,
        List.forall_mem_nil _, List.forall_mem_nil _⟩ <;> trivial
    case disjoin => exact upholds_pure (hchoice (.binary .disjoin lhs rhs))
    all_goals exact hkeep (upholds_meetScalar hp v _ c.scope)
  | .call func args => exact hkeep (upholds_meetScalar hp v (.call func args) c.scope)

theorem upholds_addConjunct (v : Nat) {c : Conjunct} (hc : c.source.Final) :
    Upholds Parted (addConjunct process v c) Yield.Final := by
  unfold addConjunct
  split
  · exact upholds_addExpr hp v hc _
  · rename_i f hsource
    rw [hsource] at hc
    refine (upholds_meet v fun g hg => ?_).bind fun _ _ => upholds_pure (Yield.final_keep ?_)
    · cases hg
      exact hc
    · rw [hsource]
      exact hc

theorem upholds_addRounds (v rounds : Nat) {work : List Conjunct}
    (hwork : ∀ c ∈ work, c.source.Final) : Upholds Parted (addRounds process v rounds work) fun r =>
      (∀ c ∈ r.1, c.source.Final) ∧ ∀ list ∈ r.2, ∀ t ∈ list, t.conjunct.source.Final := by
  induction rounds generalizing work with
  | zero =>
    cases work with
    | nil => exact upholds_pure ⟨List.forall_mem_nil _, List.forall_mem_nil _⟩
    | cons c work =>
      exact (upholds_meet v (final_ofCause (c := .evaluationDepth) rfl)).bind fun _ _ =>
        upholds_pure ⟨List.forall_mem_nil _, List.forall_mem_nil _⟩
  | succ rounds ih =>
    cases work with
    | nil => exact upholds_pure ⟨List.forall_mem_nil _, List.forall_mem_nil _⟩
    | cons c work =>
      refine (upholds_mapM fun d hd => upholds_addConjunct hp v (hwork d hd)).bind fun ys hys => ?_
      have hall := Yield.final_nothing.foldl hys
      refine (ih hall.next).bind fun r hr => upholds_pure ⟨fun d hd => ?_, fun list hlist => ?_⟩
      · exact (List.mem_append.mp hd).elim (hall.kept d) (hr.1 d)
      · exact (List.mem_append.mp hlist).elim (hall.disjunctions list) (hr.2 list)

/-! ## The last step -/

omit hp in
theorem upholds_element (v : Nat) (lists : List ListPart) (index : Nat) :
    Upholds Parted (element v lists index) fun _ => True := by
  refine (upholds_vertex v).bind fun x _ => (upholds_fillsAt _).bind fun fills hfills => ?_
  refine upholds_add _ _ fun c hc => (List.mem_append.mp hc).elim (hfills c) fun hc => ?_
  obtain ⟨l, -, hl⟩ := List.mem_filterMap.mp hc
  unfold ListPart.conjunct? at hl
  split at hl
  · cases hl
    trivial
  · obtain ⟨x, -, rfl⟩ := Option.map_eq_some_iff.mp hl
    trivial

omit hp in
theorem upholds_buildList (v : Nat) : Upholds Parted (buildList v) fun _ => True := by
  refine (upholds_vertex v).bind fun x _ => ?_
  dsimp only
  split
  · refine Upholds.bind (upholds_update v fun x hx => { hx with }) fun _ _ => ?_
    split
    · rename_i a b _
      exact upholds_meet v (final_ofCause (c := .listLengths a b) rfl)
    · refine (upholds_mapM fun i _ => upholds_element v _ i).bind fun elems _ => ?_
      exact upholds_update v fun x hx => { hx with }
  · exact upholds_pure trivial

omit hp in
theorem upholds_requireFilledParts (v : Nat) :
    Upholds Parted (requireFilledParts v) fun _ => True := by
  refine (upholds_vertex v).bind fun x _ => (keeps_view _).upholds.bind fun selectors _ =>
    upholds_forM fun s _ => ?_
  unfold requirePart
  split
  · rename_i n _
    refine (upholds_vertex v).bind fun x _ => ?_
    dsimp only
    split
    · exact upholds_meet v (final_ofCause (c := .indexRange n x.elems.length) rfl)
    · exact upholds_pure trivial
  · exact (upholds_meet v (final_ofKinds _)).bind fun _ _ => (upholds_arc v _ _).bind fun _ _ =>
      upholds_pure trivial

theorem upholds_applyPatterns (v : Nat) :
    Upholds Parted (applyPatterns process v) fun _ => True := by
  refine (upholds_vertex v).bind fun x _ => ?_
  split
  · refine upholds_forM fun e _ => upholds_forM fun p _ => ?_
    refine (keeps_labelMatches hp keeps_alone_parted _ _ _).upholds.bind fun b _ => ?_
    split
    · exact upholds_addSeed _ (Conjunct.final_of _ _ _)
    · exact upholds_pure trivial
  · exact upholds_pure trivial

theorem upholds_checkClosed (v : Nat) : Upholds Parted (checkClosed process v) fun _ => True := by
  refine (upholds_vertex v).bind fun x _ => ?_
  split
  · refine upholds_forM fun e _ => ?_
    refine (keeps_allM (keeps_groupAdmits hp keeps_alone_parted _) _).upholds.bind fun b _ => ?_
    split
    · exact upholds_addSeed _ (rfl : (Fault.of (.fieldNotAllowed e.1)).isIncomplete = false)
    · exact upholds_pure trivial
  · exact upholds_pure trivial

theorem upholds_finish (v : Nat) : Upholds Parted (finish process v) fun _ => True := by
  refine (upholds_vertex v).bind fun x _ => ?_
  split
  · refine (upholds_buildList v).bind fun _ _ => (upholds_requireFilledParts v).bind fun _ _ => ?_
    exact (upholds_applyPatterns hp v).bind fun _ _ => upholds_checkClosed hp v
  · exact upholds_pure trivial

/-! ## Disjunctions -/

omit hp in
theorem upholds_stand (v : Nat) {seeds : List Conjunct} (h : ∀ c ∈ seeds, c.source.Final) :
    Upholds Parted (stand v seeds) fun _ => True := by
  refine (upholds_vertex v).bind fun x _ => (upholds_add _ _ h).bind fun w _ => ?_
  exact Upholds.bind (upholds_update w fun y hy => { hy with }) fun _ _ => upholds_pure trivial

/-- The faults of a choice that failed are its final ones. -/
theorem upholds_tryChoice (v : Nat) {seeds : List Conjunct} (h : ∀ c ∈ seeds, c.source.Final) :
    Upholds Parted (tryChoice process v seeds) fun r => ∀ f ∈ r.2, f.isIncomplete = false := by
  refine (upholds_stand v h).bind fun w _ => ?_
  refine Upholds.bind (upholds_update v fun x hx => { hx with }) fun _ _ => ?_
  refine (keeps_faults hp false w).upholds.bind fun found _ => ?_
  refine Upholds.bind (upholds_update v fun x hx => { hx with }) fun _ _ =>
    upholds_pure fun f hf => ?_
  simpa using (List.mem_filter.mp hf).2

theorem upholds_tryChoices (v : Nat) {kept : List Conjunct} (disjunctions : List (List Alternative))
    {choices : List (List Alternative)} (hkept : ∀ c ∈ kept, c.source.Final)
    (hchoices : ∀ choice ∈ choices, ∀ t ∈ choice, t.conjunct.source.Final) :
    Upholds Parted (tryChoices process v kept disjunctions choices) fun r =>
      (∀ s ∈ r.1, ∀ c ∈ s.seeds, c.source.Final) ∧ ∀ f ∈ r.2, f.isIncomplete = false := by
  induction choices with
  | nil => exact upholds_pure ⟨List.forall_mem_nil _, List.forall_mem_nil _⟩
  | cons choice rest ih =>
    rw [List.forall_mem_cons] at hchoices
    have hseeds : ∀ c ∈ kept ++ choice.map (·.conjunct), c.source.Final := by
      intro c hc
      refine (List.mem_append.mp hc).elim (hkept c) fun hc => ?_
      obtain ⟨t, ht, rfl⟩ := List.mem_map.mp hc
      exact hchoices.1 t ht
    refine (upholds_tryChoice hp v hseeds).bind fun (w, found) hfound => ?_
    refine (ih hchoices.2).bind fun (survivors, failures) hrest => ?_
    dsimp only
    split
    · exact upholds_pure ⟨List.forall_mem_cons.mpr ⟨hseeds, hrest.1⟩, hrest.2⟩
    · exact upholds_pure ⟨hrest.1, fun f hf =>
        (List.mem_append.mp hf).elim (hfound f) (hrest.2 f)⟩

omit hp in
theorem Upholds.withholding {α : Type} {m : Eval α} {P : α → Prop} (h : Upholds Parted m P)
    (paths : List Path) : Upholds Parted (withholding paths m) P := by
  intro a ha
  obtain ⟨hm, hr⟩ := h { a with withheld := a.withheld ++ paths } (parted_of_eq ha rfl rfl)
  exact ⟨parted_of_eq hm rfl rfl, hr⟩

theorem upholds_forwardTo (v : Nat) {s : Survivor} (h : ∀ c ∈ s.seeds, c.source.Final) :
    Upholds Parted (forwardTo process v s) fun _ => True := by
  refine (upholds_vertex v).bind fun x _ => (keeps_view _).upholds.bind fun b _ => ?_
  have hlast (w : Nat) :
      Upholds Parted (do update v fun x => { x with forward := some w }; process w)
      fun _ => True :=
    Upholds.bind (upholds_update v fun x hx => { hx with }) fun _ _ => (hp w).upholds
  split
  · exact (upholds_stand v h).bind fun w _ => hlast w
  · exact Upholds.bind (P := fun _ => True) (upholds_pure trivial) fun w _ => hlast w

omit hp in
theorem upholds_leaveOpen (v : Nat) (survivors : List Survivor) :
    Upholds Parted (leaveOpen v survivors) fun _ => True := by
  refine Upholds.bind (P := fun _ => True) (Keeps.upholds (keeps_mapM (fun s => ?_) survivors))
    fun vals _ => ?_
  · exact (keeps_view _).bind fun w => (keeps_vertex w).bind fun x => keeps_pure _
  · refine upholds_update v fun x hx => ⟨final_ofKinds _, fun f hf => ?_, hx.seeds⟩
    refine (List.mem_append.mp hf).elim (hx.pending f) fun hf => ?_
    rw [List.mem_singleton.mp hf]
    rfl

theorem upholds_decideChoice (v : Nat) {kept : List Conjunct}
    {disjunctions : List (List Alternative)} (hkept : ∀ c ∈ kept, c.source.Final)
    (halts : ∀ list ∈ disjunctions, ∀ t ∈ list, t.conjunct.source.Final) :
    Upholds Parted (decideChoice process v kept disjunctions) fun _ => True := by
  unfold decideChoice
  split
  · exact upholds_meet v (final_ofCause (c := .tooManyAlternatives) rfl)
  · rename_i choices hchoices
    refine (upholds_vertex v).bind fun x _ => ?_
    refine ((upholds_tryChoices hp v disjunctions hkept
      (forall_of_combinations hchoices halts)).withholding _).bind
      fun (survivors, failures) hr => ?_
    dsimp only
    split
    · refine upholds_meet v fun f hf => ?_
      cases hf
      exact Fault.isIncomplete_noAlternative hr.2
    · have hnarrow : Upholds Parted (narrow process survivors) (· ⊆ survivors) := fun a ha =>
        ⟨keeps_narrow hp survivors a ha, subset_narrow process survivors a⟩
      refine hnarrow.bind fun r hsub => ?_
      split
      · rename_i s
        exact upholds_forwardTo hp v (hr.1 s (hsub List.mem_cons_self))
      · exact upholds_leaveOpen v _

end Eval

end SchemaMock
