import SchemaMock.Proofs.Eval.Visit

/-! # The arenas that queries leave

Whatever is asked, and however it ends, an arena is left in order: what it refers to is there, the
walks through it come to an end, nothing is in work any more, and nothing that was there is gone.
-/

namespace SchemaMock

open Arena Eval

namespace Arena

variable {inputs : List Input} {fills : List Fill} {a b : Arena}

/-! ## Walks -/

/-- The walks along stand-ins, parents and surrounding scopes are finite, and what the evaluator
reads off them is what the walk without a bound on its steps would give. -/
structure Walkable (a : Arena) : Prop where
  forward : WellFounded fun w v => (a.vertex v).forward = some w
  parent : WellFounded fun u v => (a.vertex v).parent = some u
  scope : WellFounded fun p s => ∃ decls v, a.scope s = .struct p decls v
  follow (v : Nat) : a.follow v =
    match (a.vertex v).forward with
    | none => v
    | some w => a.follow w
  forward_follow (v : Nat) : (a.vertex (a.follow v)).forward = none
  follow_lt {v : Nat} : v < a.vertices.size → a.follow v < a.vertices.size
  isAncestor (target v : Nat) : a.isAncestor target v =
    match (a.vertex v).parent with
    | none => false
    | some u => a.follow u == a.follow target || a.isAncestor target u
  lookupName (name : String) (s : Nat) : a.lookupName name s =
    match a.scope s with
    | .root imports => a.lookupOutermost name imports
    | .struct parent decls v =>
      if decls.any (Decl.declares (Label.ofIdent name.toList)) then
        match (a.vertex (a.follow v)).arc? (Label.ofIdent name.toList) with
        | some arc => .ok (.vertex arc.vertex)
        | none => .error (.cyclicReference (Label.ofIdent name.toList).display)
      else a.lookupName name parent
  lookupName_lt {name : String} {s w : Nat} :
    a.lookupName name s = .ok (.vertex w) → w < a.vertices.size

theorem Ordered.walkable (h : a.Ordered) : a.Walkable where
  forward := by
    refine Subrelation.wf (fun {w v} hw => ?_) (measure (a.vertices.size - ·)).wf
    obtain ⟨hlt, hsize⟩ := (h.vertex v).forward w hw
    exact Nat.sub_lt_sub_left (Nat.lt_trans hlt hsize) hlt
  parent := Subrelation.wf (fun {u v} hu => ((h.vertex v).parent u hu).1) Nat.lt_wfRel.wf
  scope := by
    refine Subrelation.wf (fun {p s} hp => ?_) Nat.lt_wfRel.wf
    obtain ⟨decls, v, hs⟩ := hp
    have hsound := h.scope s
    rw [hs] at hsound
    exact hsound.1
  follow := h.follow_eq
  forward_follow := h.forward_follow
  follow_lt := h.follow_lt
  isAncestor := h.isAncestor_eq
  lookupName := h.lookupName_eq
  lookupName_lt := h.lookupName_lt

/-! ## Rest -/

/-- Nothing is in work, and the root is there. -/
structure AtRest (a : Arena) : Prop where
  root : root < a.vertices.size
  depth : a.depth = 0
  withheld : a.withheld = []
  processing (v : Nat) : (a.vertex v).stage ≠ .processing

theorem AtRest.restored (h : a.AtRest) (hr : a.Restored b) : b.AtRest where
  root := hr.extent.vertex h.root
  depth := hr.depth.trans h.depth
  withheld := hr.withheld.trans h.withheld
  processing v := mt (hr.processing v).mp (h.processing v)

/-! ## The beginning -/

/-- The inputs have been given scopes, and there is no vertex yet. -/
structure Opened (done : List Conjunct × Arena) : Prop where
  ordered : done.2.Ordered
  vertices : done.2.vertices = #[]
  seeds : ∀ c ∈ done.1, c.scope < done.2.scopes.size
  depth : done.2.depth = 0
  withheld : done.2.withheld = []

theorem opened_empty (fills : List Fill) : Opened ([], ⟨#[], #[.root []], fills, [], 0⟩) where
  ordered :=
    { vertex := fun v => by
        rw [vertex_of_size_le (Nat.zero_le v)]
        exact Vertex.sound_default
      scope := fun s => by
        cases s <;> trivial
      plain := Nat.zero_lt_one }
  vertices := rfl
  seeds := List.forall_mem_nil _
  depth := rfl
  withheld := rfl

theorem Opened.addInput {done : List Conjunct × Arena} (h : Opened done) (i : Input) :
    Opened (addInput done i) := by
  cases i with
  | file f =>
    have hgrown := extent_addScope done.2 (.root f.imports)
    refine ⟨h.ordered.addScope trivial, h.vertices, fun c hc => ?_, h.depth, h.withheld⟩
    rcases List.mem_append.mp hc with hc | hc
    · exact hgrown.scope (h.seeds c hc)
    · rw [List.mem_singleton.mp hc]
      show done.2.scopes.size < (done.2.addScope (.root f.imports)).2.scopes.size
      simp [Arena.addScope]
  | expr x =>
    refine ⟨h.ordered, h.vertices, fun c hc => ?_, h.depth, h.withheld⟩
    rcases List.mem_append.mp hc with hc | hc
    · exact h.seeds c hc
    · rw [List.mem_singleton.mp hc]
      exact h.ordered.plain

theorem Opened.foldl {done : List Conjunct × Arena} (h : Opened done) (inputs : List Input) :
    Opened (inputs.foldl Arena.addInput done) := by
  induction inputs generalizing done with
  | nil => exact h
  | cons i inputs ih => exact ih (h.addInput i)

theorem ordered_ofInputs (inputs : List Input) (fills : List Fill) :
    (ofInputs inputs fills).Ordered ∧ (ofInputs inputs fills).AtRest := by
  have h := (opened_empty fills).foldl inputs
  let done := inputs.foldl addInput ([], ⟨#[], #[.root []], fills, [], 0⟩)
  let x := Vertex.fresh none [.root] (done.1 ++ done.2.fillsAt [.root])
  have hstart : ofInputs inputs fills = (done.2.add x).2 := rfl
  have hadd : done.2.Restored (done.2.add x).2 := restored_add done.2 rfl
  rw [hstart]
  refine ⟨h.ordered.add (Vertex.sound_fresh _ nofun fun c hc => ?_), ?_, ?_, ?_, fun v hv => ?_⟩
  · exact (List.mem_append.mp hc).elim (h.seeds c) (h.ordered.fillsAt _ c)
  · show 0 < (done.2.add x).2.vertices.size
    rw [size_add]
    exact Nat.succ_pos _
  · exact h.depth
  · exact h.withheld
  · rw [hadd.processing, vertex_of_size_le (by rw [h.vertices]; exact Nat.zero_le v)] at hv
    cases hv

/-! ## Queries -/

/-- What a query leaves is the same under a watch on the depth. -/
theorem runs_query (ha : a.Ordered) (hrest : a.AtRest) (alarm : Eval Unit) (q : Query) :
    (q.visit (evaluateWatched alarm) a).2 = q.next a ∧ (q.next a).Ordered ∧
    a.Restored (q.next a) := by
  obtain ⟨hsame, ho, hr, -⟩ :=
    q.runs_visit (runs_evaluate alarm) hrest.root a ha hrest.depth (Extent.Within.refl _)
  rw [Query.next_eq, hsame]
  exact ⟨rfl, ho, hr⟩

theorem grown_query (a : Arena) (q : Query) : Grown none a (q.next a) := by
  rw [Query.next_eq]
  have hp (u : Nat) : Keeps (Grown none) (evaluate u) := fun b =>
    ((processes_evaluate (d := ⟨"", plainScope, root⟩)).keeps u b).grown
  exact q.keeps_visit hp a

theorem Reached.ordered (h : Reached inputs fills a) : a.Ordered ∧ a.AtRest := by
  induction h with
  | start => exact ordered_ofInputs inputs fills
  | query _ q ih =>
    obtain ⟨-, ho, hr⟩ := runs_query ih.1 ih.2 (pure ()) q
    exact ⟨ho, ih.2.restored hr⟩

/-- An arena that queries lead to is well founded: all numbers in it are in range, a vertex comes
after the one that it is a part of and before its parts, its alternatives and its stand-in, and a
scope comes after the one around it. So the walks along them end within the arena, and a lookup
finds a vertex that is there. -/
theorem ordered_of_reached (h : Reached inputs fills a) :
    a.Ordered ∧ a.Walkable ∧
      ∀ path w b, (Eval.lookup path).run a = (.ok w, b) → w < b.vertices.size := by
  obtain ⟨ho, hrest⟩ := h.ordered
  refine ⟨ho, ho.walkable, fun path w b hrun => ?_⟩
  obtain ⟨-, -, -, hw⟩ := tries_lookupBy (runs_evaluate (pure ())) hrest.root path a ho hrest.depth
    (Extent.Within.refl _)
  rw [show lookupBy evaluate path = Eval.lookup path from rfl, hrun] at hw
  exact hw w rfl

def sampleChoice : SchemaFile :=
  ⟨none, [], [.field (.regular "x") false (.binary .disjoin (.marked (.int 1)) (.int 2)),
    .field (.regular "y") false (.struct [.field (.regular "z") false (.ident "x")])]⟩

def sampleArena : Arena := (Query.faults true root).next (ofInputs [.file sampleChoice] [])

theorem ordered_of_reached_choice : Reached [.file sampleChoice] [] sampleArena ∧
    (sampleArena.vertex 1).forward = some 3 ∧ (sampleArena.vertex 5).copied = [1] ∧
    sampleArena.Ordered ∧ sampleArena.Walkable ∧
    ∀ path w b, (Eval.lookup path).run sampleArena = (.ok w, b) → w < b.vertices.size := by
  have hreached : Reached [.file sampleChoice] [] sampleArena := .query .start _
  exact ⟨hreached, by decide +kernel, by decide +kernel, ordered_of_reached hreached⟩

/-- A query leaves an arena at rest, however it ends: the counter is zero, nothing is withheld, no
vertex is in work, what was done is done, and nothing that was there is gone. The depth never passes
its limit on the way, so an alarm for that case makes no difference. -/
theorem atRest_of_query (h : Reached inputs fills a) (q : Query) :
    (q.next a).AtRest ∧
      (∀ v, (a.vertex v).stage = .done → ((q.next a).vertex v).stage = .done) ∧
      Grown none a (q.next a) ∧
      ∀ alarm, (q.visit (evaluateWatched alarm) a).2 = q.next a := by
  obtain ⟨ho, hrest⟩ := h.ordered
  have hgrown := grown_query a q
  refine ⟨hrest.restored (runs_query ho hrest (pure ()) q).2.2, fun v hv => ?_, hgrown,
    fun alarm => (runs_query ho hrest alarm q).1⟩
  rw [hgrown.eq_of_stage nofun (by rw [hv]; decide)]
  exact hv

theorem atRest_of_query_choice : Reached [.file sampleChoice] [] sampleArena ∧
    (sampleArena.vertex 5).stage = .done ∧
    let b := (Query.host root).next sampleArena
    b.AtRest ∧ (b.vertex 5).stage = .done ∧ Grown none sampleArena b ∧
      ∀ alarm, ((Query.host root).visit (evaluateWatched alarm) sampleArena).2 = b := by
  have hreached : Reached [.file sampleChoice] [] sampleArena := .query .start _
  have hdone : (sampleArena.vertex 5).stage = .done := by decide +kernel
  obtain ⟨hrest, hstage, hgrown, halarm⟩ := atRest_of_query hreached (Query.host root)
  exact ⟨hreached, hdone, hrest, hstage 5 hdone, hgrown, halarm⟩

end Arena

end SchemaMock
