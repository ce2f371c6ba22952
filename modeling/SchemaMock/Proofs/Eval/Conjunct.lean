import SchemaMock.Proofs.Eval.Unify

/-! # Taking conjuncts in

A conjunct refines the vertex that takes it in, but for the targets that it has copied: their seeds
come next. A vertex under a definition stays on the way to its kinds until no conjunct is left.
-/

namespace SchemaMock

open Arena Eval

namespace Definition

/-- A vertex has taken conjuncts in, and these come next. -/
structure Takes (d : Definition) (v : Nat) (a : Arena) (next : List Conjunct)
    (b : Arena) : Prop where
  worked : d.Worked v a b
  refined : ∃ targets,
    ({ a.vertex v with copied := (a.vertex v).copied ++ targets } : Vertex).Refined (b.vertex v) ∧
      ∀ t ∈ targets, ∀ s ∈ (a.vertex t).seeds, ∃ c ∈ next, c.source = s.source

variable {d : Definition} {a b e : Arena} {v : Nat} {next : List Conjunct}

theorem Unifying.takes (h : d.Unifying v a b) (hs : (a.vertex v).stage = .processing)
    (next : List Conjunct) : d.Takes v a next b := by
  obtain ⟨hw, hr⟩ := h hs
  refine ⟨hw, [], ?_, by simp⟩
  rw [List.append_nil]
  exact hr

theorem Takes.of_unifying (h : d.Takes v b next e) (hs : (a.vertex v).stage = .processing)
    (hab : d.Unifying v a b) : d.Takes v a next e := by
  obtain ⟨hw, hr⟩ := hab hs
  obtain ⟨targets, hre, hnext⟩ := h.refined
  refine ⟨hw.trans hs h.worked, targets, ?_, fun t ht s hmem => hnext t ht s (hw.grown.mem_seeds hmem)⟩
  refine Vertex.Refined.trans ?_ hre
  exact { hr with copied := congrArg (· ++ targets) hr.copied }

end Definition

namespace Eval

variable {d : Definition} {process : Nat → Eval Unit} {a : Arena} {v : Nat}

theorem takes_copyTarget (hs : (a.vertex v).stage = .processing) (target : Nat) (c : Conjunct) :
    d.Takes v a (copyTarget v target c a).1 (copyTarget v target c a).2 ∧
      (target ∈ (a.vertex v).copied ∨
        ∀ s ∈ (a.vertex target).seeds, ∃ n ∈ (copyTarget v target c a).1, n.source = s.source) := by
  by_cases hc : (a.vertex v).copied.contains target = true
  · have hrun : copyTarget v target c a = ([], a) := by
      show (if (a.vertex v).copied.contains target then (pure [] : Eval _) else _) a = _
      rw [if_pos hc]
      rfl
    rw [hrun]
    exact ⟨(Lasting.refl a : d.Unifying v a a).takes hs [], .inl (by simpa using hc)⟩
  · let f : Vertex → Vertex := fun x => { x with copied := x.copied ++ [target] }
    let y := (a.modify v f).vertex target
    let closed := c.closed || (y.paths.head?.map Path.hasDefinition).getD false
    have hrun : copyTarget v target c a =
        (y.seeds.map fun seed => { seed with closed := seed.closed || closed, group := c.group },
          (addPaths v y.paths (a.modify v f)).2) := by
      show (if (a.vertex v).copied.contains target then (pure [] : Eval _) else _) a = _
      rw [if_neg hc]
      rfl
    have hlt : v < a.vertices.size := lt_size_of_stage (by rw [hs]; decide)
    have hw : d.Worked v a (a.modify v f) :=
      Definition.worked_modify hs rfl rfl List.prefix_rfl List.prefix_rfl fun hl => hl v
    obtain ⟨hw', hr⟩ := keeps_addPaths (d := d) (v := v) y.paths (a.modify v f) hw.stage
    have hseeds : y.seeds = (a.vertex target).seeds := by
      by_cases ht : target = v
      · have hy : y = f (a.vertex v) := (congrArg _ ht).trans (vertex_modify f hlt)
        rw [hy, ht]
      · have hy : y = a.vertex target := vertex_modify_of_ne a f ht
        rw [hy]
    have hnext : ∀ s ∈ (a.vertex target).seeds, ∃ n ∈ (copyTarget v target c a).1,
        n.source = s.source := by
      intro s hmem
      rw [hrun]
      exact ⟨_, List.mem_map_of_mem (hseeds ▸ hmem), rfl⟩
    refine ⟨⟨?_, [target], ?_, ?_⟩, .inr hnext⟩
    · rw [hrun]
      exact hw.trans hs hw'
    · rw [hrun]
      rw [vertex_modify f hlt] at hr
      exact hr
    · intro t ht
      obtain rfl : t = target := by simpa using ht
      exact hnext

/-- A reference to a vertex, once it is resolved. -/
theorem addReference_of_vertex {x : Expr} {c : Conjunct} {target : Nat} {b : Arena}
    (hr : (resolve process c.scope x).run a = (.ok (.vertex target), b)) :
    addReference process v x c a =
      if target = v ∨ b.follow target = b.follow v then (.nothing, b)
      else if b.isAncestor target v then
        (.nothing, (meet v (.ofCause (.structuralCycle (b.pathText target))) b).2)
      else ({ Yield.nothing with next := (copyTarget v target c b).1 }, (copyTarget v target c b).2) := by
  simp only [addReference, bind, StateT.bind, hr]
  by_cases h : target = v ∨ b.follow target = b.follow v
  · rw [if_pos h]
    show (if target = v ∨ b.follow target = b.follow v then _ else _ : Eval Yield) b = _
    rw [if_pos h]
    rfl
  · rw [if_neg h]
    show (if target = v ∨ b.follow target = b.follow v then _ else _ : Eval Yield) b = _
    rw [if_neg h]
    show (if b.isAncestor target v then _ else _ : Eval Yield) b = _
    by_cases h' : b.isAncestor target v = true
    · rw [if_pos h', if_pos h']
      rfl
    · rw [if_neg h', if_neg h']
      rfl

variable (hp : ∀ u, Keeps d.Beside (process u))
include hp

theorem takes_addReference (hs : (a.vertex v).stage = .processing) (x : Expr) (c : Conjunct) :
    d.Takes v a (addReference process v x c a).1.next (addReference process v x c a).2 ∧
      (addReference process v x c a).1.kept ⊆ [c] := by
  have hresolve := (keeps_resolve hp keeps_alone c.scope x).unifying v a
  rcases hr : (resolve process c.scope x).run a with ⟨r, b⟩
  rw [hr] at hresolve
  have hsb := (hresolve hs).1.stage
  have hmeet (val : Val) : d.Takes v b [] (meet v val b).2 :=
    Definition.Unifying.takes (keeps_meet val b) hsb []
  suffices h : d.Takes v b (addReference process v x c a).1.next (addReference process v x c a).2 ∧
      (addReference process v x c a).1.kept ⊆ [c] from ⟨h.1.of_unifying hs hresolve, h.2⟩
  cases r with
  | error f =>
    have hrun : addReference process v x c a = (.keep c, (record v f b).2) := by
      simp only [addReference, bind, StateT.bind, hr]
      rfl
    rw [hrun]
    exact ⟨Definition.Unifying.takes (keeps_record f b) hsb [], List.Subset.refl _⟩
  | ok r =>
    cases r with
    | vertex target =>
      rw [addReference_of_vertex hr]
      split
      · exact ⟨Definition.Unifying.takes (Lasting.refl b) hsb [], List.nil_subset _⟩
      · split
        · exact ⟨hmeet _, List.nil_subset _⟩
        · exact ⟨(takes_copyTarget hsb target c).1, List.nil_subset _⟩
    | val val =>
      have hrun : addReference process v x c a = (.keep c, (meet v val b).2) := by
        simp only [addReference, bind, StateT.bind, hr]
        rfl
      rw [hrun]
      exact ⟨hmeet val, List.Subset.refl _⟩
    | builtin f =>
      have hrun : addReference process v x c a =
          (.nothing, (meet v (.ofCause (.builtinAsValue f)) b).2) := by
        simp only [addReference, bind, StateT.bind, hr]
        rfl
      rw [hrun]
      exact ⟨hmeet _, List.nil_subset _⟩
    | package name =>
      have hrun : addReference process v x c a =
          (.nothing, (meet v (.ofCause (.packageAsValue name)) b).2) := by
        simp only [addReference, bind, StateT.bind, hr]
        rfl
      rw [hrun]
      exact ⟨hmeet _, List.nil_subset _⟩

theorem takes_addExpr (hs : (a.vertex v).stage = .processing) (c : Conjunct) (x : Expr) :
    d.Takes v a (addExpr process v c x a).1.next (addExpr process v c x a).2 ∧
      (addExpr process v c x a).1.kept ⊆ [c] := by
  have hof (h : Keeps (d.Unifying v) (addExpr process v c x)) :
      d.Takes v a (addExpr process v c x a).1.next (addExpr process v c x a).2 :=
    Definition.Unifying.takes (h a) hs _
  have hmeet (val : Val) : Keeps (d.Unifying v) (do meet v val; return Yield.keep c : Eval Yield) :=
    (keeps_meet val).bind fun _ => keeps_pure _
  match x with
  | .ident name => exact takes_addReference hp hs (.ident name) c
  | .select base label => exact takes_addReference hp hs (.select base label) c
  | .index base position => exact takes_addReference hp hs (.index base position) c
  | .top => exact ⟨hof (keeps_pure _), List.Subset.refl _⟩
  | .marked _ => exact ⟨hof (keeps_pure _), List.nil_subset _⟩
  | .bottom | .null | .bool _ | .int _ | .float _ | .str _ =>
    exact ⟨hof (hmeet _), List.Subset.refl _⟩
  | .struct decls =>
    exact ⟨hof ((keeps_addStruct decls c).bind fun _ => keeps_pure _), List.Subset.refl _⟩
  | .list elems tail =>
    refine ⟨hof (Keeps.bind ((keeps_meet _).bind fun _ => keeps_update fun x => ?_) fun _ =>
      keeps_pure _), List.Subset.refl _⟩
    exact { Vertex.Refined.refl x with lists := List.subset_append_left _ _ }
  | .unary op operand =>
    refine ⟨hof (Keeps.bind ?_ fun _ => keeps_pure _), List.Subset.refl _⟩
    split
    · exact keeps_meetBound hp _ operand c.scope
    · exact keeps_meetScalar hp _ c.scope
  | .binary op lhs rhs =>
    have hscalar (op : BinaryOp) := keeps_meetScalar (v := v) hp (.binary op lhs rhs) c.scope
    cases op
    case unify | disjoin => exact ⟨hof (keeps_pure _), List.nil_subset _⟩
    all_goals exact ⟨hof ((hscalar _).bind fun _ => keeps_pure _), List.Subset.refl _⟩
  | .call func args =>
    exact ⟨hof (Keeps.bind (keeps_meetScalar hp (.call func args) c.scope) fun _ => keeps_pure _),
      List.Subset.refl _⟩

omit hp in
theorem addConjunct_of_expr {c : Conjunct} {x : Expr} (h : c.source = .expr x) :
    addConjunct process v c = addExpr process v c x := by
  rw [addConjunct, h]

theorem takes_addConjunct (hs : (a.vertex v).stage = .processing) (c : Conjunct) :
    d.Takes v a (addConjunct process v c a).1.next (addConjunct process v c a).2 ∧
      (addConjunct process v c a).1.kept ⊆ [c] := by
  cases hc : c.source with
  | expr x =>
    rw [addConjunct_of_expr hc]
    exact takes_addExpr hp hs c x
  | fault f =>
    have hrun : addConjunct process v c = (do meet v (.bottom f); return .keep c) := by
      rw [addConjunct, hc]
    rw [hrun]
    exact ⟨Definition.Unifying.takes ((keeps_meet (.bottom f)).bind (fun _ => keeps_pure _) a) hs _,
      List.Subset.refl _⟩

theorem keeps_addConjunct (c : Conjunct) : Keeps (d.Within v) (addConjunct process v c) :=
  fun _ hs => (takes_addConjunct hp hs c).1.worked

theorem keeps_addRounds (rounds : Nat) (work : List Conjunct) :
    Keeps (d.Within v) (addRounds process v rounds work) := by
  induction rounds generalizing work with
  | zero =>
    cases work with
    | nil => exact keeps_pure _
    | cons c work => exact (keeps_meet _).within.bind fun _ => keeps_pure _
  | succ rounds ih =>
    cases work with
    | nil => exact keeps_pure _
    | cons c work =>
      exact (keeps_mapM (keeps_addConjunct hp) _).bind fun ys => (ih _).bind fun _ => keeps_pure _

end Eval

end SchemaMock
