import SchemaMock.Proofs.Eval.Conjunct

/-! # A vertex on its way to a definition

While the conjuncts of a vertex under a definition are unified, one of those that are left, of those
that were kept, or of the alternatives that were put off sees to its kinds, or the vertex is bottom.
-/

namespace SchemaMock

open Arena Eval

namespace Definition

variable {d : Definition} {a b : Arena} {v : Nat} {k : Kinds} {x y : Vertex} {c : Conjunct}
  {todo kept more : List Conjunct} {alts : List (List Alternative)}

structure Met (d : Definition) (x : Vertex) (c : Conjunct) : Prop where
  struct : c.IsStruct → Kinds.ofStruct.contains x.val.kinds = true
  list : c.source = .expr (.listOf d.name) → Kinds.ofList.contains x.val.kinds = true ∧
    ∃ p ∈ x.lists, p.elems = [] ∧ p.tail = some (.ident d.name) ∧ p.scope = c.scope

theorem Met.refined (h : d.Met x c) (hr : x.Refined y) : d.Met y c := by
  refine ⟨fun hc => Kinds.contains_trans (h.struct hc) hr.kinds, fun hc => ?_⟩
  obtain ⟨hk, p, hp, hrest⟩ := h.list hc
  exact ⟨Kinds.contains_trans hk hr.kinds, p, hr.lists hp, hrest⟩

/-- One of the conjuncts sees to the kinds without a reference. -/
def Fixed (d : Definition) (k : Kinds) (cs : List Conjunct) : Prop :=
  ∃ c ∈ cs, (c.IsStruct ∧ k.contains .ofStruct = true) ∨
    (c.source = .expr (.listOf d.name) ∧ c.scope = d.scope ∧ k.contains .ofList = true)

/-- One of the disjunctions is between an instance and a list of instances. -/
def Offered (d : Definition) (k : Kinds) (alts : List (List Alternative)) : Prop :=
  ∃ c : Conjunct, c.scope = d.scope ∧ k.contains (Kinds.union .ofStruct .ofList) = true ∧
    c.alternatives (.oneOrMany d.name) ∈ alts

theorem Fixed.guarded (h : d.Fixed k kept) : d.Guarded k kept := by
  obtain ⟨c, hc, ⟨hs, hk⟩ | ⟨hs, hscope, hk⟩⟩ := h
  · exact ⟨c, hc, _, .struct hs, hk⟩
  · exact ⟨c, hc, _, .list hs hscope, hk⟩

/-- The vertex `v` on its way: `todo` is left to unify, `kept` holds in every alternative, and the
disjunctions `alts` will be decided. -/
structure Pursues (d : Definition) (k : Kinds) (v : Nat) (a : Arena) (todo kept : List Conjunct)
    (alts : List (List Alternative)) : Prop where
  stage : (a.vertex v).stage = .processing
  linked : a.Linked
  stands : d.Stands a
  after : d.target < v
  apart : (a.vertex v).parent ≠ (a.vertex d.target).parent
  forward : (a.vertex v).forward = none
  elems : (a.vertex v).elems = []
  met : ∀ c ∈ kept, d.Met (a.vertex v) c
  copied : (a.vertex v).val.isBottom = true ∨
    (d.target ∈ (a.vertex v).copied → ∃ c ∈ todo ++ kept, c.IsStruct)
  guarded : (a.vertex v).val.isBottom = true ∨ d.Guarded k todo ∨ d.Fixed k kept ∨ d.Offered k alts

/-- A vertex that has become bottom is under every definition. -/
theorem Pursues.bottom (h : d.Pursues k v a todo kept alts) (hu : d.Unifying v a b)
    (hb : (b.vertex v).val.isBottom = true) : d.Pursues k v b more kept alts := by
  have hlt : v < a.vertices.size := lt_size_of_stage (by rw [h.stage]; decide)
  obtain ⟨hw, hr⟩ := hu h.stage
  refine ⟨hw.stage, hw.linked h.linked, h.stands.grown hw.grown (owns h.stage), h.after, ?_,
    hr.forward.trans h.forward, hr.elems.trans h.elems, fun c hc => (h.met c hc).refined hr,
    .inl hb, .inl hb⟩
  rw [hw.grown.parent hlt, hw.grown.parent h.stands.lt_size]
  exact h.apart

end Definition

namespace Eval

variable {d : Definition} {process : Nat → Eval Unit} {a : Arena} {v : Nat} {k : Kinds}
  {c : Conjunct}

/-- A meet bounds the kinds of a vertex from then on. -/
theorem contains_of_meet {α : Type} (hs : (a.vertex v).stage = .processing) (val : Val)
    {m : Unit → Eval α} (hm : Keeps (d.Unifying v) (m ())) :
    val.kinds.contains (((meet v val >>= m) a).2.vertex v).val.kinds = true := by
  have hlt : v < a.vertices.size := lt_size_of_stage (by rw [hs]; decide)
  have hv : (a.modify v (·.meet val)).vertex v = (a.vertex v).meet val := vertex_modify _ hlt
  have hr := (hm (a.modify v (·.meet val)) (by rw [hv]; exact hs)).2.kinds
  rw [hv] at hr
  exact Kinds.contains_trans (Val.contains_kinds_meet _ _).2 hr

theorem resolve_name (h : d.Stands a) :
    (resolve process d.scope (.ident d.name)).run a = (.ok (.vertex d.target), a) := by
  have hname := h.lookupName
  show (ExceptT.run (do Attempt.ofExcept (← Attempt.perform (view (·.lookupName d.name d.scope)))) :
    Eval (Except Fault Resolved)) a = _
  rw [Attempt.run_bind]
  show (Attempt.ofExcept (a.lookupName d.name d.scope)).run a = _
  rw [hname]
  rfl

/-- A conjunct that is kept has been met. -/
theorem met_addConjunct (hs : (a.vertex v).stage = .processing) (c : Conjunct) :
    d.Met ((addConjunct process v c a).2.vertex v) c := by
  have hlt : v < a.vertices.size := lt_size_of_stage (by rw [hs]; decide)
  constructor
  · rintro ⟨decls, hc⟩
    rw [addConjunct_of_expr hc]
    show Kinds.contains _ ((addStruct v decls c a).2.vertex v).val.kinds = true
    unfold addStruct
    refine contains_of_meet (d := d) hs (.ofKinds .ofStruct) ?_
    refine ((keeps_addScope _).unifying v).bind fun scope => ?_
    refine (keeps_openGroup c).bind fun group => ?_
    exact (keeps_mapM (keeps_addDecl c scope group) decls).bind fun _ => keeps_pure _
  · intro hc
    rw [addConjunct_of_expr hc]
    let b := a.modify v (·.meet (.ofKinds .ofList))
    let p : ListPart := ⟨[], some (.ident d.name), c.scope, c.closed⟩
    let f : Vertex → Vertex := fun x => { x with lists := x.lists ++ [p] }
    have hb : b.vertex v = (a.vertex v).meet (.ofKinds .ofList) := vertex_modify _ hlt
    have hf : (b.modify v f).vertex v = f (b.vertex v) := vertex_modify f (by simpa [b] using hlt)
    show Kinds.contains _ ((b.modify v f).vertex v).val.kinds = true ∧
      ∃ p ∈ ((b.modify v f).vertex v).lists, _
    rw [hf, hb]
    have hk := (Val.contains_kinds_meet (a.vertex v).val (.ofKinds .ofList)).2
    exact ⟨hk, p, List.mem_append_right _ (List.mem_singleton_self p),
      rfl, rfl, rfl⟩

/-- The name of the definition is replaced by its struct, unless that has been copied before. -/
theorem struct_of_name {todo kept : List Conjunct} {alts : List (List Alternative)}
    (h : d.Pursues k v a todo kept alts) (hc : c.source = .expr (.ident d.name))
    (hscope : c.scope = d.scope) :
    ((addConjunct process v c a).2.vertex v).val.isBottom = true ∨ d.target ∈ (a.vertex v).copied ∨
      ∃ n ∈ (addConjunct process v c a).1.next, n.IsStruct := by
  have hlt : v < a.vertices.size := lt_size_of_stage (by rw [h.stage]; decide)
  have hresolve : (resolve process c.scope (.ident d.name)).run a =
      (.ok (.vertex d.target), a) := by
    rw [hscope]
    exact resolve_name h.stands
  have hother : ¬ (d.target = v ∨ a.follow d.target = a.follow v) := by
    rintro (he | he)
    · have := h.after
      omega
    · rw [follow_of_forward_eq_none h.forward] at he
      have hparent := h.linked.parent_follow d.target
      rw [he] at hparent
      exact h.apart hparent
  rw [addConjunct_of_expr hc]
  show ((addReference process v (.ident d.name) c a).2.vertex v).val.isBottom = true ∨ _ ∨
    ∃ n ∈ (addReference process v (.ident d.name) c a).1.next, n.IsStruct
  rw [addReference_of_vertex hresolve, if_neg hother]
  split
  · left
    have hv : (a.modify v (·.meet (.ofCause (.structuralCycle (a.pathText d.target))))).vertex v =
        (a.vertex v).meet (.ofCause (.structuralCycle (a.pathText d.target))) := vertex_modify _ hlt
    show ((a.modify v _).vertex v).val.isBottom = true
    rw [hv]
    exact Val.isBottom_meet_bottom _ _
  · right
    obtain ⟨s, hmem, decls, hdecls⟩ := h.stands.struct
    rcases (takes_copyTarget (d := d) h.stage d.target c).2 with ht | hnext
    · exact .inl ht
    · obtain ⟨n, hn, hsource⟩ := hnext s hmem
      exact .inr ⟨n, hn, decls, hsource.trans hdecls⟩

theorem mem_kept_of_struct (h : c.IsStruct) : c ∈ (addConjunct process v c a).1.kept := by
  obtain ⟨decls, hc⟩ := h
  rw [addConjunct_of_expr hc]
  exact List.mem_singleton_self c

theorem mem_kept_of_list {elems : List Expr} {tail : Option Expr}
    (h : c.source = .expr (.list elems tail)) : c ∈ (addConjunct process v c a).1.kept := by
  rw [addConjunct_of_expr h]
  exact List.mem_singleton_self c

variable (hp : ∀ u, Keeps d.Beside (process u))
include hp

/-- A conjunct is taken in. -/
theorem pursues_addConjunct {todo kept : List Conjunct} {alts : List (List Alternative)}
    (h : d.Pursues k v a (c :: todo) kept alts) :
    d.Pursues k v (addConjunct process v c a).2 (todo ++ (addConjunct process v c a).1.next)
      (kept ++ (addConjunct process v c a).1.kept)
      (alts ++ (addConjunct process v c a).1.disjunctions) := by
  obtain ⟨ht, hkept⟩ := takes_addConjunct (d := d) hp h.stage c
  obtain ⟨targets, hr, hnext⟩ := ht.refined
  have hmet : d.Met ((addConjunct process v c a).2.vertex v) c := met_addConjunct h.stage c
  have hlt : v < a.vertices.size := lt_size_of_stage (by rw [h.stage]; decide)
  have hg := ht.worked.grown
  refine ⟨ht.worked.stage, ht.worked.linked h.linked, h.stands.grown hg (Definition.owns h.stage),
    h.after, ?_, hr.forward.trans h.forward, hr.elems.trans h.elems, ?_, ?_, ?_⟩
  · rw [hg.parent hlt, hg.parent h.stands.lt_size]
    exact h.apart
  · intro n hn
    rcases List.mem_append.mp hn with hn | hn
    · have hn : d.Met { a.vertex v with copied := (a.vertex v).copied ++ targets } n :=
        ⟨(h.met n hn).struct, (h.met n hn).list⟩
      exact hn.refined hr
    · obtain rfl : n = c := by simpa using hkept hn
      exact hmet
  · refine h.copied.imp hr.bottom fun hcopied htarget => ?_
    rw [hr.copied] at htarget
    rcases List.mem_append.mp htarget with htarget | htarget
    · obtain ⟨n, hn, hs⟩ := hcopied htarget
      rcases List.mem_append.mp hn with hn | hn
      · rcases List.mem_cons.mp hn with rfl | hn
        · exact ⟨n, by simp [mem_kept_of_struct hs], hs⟩
        · exact ⟨n, by simp [hn], hs⟩
      · exact ⟨n, by simp [hn], hs⟩
    · obtain ⟨s, hmem, decls, hdecls⟩ := h.stands.struct
      obtain ⟨n, hn, hsource⟩ := hnext d.target htarget s hmem
      exact ⟨n, by simp [hn], decls, hsource.trans hdecls⟩
  · rcases h.guarded with hbottom | ⟨n, hn, l, hl, hk⟩ | ⟨n, hn, hfix⟩ | ⟨n, hscope, hk, hmem⟩
    · exact .inl (hr.bottom hbottom)
    · rcases List.mem_cons.mp hn with rfl | hn
      · cases hl with
        | struct hs => exact .inr (.inr (.inl ⟨n, by simp [mem_kept_of_struct hs], .inl ⟨hs, hk⟩⟩))
        | list hs hscope =>
          exact .inr (.inr (.inl ⟨n, by simp [mem_kept_of_list hs], .inr ⟨hs, hscope, hk⟩⟩))
        | either hs hscope =>
          refine .inr (.inr (.inr ⟨n, hscope, hk, List.mem_append_right _ ?_⟩))
          rw [addConjunct_of_expr hs]
          exact List.mem_singleton_self _
        | name hs hscope =>
          rcases struct_of_name h hs hscope with hb | hcopied | ⟨m, hm, hs⟩
          · exact .inl hb
          · rcases h.copied with hb | hstruct
            · exact .inl (hr.bottom hb)
            · obtain ⟨m, hm, decls, hms⟩ := hstruct hcopied
              rcases List.mem_append.mp hm with hm | hm
              · rcases List.mem_cons.mp hm with rfl | hm
                · rw [hs] at hms
                  cases hms
                · exact .inr (.inl ⟨m, by simp [hm], _, .struct ⟨decls, hms⟩, hk⟩)
              · exact .inr (.inr (.inl ⟨m, by simp [hm], .inl ⟨⟨decls, hms⟩, hk⟩⟩))
          · exact .inr (.inl ⟨m, by simp [hm], _, .struct hs, hk⟩)
      · exact .inr (.inl ⟨n, by simp [hn], l, hl, hk⟩)
    · exact .inr (.inr (.inl ⟨n, by simp [hn], hfix⟩))
    · exact .inr (.inr (.inr ⟨n, hscope, hk, by simp [hmem]⟩))

theorem pursues_mapM (work : List Conjunct) {todo kept : List Conjunct}
    {alts : List (List Alternative)} (h : d.Pursues k v a (work ++ todo) kept alts) :
    d.Pursues k v (work.mapM (addConjunct process v) a).2
      (todo ++ (work.mapM (addConjunct process v) a).1.flatMap (·.next))
      (kept ++ (work.mapM (addConjunct process v) a).1.flatMap (·.kept))
      (alts ++ (work.mapM (addConjunct process v) a).1.flatMap (·.disjunctions)) := by
  induction work generalizing a todo kept alts with
  | nil =>
    show d.Pursues k v a (todo ++ []) (kept ++ []) (alts ++ [])
    simpa using h
  | cons c work ih =>
    rw [List.cons_append] at h
    have hc := pursues_addConjunct hp h
    rw [List.append_assoc] at hc
    have hwork := ih hc
    rw [run_mapM_cons]
    simpa only [List.flatMap_cons, List.append_assoc] using hwork

omit hp in
theorem foldl_append (ys : List Yield) (y : Yield) : ys.foldl Yield.append y =
    ⟨y.next ++ ys.flatMap (·.next), y.kept ++ ys.flatMap (·.kept),
      y.disjunctions ++ ys.flatMap (·.disjunctions)⟩ := by
  induction ys generalizing y with
  | nil => simp
  | cons z ys ih => simp [ih, Yield.append]

/-- When no conjunct is left, those that were kept or the disjunctions see to the kinds. -/
theorem pursues_addRounds (rounds : Nat) (work : List Conjunct) {kept : List Conjunct}
    {alts : List (List Alternative)} (h : d.Pursues k v a work kept alts) :
    d.Pursues k v (addRounds process v rounds work a).2 []
      (kept ++ (addRounds process v rounds work a).1.1)
      (alts ++ (addRounds process v rounds work a).1.2) := by
  induction rounds generalizing a work kept alts with
  | zero =>
    cases work with
    | nil =>
      show d.Pursues k v a [] (kept ++ []) (alts ++ [])
      simpa using h
    | cons c work =>
      show d.Pursues k v (meet v (.ofCause .evaluationDepth) a).2 [] (kept ++ []) (alts ++ [])
      have hlt : v < a.vertices.size := lt_size_of_stage (by rw [h.stage]; decide)
      have hv : (meet v (.ofCause .evaluationDepth) a).2.vertex v =
          (a.vertex v).meet (.ofCause .evaluationDepth) := vertex_modify _ hlt
      simp only [List.append_nil]
      refine h.bottom (keeps_meet _ a) ?_
      rw [hv]
      exact Val.isBottom_meet_bottom _ _
  | succ rounds ih =>
    cases work with
    | nil =>
      show d.Pursues k v a [] (kept ++ []) (alts ++ [])
      simpa using h
    | cons c work =>
      have hround := pursues_mapM hp (c :: work) ((List.append_nil (c :: work)).symm ▸ h)
      let ys := (c :: work).mapM (addConjunct process v) a
      let r := addRounds process v rounds (ys.1.foldl Yield.append .nothing).next ys.2
      have hrun : addRounds process v (rounds + 1) (c :: work) a =
          (((ys.1.foldl Yield.append .nothing).kept ++ r.1.1,
            (ys.1.foldl Yield.append .nothing).disjunctions ++ r.1.2), r.2) := rfl
      have hall : ys.1.foldl Yield.append .nothing = ⟨ys.1.flatMap (·.next), ys.1.flatMap (·.kept),
          ys.1.flatMap (·.disjunctions)⟩ := foldl_append ys.1 .nothing
      have hrest := ih (ys.1.foldl Yield.append .nothing).next (by rw [hall]; exact hround)
      rw [hrun]
      show d.Pursues k v r.2 [] (kept ++ ((ys.1.foldl Yield.append .nothing).kept ++ r.1.1))
        (alts ++ ((ys.1.foldl Yield.append .nothing).disjunctions ++ r.1.2))
      rw [← List.append_assoc, ← List.append_assoc, hall]
      exact hrest

end Eval

end SchemaMock
