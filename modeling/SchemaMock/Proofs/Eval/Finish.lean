import SchemaMock.Proofs.Eval.Pursuit

/-! # Finishing a vertex

A vertex that has no disjunction is finished: its lists get elements, which are under the definition
that the list is of, and fills, patterns and closed structs only narrow it.
-/

namespace SchemaMock

open Arena Eval

namespace Definition

variable {d : Definition} {a b : Arena} {v : Nat} {k : Kinds}

/-- A vertex has been unified under the definition, and only has to be marked as done. -/
structure Ready (d : Definition) (k : Kinds) (v : Nat) (a : Arena) : Prop where
  stage : (a.vertex v).stage = .processing
  forward : (a.vertex v).forward = none
  kinds : k.contains (a.vertex v).val.kinds = true
  elems : (a.vertex v).val.kinds = .ofList → ∀ w ∈ (a.vertex v).elems, d.Holds a .ofStruct w

/-- Bottom is under every definition. -/
theorem ready_of_isBottom (hs : (a.vertex v).stage = .processing)
    (hforward : (a.vertex v).forward = none) (hb : (a.vertex v).val.isBottom = true) :
    d.Ready k v a := by
  have hk := Val.kinds_of_isBottom hb
  refine ⟨hs, hforward, ?_, fun hl => ?_⟩
  · rw [hk]
    exact Kinds.contains_none k
  · rw [hk] at hl
    exact absurd hl (by decide)

theorem not_contains_list {k : Kinds} (h : Kinds.ofStruct.contains k = true) : k ≠ .ofList := by
  rintro rfl
  revert h
  decide

end Definition

namespace Eval

variable {d : Definition} {process : Nat → Eval Unit} {a : Arena} {v : Nat} {k : Kinds}

/-- A change of the vertex that sets no stand-in. -/
theorem keeps_change {f : Vertex → Vertex} (hf : ∀ x : Vertex, (f x).parent = x.parent ∧
    (f x).stage = x.stage ∧ (f x).forward = x.forward ∧ (f x).paths = x.paths ∧
    (f x).seeds = x.seeds) : Keeps (d.Within v) (update v f) := by
  intro a hs
  obtain ⟨hparent, hstage, hforward, hpaths, hseeds⟩ := hf (a.vertex v)
  refine Definition.worked_modify hs hparent hstage ?_ ?_ fun hl w hw => ?_
  · exact hpaths.symm ▸ List.prefix_rfl
  · exact hseeds.symm ▸ List.prefix_rfl
  · rw [hforward] at hw
    exact hl v w hw

/-! ## Elements -/

theorem keeps_element (lists : List ListPart) (index : Nat) :
    Keeps d.Beside (element v lists index) :=
  (keeps_vertex v).bind fun _ => (keeps_view _).bind fun _ => keeps_add _ _ _

theorem keeps_buildList : Keeps (d.Within v) (buildList v) := by
  unfold buildList
  refine (keeps_vertex v).bind fun x => ?_
  dsimp only
  split
  · refine Keeps.bind (keeps_change fun x => ⟨rfl, rfl, rfl, rfl, rfl⟩) fun _ => ?_
    split
    · exact (keeps_meet _).within
    · refine Keeps.bind ((keeps_mapM (keeps_element _) _).unifying v).within fun elems => ?_
      exact keeps_change fun x => ⟨rfl, rfl, rfl, rfl, rfl⟩
  · exact keeps_pure _

/-- An element of a list that is of the definition is under it. -/
theorem holds_element (hs : (a.vertex v).stage = .processing) (hd : d.Stands a) (hv : d.target < v)
    {lists : List ListPart} {p : ListPart} (hp : p ∈ lists) (helems : p.elems = [])
    (htail : p.tail = some (.ident d.name)) (hscope : p.scope = d.scope) (index : Nat) :
    d.Holds (element v lists index a).2 .ofStruct (element v lists index a).1 := by
  have hlt : v < a.vertices.size := lt_size_of_stage (by rw [hs]; decide)
  let paths := (a.vertex v).paths.map (·.child (.index index))
  let seeds := a.fillsAt paths ++ lists.filterMap (ListPart.conjunct? · index)
  have hrun : element v lists index a = a.add (.fresh (some v) paths seeds) := rfl
  have hw : (a.add (.fresh (some v) paths seeds)).2.vertex a.vertices.size =
      .fresh (some v) paths seeds := vertex_add _ _
  have hconj : ListPart.conjunct? p index = some (.of (.ident d.name) p.scope p.closed) := by
    simp [ListPart.conjunct?, helems, htail]
  have hmem : Conjunct.of (.ident d.name) p.scope p.closed ∈ seeds :=
    List.mem_append_right _ (List.mem_filterMap.mpr ⟨p, hp, hconj⟩)
  rw [hrun]
  refine .inl ⟨?_, ?_, ?_, ?_, ?_, ?_, ?_, ?_⟩
  · show a.vertices.size < _
    rw [size_add]
    exact Nat.lt_succ_self _
  · exact congrArg Vertex.stage hw
  · exact congrArg Vertex.forward hw
  · exact congrArg Vertex.elems hw
  · exact Nat.lt_trans hv hlt
  · rw [vertex_add_of_lt _ hd.lt_size]
    show ((a.add _).2.vertex a.vertices.size).parent ≠ _
    rw [hw]
    intro hparent
    have := hd.parent v hparent.symm
    omega
  · show d.Guarded _ ((a.add _).2.vertex a.vertices.size).seeds
    rw [hw]
    exact ⟨_, hmem, _, .name rfl hscope, by decide⟩
  · show d.target ∈ ((a.add _).2.vertex a.vertices.size).copied → _
    rw [hw]
    exact fun h => absurd h List.not_mem_nil

theorem holds_elements (hs : (a.vertex v).stage = .processing) (hl : a.Linked) (hd : d.Stands a)
    (hv : d.target < v) {lists : List ListPart} {p : ListPart} (hp : p ∈ lists)
    (helems : p.elems = []) (htail : p.tail = some (.ident d.name)) (hscope : p.scope = d.scope)
    (indices : List Nat) :
    ∀ w ∈ (indices.mapM (element v lists) a).1,
      d.Holds (indices.mapM (element v lists) a).2 .ofStruct w := by
  induction indices generalizing a with
  | nil => exact fun w hw => absurd hw List.not_mem_nil
  | cons i indices ih =>
    have hfirst := holds_element hs hd hv hp helems htail hscope i
    have hstep : d.Worked v a (element v lists i a).2 :=
      ((keeps_element (d := d) (v := v) lists i).unifying v a hs).1
    have hrest := keeps_mapM (keeps_element (d := d) (v := v) lists) indices (element v lists i a).2
    have hsd := hd.grown hstep.grown (Definition.owns hs)
    rw [run_mapM_cons]
    intro w hw
    rcases List.mem_cons.mp hw with rfl | hw
    · exact hrest.holds (hstep.linked hl) hsd _ _ hfirst
    · exact ih hstep.stage (hstep.linked hl) hsd w hw

def setElements (v : Nat) (lists : List ListPart) : Except (Nat × Nat) Nat → Eval Unit
  | .error (a, b) => meet v (.ofCause (.listLengths a b))
  | .ok length => do
    let elems ← (List.range length).mapM (element v lists)
    update v fun x => { x with elems := elems }

/-- Lists become elements, which are under the definition that one of the lists is of. -/
theorem holds_buildList (hs : (a.vertex v).stage = .processing) (hl : a.Linked) (hd : d.Stands a)
    (hv : d.target < v) (hforward : (a.vertex v).forward = none)
    (helems : (a.vertex v).elems = []) : ((buildList v a).2.vertex v).forward = none ∧
    (a.vertex v).val.kinds.contains ((buildList v a).2.vertex v).val.kinds = true ∧
    ((∃ p ∈ (a.vertex v).lists, p.elems = [] ∧ p.tail = some (.ident d.name) ∧ p.scope = d.scope) →
      ∀ w ∈ ((buildList v a).2.vertex v).elems, d.Holds (buildList v a).2 .ofStruct w) := by
  have hlt : v < a.vertices.size := lt_size_of_stage (by rw [hs]; decide)
  let lists := (a.vertex v).lists
  by_cases hempty : lists.isEmpty = true
  · have hrun : buildList v a = ((), a) := by
      show (if !lists.isEmpty then _ else _ : Eval Unit) a = _
      rw [hempty]
      rfl
    rw [hrun]
    refine ⟨hforward, Kinds.contains_refl _, fun _ w hw => ?_⟩
    rw [helems] at hw
    exact absurd hw List.not_mem_nil
  · let f : Vertex → Vertex :=
      fun x => { x with lists := [], openList := lists.all (·.tail.isSome) }
    let b := a.modify v f
    have hb : b.vertex v = f (a.vertex v) := vertex_modify f hlt
    have hwb : d.Worked v a b :=
      keeps_change (f := f) (fun _ => ⟨rfl, rfl, rfl, rfl, rfl⟩) a hs
    have hltb : v < b.vertices.size := by simpa [b] using hlt
    have hrun : buildList v a = setElements v lists (agreedLength lists) b := by
      show (if !lists.isEmpty then _ else _ : Eval Unit) a = _
      rw [Bool.not_eq_true] at hempty
      rw [hempty]
      rfl
    rw [hrun]
    cases agreedLength lists with
    | error lengths =>
      obtain ⟨hw, hr⟩ :=
        keeps_meet (d := d) (.ofCause (.listLengths lengths.1 lengths.2)) b hwb.stage
      refine ⟨hr.forward.trans (hb ▸ hforward), ?_, fun _ w hw => ?_⟩
      · have hk := hr.kinds
        rw [hb] at hk
        exact hk
      · have hsame : ((setElements v lists (.error lengths) b).2.vertex v).elems = _ := hr.elems
        rw [hsame, hb] at hw
        rw [show (f (a.vertex v)).elems = [] from helems] at hw
        exact absurd hw List.not_mem_nil
    | ok length =>
      let c := ((List.range length).mapM (element v lists) b).2
      let g : Vertex → Vertex := fun x =>
        { x with elems := ((List.range length).mapM (element v lists) b).1 }
      have hbc : d.Unifying v b c :=
        (keeps_mapM (keeps_element (d := d) (v := v) lists) (List.range length)).unifying v b
      obtain ⟨hwc, hr⟩ := hbc hwb.stage
      have hltc : v < c.vertices.size := lt_size_of_stage (by rw [hwc.stage]; decide)
      have hwg : d.Worked v c (c.modify v g) :=
        keeps_change (f := g) (fun _ => ⟨rfl, rfl, rfl, rfl, rfl⟩) c hwc.stage
      have hsb := hd.grown hwb.grown (Definition.owns hs)
      have hsc := hsb.grown hwc.grown (Definition.owns hwb.stage)
      show ((c.modify v g).vertex v).forward = none ∧
        Kinds.contains _ ((c.modify v g).vertex v).val.kinds =
        true ∧ (_ → ∀ w ∈ ((c.modify v g).vertex v).elems, d.Holds (c.modify v g) .ofStruct w)
      rw [vertex_modify g hltc]
      refine ⟨hr.forward.trans (hb ▸ hforward), ?_, ?_⟩
      · have hk := hr.kinds
        rw [hb] at hk
        exact hk
      · rintro ⟨p, hp, hpe, hpt, hps⟩ w hw
        refine hwg.holds (hwc.linked (hwb.linked hl)) hsc _ _ ?_
        exact holds_elements hwb.stage (hwb.linked hl) hsb hv hp hpe hpt hps _ w hw

/-! ## Fills, patterns and closed structs -/

section

variable (hp : ∀ u, Keeps d.Beside (process u))
include hp

theorem keeps_narrowing : Keeps (d.Unifying v) (do
    requireFilledParts v
    applyPatterns process v
    checkClosed process v) :=
  keeps_requireFilledParts.bind fun _ =>
    ((keeps_applyPatterns hp).unifying v).bind fun _ => (keeps_checkClosed hp).unifying v

theorem keeps_finish : Keeps (d.Within v) (finish process v) := by
  unfold finish
  refine (keeps_vertex v).bind fun x => ?_
  split
  · exact keeps_buildList.bind fun _ => (keeps_narrowing hp).within
  · exact keeps_pure _

/-- Finishing a vertex keeps it under the definition. -/
theorem ready_finish {kept : List Conjunct} {alts : List (List Alternative)}
    (h : d.Pursues k v a [] kept alts) (hno : (a.vertex v).val.isBottom = true ∨ alts = []) :
    d.Ready k v (finish process v a).2 := by
  by_cases hb : (a.vertex v).val.isBottom = true
  · have hrun : finish process v a = ((), a) := by
      show (if !(a.vertex v).val.isBottom then _ else _ : Eval Unit) a = _
      rw [hb]
      rfl
    rw [hrun]
    exact Definition.ready_of_isBottom h.stage h.forward hb
  · have hfixed : d.Fixed k kept := by
      rcases h.guarded with hbottom | ⟨c, hc, -⟩ | hf | ⟨c, -, -, hc⟩
      · exact absurd hbottom hb
      · exact absurd hc List.not_mem_nil
      · exact hf
      · rw [hno.resolve_left hb] at hc
        exact absurd hc List.not_mem_nil
    let b := (buildList v a).2
    let e := (do requireFilledParts v; applyPatterns process v; checkClosed process v : Eval Unit) b
    have hrun : finish process v a = e := by
      show (if !(a.vertex v).val.isBottom then _ else _ : Eval Unit) a = _
      rw [if_pos (by simpa using hb)]
      exact run_bind _ _ a
    obtain ⟨hforward, hk, helems⟩ :=
      holds_buildList h.stage h.linked h.stands h.after h.forward h.elems
    have hwb : d.Worked v a b := keeps_buildList a h.stage
    obtain ⟨hwe, hr⟩ := keeps_narrowing (d := d) (v := v) hp b hwb.stage
    have hnarrow : (a.vertex v).val.kinds.contains (e.2.vertex v).val.kinds = true :=
      Kinds.contains_trans hk hr.kinds
    rw [hrun]
    obtain ⟨c, hc, ⟨hstruct, hkc⟩ | ⟨hlist, hscope, hkc⟩⟩ := hfixed
    · have hs := Kinds.contains_trans ((h.met c hc).struct hstruct) hnarrow
      refine ⟨hwe.stage, hr.forward.trans hforward, Kinds.contains_trans hkc hs, fun hl => ?_⟩
      exact absurd hl (Definition.not_contains_list hs)
    · obtain ⟨hlk, p, hp, hpe, hpt, hps⟩ := (h.met c hc).list hlist
      refine ⟨hwe.stage, hr.forward.trans hforward,
        Kinds.contains_trans hkc (Kinds.contains_trans hlk hnarrow), fun _ w hw => ?_⟩
      rw [hr.elems] at hw
      refine hwe.holds (hwb.linked h.linked) (h.stands.grown hwb.grown (Definition.owns h.stage)) _
        _ ?_
      exact helems ⟨p, hp, hpe, hpt, hps.trans hscope⟩ w hw

end

end Eval

end SchemaMock
