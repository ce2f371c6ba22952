import SchemaMock.Proofs.Combinations
import SchemaMock.Proofs.Eval.Finish

/-! # Deciding disjunctions

Every choice is tried in a vertex that stands in for the one that is decided, with its parent and
the targets that it has copied. When the vertex is under a definition, so is each of its stand-ins,
and then the vertex is, whether one of them is chosen or the decision is left open.
-/

namespace SchemaMock

open Arena Eval

/-- A disjunction of which every alternative failed finally has failed finally. -/
theorem Fault.isIncomplete_noAlternative {failures : List Fault}
    (h : ∀ f ∈ failures, f.isIncomplete = false) :
    (Fault.mk .noAlternative "" failures).isIncomplete = false := by
  cases failures with
  | nil => rfl
  | cons f failures =>
    have hf := h f List.mem_cons_self
    simp [Fault.isIncomplete, Cause.kind, Fault.allIncomplete, hf]

def Vertex.standIn (x : Vertex) (seeds : List Conjunct) : Vertex :=
  { Vertex.fresh x.parent x.paths seeds with copied := x.copied }

/-- The vertex `w` can stand in for `v`. -/
structure Arena.StandIn (a : Arena) (v w : Nat) : Prop where
  after : v < w
  lt_size : w < a.vertices.size
  parent : (a.vertex w).parent = (a.vertex v).parent

theorem Arena.StandIn.grown {a b : Arena} {v w : Nat} {own : Option Nat} (h : a.StandIn v w)
    (hg : Grown own a b) : b.StandIn v w := by
  refine ⟨h.after, Nat.lt_of_lt_of_le h.lt_size hg.size, ?_⟩
  rw [hg.parent h.lt_size, hg.parent (Nat.lt_trans h.after h.lt_size)]
  exact h.parent

namespace Definition

variable {d : Definition} {a b : Arena} {v w : Nat} {k : Kinds} {seeds : List Conjunct}

/-- What trying choices does: the vertex that is decided is refined, and in the end nothing stands
in for it. -/
structure Tried (d : Definition) (v : Nat) (a b : Arena) : Prop where
  worked : d.Worked v a b
  refined :
    ({ a.vertex v with forward := none } : Vertex).Refined { b.vertex v with forward := none }
  forward : (a.vertex v).forward = none → (b.vertex v).forward = none

/-- A step in the decision of `v`. -/
def Trying (d : Definition) (v : Nat) (a b : Arena) : Prop :=
  (a.vertex v).stage = .processing → d.Tried v a b

instance : Lasting (d.Trying v) where
  refl _ hs := ⟨.refl hs, .refl _, id⟩
  trans h h' hs := by
    obtain ⟨hw, hr, hf⟩ := h hs
    obtain ⟨hw', hr', hf'⟩ := h' hw.stage
    exact ⟨hw.trans hs hw', hr.trans hr', hf' ∘ hf⟩

theorem Unifying.trying (h : d.Unifying v a b) : d.Trying v a b := by
  intro hs
  obtain ⟨hw, hr⟩ := h hs
  exact ⟨hw, { hr with forward := rfl }, fun hf => hr.forward.trans hf⟩

/-- A vertex may be given a stand-in, or none. -/
theorem worked_forward (hs : (a.vertex v).stage = .processing) {forward : Option Nat}
    (hf : ∀ w, forward = some w → a.StandIn v w) :
    d.Worked v a (a.modify v fun x => { x with forward := forward }) :=
  worked_modify hs rfl rfl List.prefix_rfl List.prefix_rfl fun _ w hw =>
    ⟨(hf w hw).after, (hf w hw).lt_size, (hf w hw).parent⟩

theorem Fulfils.beside (h : d.Fulfils a k w) (hl : a.Linked) (hd : d.Stands a) (hb : d.Beside a b) :
    d.Fulfils b k w := h.grown hb.grown nofun (hb.holds hl hd _)

theorem Fulfils.worked (h : d.Fulfils a k w) (hs : (a.vertex v).stage = .processing) (hl : a.Linked)
    (hd : d.Stands a) (hw : d.Worked v a b) : d.Fulfils b k w :=
  h.grown hw.grown (owns hs) (hw.holds hl hd _)

/-- A vertex has been unified or decided under the definition, and only has to be marked as done. -/
def Ended (d : Definition) (k : Kinds) (v : Nat) (a : Arena) : Prop :=
  d.Ready k v a ∨ (a.vertex v).stage = .processing ∧
    ∃ w, (a.vertex v).forward = some w ∧ v < w ∧ d.Fulfils a k w

/-- A vertex that stands in for `v` with these seeds is under the definition. -/
structure Admits (d : Definition) (k : Kinds) (v : Nat) (a : Arena) (seeds : List Conjunct) :
    Prop where
  after : d.target < v
  apart : (a.vertex v).parent ≠ (a.vertex d.target).parent
  guarded : d.Guarded k seeds
  copied : d.target ∈ (a.vertex v).copied → ∃ c ∈ seeds, c.IsStruct

theorem Admits.tried (h : d.Admits k v a seeds) (hs : (a.vertex v).stage = .processing)
    (hd : d.Stands a) (ht : d.Tried v a b) : d.Admits k v b seeds := by
  have hlt : v < a.vertices.size := lt_size_of_stage (by rw [hs]; decide)
  have hcopied : (b.vertex v).copied = (a.vertex v).copied := ht.refined.copied
  refine ⟨h.after, ?_, h.guarded, ?_⟩
  · rw [ht.worked.grown.parent hlt, ht.worked.grown.parent hd.lt_size]
    exact h.apart
  · rw [hcopied]
    exact h.copied

/-- Each choice of a vertex under the definition is under it too. -/
theorem Pursues.admits {kept : List Conjunct} {alts choices : List (List Alternative)}
    {choice : List Alternative} (h : d.Pursues k v a [] kept alts)
    (hb : (a.vertex v).val.isBottom = false) (hcomb : combinations alts = some choices)
    (hc : choice ∈ choices) : d.Admits k v a (kept ++ choice.map (·.conjunct)) := by
  have hbottom : ¬ (a.vertex v).val.isBottom = true := by simp [hb]
  have hkept : kept ⊆ kept ++ choice.map (·.conjunct) := List.subset_append_left _ _
  refine ⟨h.after, h.apart, ?_, fun ht => ?_⟩
  · rcases h.guarded.resolve_left hbottom with ⟨c, hc, -⟩ | hf | ⟨c, hscope, hk, hmem⟩
    · exact absurd hc List.not_mem_nil
    · exact hf.guarded.mono hkept
    · obtain ⟨x, hx, hchosen⟩ := mem_of_combinations hcomb hc _ hmem
      have hx : x.conjunct = { c with source := .expr (.ident d.name) } ∨
          x.conjunct = { c with source := .expr (.listOf d.name) } := by
        have hall : c.alternatives (.oneOrMany d.name) =
          [⟨{ c with source := .expr (.ident d.name) }, false⟩,
            ⟨{ c with source := .expr (.listOf d.name) }, false⟩] := rfl
        rw [hall] at hx
        rcases List.mem_cons.mp hx with rfl | hx
        · exact .inl rfl
        · exact .inr (congrArg Alternative.conjunct (List.mem_singleton.mp hx))
      have hin := List.mem_append_right kept (List.mem_map_of_mem (f := (·.conjunct)) hchosen)
      rcases hx with he | he
      · refine ⟨x.conjunct, hin, .ofStruct, ?_, Kinds.contains_trans hk (by decide)⟩
        rw [he]
        exact .name rfl hscope
      · refine ⟨x.conjunct, hin, .ofList, ?_, Kinds.contains_trans hk (by decide)⟩
        rw [he]
        exact .list rfl hscope
  · obtain ⟨c, hc, hstruct⟩ := h.copied.resolve_left hbottom ht
    exact ⟨c, hkept (by simpa using hc), hstruct⟩

end Definition

namespace Eval

variable {d : Definition} {process : Nat → Eval Unit} {a b : Arena} {v w : Nat} {k : Kinds}
  {seeds : List Conjunct}

/-! ## Stand-ins -/

theorem run_stand (v : Nat) (seeds : List Conjunct) (a : Arena) :
    stand v seeds a = a.add ((a.vertex v).standIn seeds) := by
  let f : Vertex → Vertex := fun y => { y with copied := (a.vertex v).copied }
  have hrun : stand v seeds a = (a.vertices.size,
      (a.add (.fresh (a.vertex v).parent (a.vertex v).paths seeds)).2.modify a.vertices.size f) :=
      rfl
  rw [hrun, modify_add]
  rfl

theorem keeps_stand (v : Nat) (seeds : List Conjunct) : Keeps d.Beside (stand v seeds) := by
  intro a
  rw [run_stand]
  exact Definition.beside_add a rfl

theorem standIn_stand (hv : v < a.vertices.size) (seeds : List Conjunct) :
    (stand v seeds a).2.StandIn v (stand v seeds a).1 := by
  rw [run_stand]
  refine ⟨hv, ?_, ?_⟩
  · rw [size_add]
    exact Nat.lt_succ_self _
  · rw [vertex_add_of_lt _ hv]
    have hx := congrArg Vertex.parent (vertex_add a ((a.vertex v).standIn seeds))
    exact hx

/-- A stand-in awaits its evaluation under the definition. -/
theorem awaits_stand (hv : v < a.vertices.size) (hd : d.Stands a) (h : d.Admits k v a seeds) :
    d.Awaits (stand v seeds a).2 k (stand v seeds a).1 := by
  rw [run_stand]
  have hx := vertex_add a ((a.vertex v).standIn seeds)
  show d.Awaits (a.add ((a.vertex v).standIn seeds)).2 k a.vertices.size
  refine ⟨?_, ?_, ?_, ?_, Nat.lt_trans h.after hv, ?_, ?_, ?_⟩
  · rw [size_add]
    exact Nat.lt_succ_self _
  · exact congrArg Vertex.stage hx
  · exact congrArg Vertex.forward hx
  · exact congrArg Vertex.elems hx
  · rw [hx, vertex_add_of_lt _ hd.lt_size]
    exact h.apart
  · rw [hx]
    exact h.guarded
  · rw [hx]
    exact h.copied

/-- What a computation has to do for vertices under a definition when it processes them. -/
structure Processes (d : Definition) (process : Nat → Eval Unit) : Prop where
  keeps : ∀ u, Keeps d.Beside (process u)
  fulfils {a : Arena} {k : Kinds} {u : Nat} : a.Linked → d.Stands a → d.Awaits a k u →
    d.Fulfils (process u a).2 k u

theorem keeps_withheld (paths : List Path) :
    Keeps d.Beside (fun a => ((), { a with withheld := paths }) : Eval Unit) :=
  fun _ => Definition.beside_of_eq rfl rfl

theorem keeps_withholding {α : Type} {R : Arena → Arena → Prop} [Lasting R] {m : Eval α}
    (hR : ∀ a b, d.Beside a b → R a b) (hm : Keeps R m) (paths : List Path) :
    Keeps R (withholding paths m) := by
  intro a
  let b := { a with withheld := a.withheld ++ paths }
  refine Lasting.trans (hR a b (keeps_withheld _ a)) ?_
  exact Lasting.trans (hm b) (hR _ _ (keeps_withheld a.withheld (m b).2))

/-! ## Choices -/

/-- The vertex that is decided follows its stand-in while that is evaluated. -/
theorem run_tryChoice (v : Nat) (seeds : List Conjunct) (a : Arena) :
    tryChoice process v seeds a =
      let w := (stand v seeds a).1
      let r := faults process false w ((stand v seeds a).2.modify v ({ · with forward := some w }))
      ((w, r.1.filter (!·.isIncomplete)), r.2.modify v ({ · with forward := none })) := rfl

theorem run_tryChoices (v : Nat) (kept : List Conjunct) (alts : List (List Alternative))
    (choice : List Alternative) (choices : List (List Alternative)) (a : Arena) :
    tryChoices process v kept alts (choice :: choices) a =
      let seeds := kept ++ choice.map (·.conjunct)
      let r := tryChoice process v seeds a
      let rest := tryChoices process v kept alts choices r.2
      (((if r.1.2.isEmpty then [⟨seeds, r.1.1, isDefaultChoice alts choice⟩] else []) ++ rest.1.1,
        r.1.2 ++ rest.1.2), rest.2) := by
  let seeds := kept ++ choice.map (·.conjunct)
  let r := tryChoice process v seeds a
  let rest := tryChoices process v kept alts choices r.2
  show (if r.1.2.isEmpty then
      pure (⟨seeds, r.1.1, isDefaultChoice alts choice⟩ :: rest.1.1, rest.1.2)
    else pure (rest.1.1, r.1.2 ++ rest.1.2) : Eval (List Survivor × List Fault)) rest.2 =
    (((if r.1.2.isEmpty then [⟨seeds, r.1.1, isDefaultChoice alts choice⟩] else []) ++ rest.1.1,
      r.1.2 ++ rest.1.2), rest.2)
  by_cases h : r.1.2.isEmpty = true
  · rw [if_pos h, if_pos h, List.isEmpty_iff.mp h]
    rfl
  · rw [if_neg h, if_neg h]
    rfl

section

variable (hp : ∀ u, Keeps d.Beside (process u))
include hp

theorem tried_tryChoice (hs : (a.vertex v).stage = .processing) (seeds : List Conjunct) :
    d.Tried v a (tryChoice process v seeds a).2 ∧
      (tryChoice process v seeds a).2.StandIn v (tryChoice process v seeds a).1.1 := by
  have hlt : v < a.vertices.size := lt_size_of_stage (by rw [hs]; decide)
  let w := (stand v seeds a).1
  let b := (stand v seeds a).2
  let c := b.modify v ({ · with forward := some w })
  let e := (faults process false w c).2
  have hw : b.StandIn v w := standIn_stand hlt seeds
  obtain ⟨hwb, hrb⟩ := (keeps_stand (d := d) v seeds a).unifying v hs
  have hltb : v < b.vertices.size := lt_size_of_stage (by rw [hwb.stage]; decide)
  have hwc : d.Worked v b c := Definition.worked_forward hwb.stage fun u hu => by
    cases hu
    exact hw
  obtain ⟨hwe, hre⟩ := (keeps_faults hp false w).unifying v c hwc.stage
  have hlte : v < e.vertices.size := lt_size_of_stage (by rw [hwe.stage]; decide)
  have hwg : d.Worked v e (e.modify v ({ · with forward := none })) :=
    Definition.worked_forward hwe.stage fun u hu => by cases hu
  have hall := hwc.trans hwb.stage (hwe.trans hwc.stage hwg)
  rw [run_tryChoice]
  refine ⟨⟨hwb.trans hs hall, ?_, fun _ => ?_⟩, hw.grown hall.grown⟩
  · show Vertex.Refined _ { (e.modify v _).vertex v with forward := none }
    rw [vertex_modify _ hlte]
    have hc : c.vertex v = { b.vertex v with forward := some w } := vertex_modify _ hltb
    rw [hc] at hre
    have hrb : ({ a.vertex v with forward := none } : Vertex).Refined
        { b.vertex v with forward := none } := { hrb with forward := rfl }
    exact hrb.trans { hre with forward := rfl }
  · show ((e.modify v _).vertex v).forward = none
    rw [vertex_modify _ hlte]

theorem keeps_tryChoices (kept : List Conjunct) (alts choices : List (List Alternative)) :
    Keeps (d.Trying v) (tryChoices process v kept alts choices) := by
  induction choices with
  | nil => exact keeps_pure _
  | cons choice choices ih =>
    rw [tryChoices]
    refine Keeps.bind (fun a hs => (tried_tryChoice hp hs _).1) fun (w, found) => ?_
    refine ih.bind fun (survivors, failures) => ?_
    dsimp only
    split
    · exact keeps_pure _
    · exact keeps_pure _

/-- Every survivor is the stand-in for a choice. -/
theorem standIn_tryChoices (kept : List Conjunct) (alts choices : List (List Alternative))
    (hs : (a.vertex v).stage = .processing) :
    ∀ s ∈ (tryChoices process v kept alts choices a).1.1,
      (tryChoices process v kept alts choices a).2.StandIn v s.vertex ∧
        ∃ choice ∈ choices, s.seeds = kept ++ choice.map (·.conjunct) := by
  induction choices generalizing a with
  | nil => exact fun s hmem => absurd hmem List.not_mem_nil
  | cons choice choices ih =>
    obtain ⟨htried, hstand⟩ := tried_tryChoice (d := d) hp hs (kept ++ choice.map (·.conjunct))
    have hrest := keeps_tryChoices (d := d) hp kept alts choices _ htried.worked.stage
    intro s hmem
    rw [run_tryChoices] at hmem ⊢
    rcases List.mem_append.mp hmem with hmem | hmem
    · split at hmem
      · obtain rfl := List.mem_singleton.mp hmem
        exact ⟨hstand.grown hrest.worked.grown, choice, by simp, rfl⟩
      · exact absurd hmem List.not_mem_nil
    · obtain ⟨hs, c, hc, he⟩ := ih htried.worked.stage s hmem
      exact ⟨hs, c, by simp [hc], he⟩

end

/-! ## The outcome -/

variable (process) in
theorem subset_narrow (survivors : List Survivor) (a : Arena) :
    (narrow process survivors a).1 ⊆ survivors := by
  have hlast (preferred : List Survivor) : ((do
      if 1 < preferred.length then
        if ← exportAlike process none (preferred.map (·.vertex)) then return preferred.take 1
      return preferred : Eval (List Survivor)) a).1 ⊆ preferred := by
    split
    · rw [run_bind]
      cases (exportAlike process none (preferred.map (·.vertex)) a).1
      · exact List.Subset.refl _
      · exact List.take_subset 1 preferred
    · exact List.Subset.refl _
  refine List.Subset.trans (hlast _) ?_
  split
  · exact List.filter_sublist.subset
  · exact List.Subset.refl _

theorem run_forwardTo (v : Nat) (s : Survivor) (a : Arena) :
    forwardTo process v s a =
      let r := if a.hasFillsBelow (a.vertex v).paths then stand v s.seeds a else (s.vertex, a)
      process r.1 (r.2.modify v ({ · with forward := some r.1 })) := by
  by_cases h : a.hasFillsBelow (a.vertex v).paths = true
  · rw [if_pos h]
    show (if a.hasFillsBelow (a.vertex v).paths then _ else _ : Eval Unit) a = _
    rw [if_pos h]
    rfl
  · rw [if_neg h]
    show (if a.hasFillsBelow (a.vertex v).paths then _ else _ : Eval Unit) a = _
    rw [if_neg h]
    rfl

theorem run_leaveOpen (v : Nat) (survivors : List Survivor) (a : Arena) :
    leaveOpen v survivors a =
      let vals := survivors.map fun s => (a.vertex (a.follow s.vertex)).val
      ((), a.modify v fun x => { x with
        val := .ofKinds (vals.foldl (fun k val => k.union val.kinds) .none)
        disjuncts := survivors.map (·.vertex)
        pending := x.pending ++ [.of (.unresolved (vals.map describe))] }) := by
  have hvals (survivors : List Survivor) : (survivors.mapM fun s => do
      return (← vertex (← view (·.follow s.vertex))).val : Eval (List Val)) a =
        (survivors.map fun s => (a.vertex (a.follow s.vertex)).val, a) := by
    induction survivors with
    | nil => rfl
    | cons s survivors ih =>
      rw [List.mapM_cons, run_bind]
      show ((survivors.mapM _ : Eval (List Val)) >>= _) a = _
      rw [run_bind, ih]
      rfl
  show ((survivors.mapM _ : Eval (List Val)) >>= _) a = _
  rw [run_bind, hvals]
  rfl

theorem run_withholding {α : Type} (paths : List Path) (m : Eval α) (a : Arena) :
    withholding paths m a =
      let r := m { a with withheld := a.withheld ++ paths }
      (r.1, { r.2 with withheld := a.withheld }) := rfl

theorem run_decideChoice {alts choices : List (List Alternative)}
    (hcomb : combinations alts = some choices) (v : Nat) (kept : List Conjunct) (a : Arena) :
    decideChoice process v kept alts a =
      let r := withholding (a.vertex v).paths (tryChoices process v kept alts choices) a
      if r.1.1.isEmpty then meet v (.bottom ⟨.noAlternative, "", r.1.2⟩) r.2
      else
        let n := narrow process r.1.1 r.2
        match n.1 with
        | [s] => forwardTo process v s n.2
        | survivors => leaveOpen v survivors n.2 := by
  let r := withholding (a.vertex v).paths (tryChoices process v kept alts choices) a
  let n := narrow process r.1.1 r.2
  simp only [decideChoice, hcomb]
  show (if r.1.1.isEmpty then meet v (.bottom ⟨.noAlternative, "", r.1.2⟩) else _ : Eval Unit) r.2 =
    if r.1.1.isEmpty then meet v (.bottom ⟨.noAlternative, "", r.1.2⟩) r.2
    else match n.1 with
      | [s] => forwardTo process v s n.2
      | survivors => leaveOpen v survivors n.2
  split
  · rfl
  · show (match n.1 with
      | [s] => forwardTo process v s
      | survivors => leaveOpen v survivors : Eval Unit) n.2 = _
    split <;> simp_all

section

variable (hp : ∀ u, Keeps d.Beside (process u))
include hp

theorem tried_survivors (kept : List Conjunct) (alts choices : List (List Alternative))
    (hs : (a.vertex v).stage = .processing) (paths : List Path) :
    let r := withholding paths (tryChoices process v kept alts choices) a
    d.Tried v a r.2 ∧ ∀ s ∈ r.1.1, r.2.StandIn v s.vertex ∧
      ∃ choice ∈ choices, s.seeds = kept ++ choice.map (·.conjunct) := by
  refine ⟨?_, fun s hmem => ?_⟩
  · have hkeeps := keeps_tryChoices (d := d) (v := v) hp kept alts choices
    exact keeps_withholding (d := d) (fun a b h => (h.unifying v).trying) hkeeps paths a hs
  · rw [run_withholding] at hmem ⊢
    let b := { a with withheld := a.withheld ++ paths }
    have hsb : (b.vertex v).stage = .processing := hs
    obtain ⟨hstand, hseeds⟩ := standIn_tryChoices (d := d) hp kept alts choices hsb s hmem
    exact ⟨hstand.grown (keeps_withheld (d := d) a.withheld _).grown, hseeds⟩

theorem worked_forwardTo (hs : (a.vertex v).stage = .processing) {s : Survivor}
    (h : a.StandIn v s.vertex) : d.Worked v a (forwardTo process v s a).2 := by
  have hlt : v < a.vertices.size := lt_size_of_stage (by rw [hs]; decide)
  rw [run_forwardTo]
  suffices hgo : ∀ r : Nat × Arena, d.Beside a r.2 → r.2.StandIn v r.1 →
      d.Worked v a (process r.1 (r.2.modify v ({ · with forward := some r.1 }))).2 by
    dsimp only
    split
    · exact hgo _ (keeps_stand v s.seeds a) (standIn_stand hlt s.seeds)
    · exact hgo _ (Lasting.refl a) h
  intro r hb hr
  have hwb := (hb.unifying v hs).1
  have hwc : d.Worked v r.2 (r.2.modify v ({ · with forward := some r.1 })) :=
    Definition.worked_forward hwb.stage fun u hu => by
      cases hu
      exact hr
  exact hwb.trans hs (hwc.trans hwb.stage ((hp r.1 _).unifying v hwc.stage).1)

omit hp in
theorem keeps_leaveOpen (survivors : List Survivor) :
    Keeps (d.Within v) (leaveOpen v survivors) := by
  refine Keeps.bind (keeps_mapM (fun s => ?_) _) fun vals => ?_
  · exact (keeps_view _).bind fun w => (keeps_vertex w).bind fun x => keeps_pure _
  · exact keeps_change fun x => ⟨rfl, rfl, rfl, rfl, rfl⟩

theorem keeps_decideChoice (kept : List Conjunct) (alts : List (List Alternative)) :
    Keeps (d.Within v) (decideChoice process v kept alts) := by
  intro a hs
  cases hcomb : combinations alts with
  | none =>
    have hrun : decideChoice process v kept alts a = meet v (.ofCause .tooManyAlternatives) a := by
      simp only [decideChoice, hcomb]
    rw [hrun]
    exact (keeps_meet _ a hs).1
  | some choices =>
    let paths := (a.vertex v).paths
    let r := withholding paths (tryChoices process v kept alts choices) a
    obtain ⟨htried, hstand⟩ := tried_survivors (d := d) hp kept alts choices hs paths
    have hsr : (r.2.vertex v).stage = .processing := htried.worked.stage
    refine htried.worked.trans hs ?_
    rw [run_decideChoice hcomb]
    dsimp only
    split
    · exact (keeps_meet _ r.2 hsr).1
    · have hn := keeps_narrow (R := d.Beside) hp r.1.1 r.2
      have hwn := (hn.unifying v hsr).1
      refine hwn.trans hsr ?_
      split
      case h_1 s he =>
        have hmem : s ∈ r.1.1 :=
          subset_narrow process r.1.1 r.2 (by rw [he]; exact List.mem_singleton_self s)
        exact worked_forwardTo hp hwn.stage ((hstand s hmem).1.grown hn.grown)
      case h_2 => exact keeps_leaveOpen _ _ hwn.stage

end

/-! ## Choices under a definition -/

section

variable (hp : Processes d process)
include hp

theorem fulfils_faults (hl : a.Linked) (hd : d.Stands a) (h : d.Awaits a k w) (concrete : Bool) :
    d.Fulfils (faults process concrete w a).2 k w := by
  have hbeside := hp.keeps w a
  obtain ⟨rest, hrun, hrest⟩ :=
    exists_faultsAt maxDepth (keeps_faultsAt hp.keeps maxDepth) concrete w
  have hrun : faults process concrete w = settle process w >>= rest := hrun
  rw [hrun, run_bind]
  exact (hp.fulfils hl hd h).beside (hbeside.linked hl) (hd.grown hbeside.grown nofun) (hrest _ _)

theorem fulfils_tryChoice (hs : (a.vertex v).stage = .processing) (hl : a.Linked) (hd : d.Stands a)
    (h : d.Admits k v a seeds) :
    d.Fulfils (tryChoice process v seeds a).2 k (tryChoice process v seeds a).1.1 := by
  have hlt : v < a.vertices.size := lt_size_of_stage (by rw [hs]; decide)
  let w := (stand v seeds a).1
  let b := (stand v seeds a).2
  let c := b.modify v ({ · with forward := some w })
  let e := (faults process false w c).2
  have hw : b.StandIn v w := standIn_stand hlt seeds
  have hb := keeps_stand (d := d) v seeds a
  have hwb := (hb.unifying v hs).1
  have hdb := hd.grown hb.grown nofun
  have hwc : d.Worked v b c := Definition.worked_forward hwb.stage fun u hu => by
    cases hu
    exact hw
  have hdc := hdb.grown hwc.grown (Definition.owns hwb.stage)
  have hawaits : d.Awaits c k w := by
    have hawaits := awaits_stand hlt hd h
    refine hawaits.grown hdb hwc.grown (Definition.owns hwb.stage) ?_
    rw [vertex_modify_of_ne _ _ (Nat.ne_of_gt hw.after)]
    exact hawaits.stage
  have he := keeps_faults (R := d.Beside) hp.keeps false w c
  have hwe := (he.unifying v hwc.stage).1
  have hwg : d.Worked v e (e.modify v ({ · with forward := none })) :=
    Definition.worked_forward hwe.stage fun u hu => by cases hu
  have hlc := hwc.linked (hb.linked hl)
  rw [run_tryChoice]
  exact (fulfils_faults hp hlc hdc hawaits false).worked hwe.stage (he.linked hlc)
    (hdc.grown he.grown nofun) hwg

theorem fulfils_tryChoices (kept : List Conjunct) (alts choices : List (List Alternative))
    (hs : (a.vertex v).stage = .processing) (hl : a.Linked) (hd : d.Stands a)
    (h : ∀ choice ∈ choices, d.Admits k v a (kept ++ choice.map (·.conjunct))) :
    ∀ s ∈ (tryChoices process v kept alts choices a).1.1,
      d.Fulfils (tryChoices process v kept alts choices a).2 k s.vertex := by
  induction choices generalizing a with
  | nil => exact fun s hmem => absurd hmem List.not_mem_nil
  | cons choice choices ih =>
    let seeds := kept ++ choice.map (·.conjunct)
    have htried := (tried_tryChoice (d := d) hp.keeps hs seeds).1
    have hworked := htried.worked
    have hrest := keeps_tryChoices (d := d) hp.keeps kept alts choices _ hworked.stage
    have hds := hd.grown hworked.grown (Definition.owns hs)
    have hfirst := fulfils_tryChoice hp hs hl hd (h choice (by simp))
    intro s hmem
    rw [run_tryChoices] at hmem ⊢
    rcases List.mem_append.mp hmem with hmem | hmem
    · split at hmem
      · obtain rfl := List.mem_singleton.mp hmem
        exact hfirst.worked hworked.stage (hworked.linked hl) hds hrest.worked
      · exact absurd hmem List.not_mem_nil
    · exact ih hworked.stage (hworked.linked hl) hds
        (fun c hc => (h c (by simp [hc])).tried hs hd htried) s hmem

theorem fulfils_survivors (kept : List Conjunct) (alts choices : List (List Alternative))
    (hs : (a.vertex v).stage = .processing) (hl : a.Linked) (hd : d.Stands a)
    (h : ∀ choice ∈ choices, d.Admits k v a (kept ++ choice.map (·.conjunct))) (paths : List Path) :
    let r := withholding paths (tryChoices process v kept alts choices) a
    ∀ s ∈ r.1.1, d.Fulfils r.2 k s.vertex := by
  intro r s hmem
  let b := { a with withheld := a.withheld ++ paths }
  let c := (tryChoices process v kept alts choices b).2
  have hb : d.Beside a b := keeps_withheld _ a
  have hwb := (hb.unifying v hs).1
  have hc := (keeps_tryChoices (d := d) hp.keeps kept alts choices b hwb.stage).worked
  have hdb := hd.grown hb.grown nofun
  have hlb := hb.linked hl
  have hf := fulfils_tryChoices hp kept alts choices hwb.stage hlb hdb
    (fun choice hchoice => (h choice hchoice).tried hs hd ((hb.unifying v).trying hs)) s hmem
  exact hf.beside (hc.linked hlb) (hdb.grown hc.grown (Definition.owns hwb.stage))
    (keeps_withheld a.withheld c)

/-- The vertex that is chosen for good is under the definition, evaluated anew or not. -/
theorem ended_forwardTo (hs : (a.vertex v).stage = .processing) (hl : a.Linked) (hd : d.Stands a)
    {s : Survivor} (hstand : a.StandIn v s.vertex) (hf : d.Fulfils a k s.vertex)
    (h : d.Admits k v a s.seeds) : d.Ended k v (forwardTo process v s a).2 := by
  have hlt : v < a.vertices.size := lt_size_of_stage (by rw [hs]; decide)
  rw [run_forwardTo]
  suffices hgo : ∀ r : Nat × Arena, d.Beside a r.2 → r.2.StandIn v r.1 →
      d.Fulfils r.2 k r.1 ∨ d.Awaits r.2 k r.1 →
      d.Ended k v (process r.1 (r.2.modify v ({ · with forward := some r.1 }))).2 by
    dsimp only
    split
    · exact hgo _ (keeps_stand v s.seeds a) (standIn_stand hlt s.seeds)
        (.inr (awaits_stand hlt hd h))
    · exact hgo _ (Lasting.refl a) hstand (.inl hf)
  rintro ⟨w, b⟩ hb hw hor
  let c := b.modify v ({ · with forward := some w })
  have hwb := (hb.unifying v hs).1
  have hdb := hd.grown hb.grown nofun
  have hwc : d.Worked v b c := Definition.worked_forward hwb.stage fun u hu => by
    cases hu
    exact hw
  have hdc := hdb.grown hwc.grown (Definition.owns hwb.stage)
  have hlc := hwc.linked (hb.linked hl)
  have he := hp.keeps w c
  obtain ⟨hwe, hr⟩ := he.unifying v hwc.stage
  have hltb : v < b.vertices.size := lt_size_of_stage (by rw [hwb.stage]; decide)
  have hforward : (c.vertex v).forward = some w := congrArg Vertex.forward (vertex_modify _ hltb)
  refine .inr ⟨hwe.stage, w, hr.forward.trans hforward, hw.after, ?_⟩
  rcases hor with hf | hawaits
  · exact (hf.worked hwb.stage (hb.linked hl) hdb hwc).beside hlc hdc he
  · refine hp.fulfils hlc hdc (hawaits.grown hdb hwc.grown (Definition.owns hwb.stage) ?_)
    rw [vertex_modify_of_ne _ _ (Nat.ne_of_gt hw.after)]
    exact hawaits.stage

omit hp in
theorem ready_leaveOpen (hs : (a.vertex v).stage = .processing)
    (hforward : (a.vertex v).forward = none) (helems : (a.vertex v).elems = [])
    {survivors : List Survivor} (h : ∀ s ∈ survivors, d.Fulfils a k s.vertex) :
    d.Ready k v (leaveOpen v survivors a).2 := by
  have hlt : v < a.vertices.size := lt_size_of_stage (by rw [hs]; decide)
  rw [run_leaveOpen]
  dsimp only
  refine ⟨?_, ?_, ?_, fun _ w hw => ?_⟩
  · rw [vertex_modify _ hlt]
    exact hs
  · rw [vertex_modify _ hlt]
    exact hforward
  · rw [vertex_modify _ hlt]
    refine Kinds.contains_foldl_union (Kinds.contains_none k) fun val hval => ?_
    obtain ⟨s, hmem, rfl⟩ := List.mem_map.mp hval
    obtain ⟨t, ht, hk, -⟩ := h s hmem
    rw [follow_of_settlesTo ht]
    exact hk
  · rw [vertex_modify _ hlt] at hw
    have hw : w ∈ (a.vertex v).elems := hw
    rw [helems] at hw
    exact absurd hw List.not_mem_nil

theorem ended_decideChoice {kept : List Conjunct} {alts : List (List Alternative)}
    (h : d.Pursues k v a [] kept alts) (hb : (a.vertex v).val.isBottom = false) :
    d.Ended k v (decideChoice process v kept alts a).2 := by
  have hbottom (b : Arena) (f : Fault) (hs : (b.vertex v).stage = .processing)
      (hforward : (b.vertex v).forward = none) : d.Ready k v (meet v (.bottom f) b).2 := by
    obtain ⟨hw, hr⟩ := keeps_meet (d := d) (.bottom f) b hs
    refine Definition.ready_of_isBottom hw.stage (hr.forward.trans hforward) ?_
    have hv := vertex_modify (·.meet (.bottom f)) (lt_size_of_stage (a := b) (by rw [hs]; decide))
    exact (congrArg (·.val.isBottom) hv).trans (Val.isBottom_meet_bottom _ f)
  cases hcomb : combinations alts with
  | none =>
    have hrun : decideChoice process v kept alts a = meet v (.ofCause .tooManyAlternatives) a := by
      simp only [decideChoice, hcomb]
    rw [hrun]
    exact .inl (hbottom _ _ h.stage h.forward)
  | some choices =>
    let paths := (a.vertex v).paths
    let r := withholding paths (tryChoices process v kept alts choices) a
    obtain ⟨htried, hstand⟩ := tried_survivors (d := d) hp.keeps kept alts choices h.stage paths
    have hadmits (choice) (hc : choice ∈ choices) := h.admits hb hcomb hc
    have hf := fulfils_survivors hp kept alts choices h.stage h.linked h.stands hadmits paths
    have hsr : (r.2.vertex v).stage = .processing := htried.worked.stage
    have hlr := htried.worked.linked h.linked
    have hdr := h.stands.grown htried.worked.grown (Definition.owns h.stage)
    have hforward := htried.forward h.forward
    rw [run_decideChoice hcomb]
    dsimp only
    split
    · exact .inl (hbottom _ _ hsr hforward)
    · have hn := keeps_narrow (R := d.Beside) hp.keeps r.1.1 r.2
      have hsub := subset_narrow process r.1.1 r.2
      obtain ⟨hwn, hrn⟩ := hn.unifying v hsr
      have hdn := hdr.grown hn.grown nofun
      split
      case h_1 s he =>
        have hmem : s ∈ r.1.1 := hsub (by rw [he]; exact List.mem_singleton_self s)
        obtain ⟨hs, choice, hc, hseeds⟩ := hstand s hmem
        refine ended_forwardTo hp hwn.stage (hn.linked hlr) hdn (hs.grown hn.grown)
          ((hf s hmem).beside hlr hdr hn) ?_
        rw [hseeds]
        exact ((hadmits choice hc).tried h.stage h.stands htried).tried hsr hdr
          ((hn.unifying v).trying hsr)
      case h_2 =>
        refine .inl (ready_leaveOpen hwn.stage (hrn.forward.trans hforward) ?_ fun s hmem => ?_)
        · rw [hrn.elems]
          exact htried.refined.elems.trans h.elems
        · exact (hf s (hsub hmem)).beside hlr hdr hn

end

end Eval

end SchemaMock
