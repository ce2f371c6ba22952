import SchemaMock.Proofs.Eval.Decision

/-! # Processing vertices

By induction on the levels of evaluation that are left: processing a vertex takes no other one out
from under a definition, and a vertex that awaits its evaluation under one settles so.
-/

namespace SchemaMock

open Arena Eval

namespace Definition

variable {d : Definition} {a b : Arena} {v w : Nat} {k : Kinds}

/-- The evaluation of a vertex ends. -/
theorem worked_end (hs : (a.vertex v).stage = .processing) (hd : d.Stands a) :
    Grown (some v) a (a.modify v ({ · with stage := .done })) ∧
      ∀ l w, d.Holds a l w → d.Holds (a.modify v ({ · with stage := .done })) l w := by
  have hg : Grown (some v) a (a.modify v ({ · with stage := .done })) :=
    grown_modify a v rfl List.prefix_rfl List.prefix_rfl (absurd rfl)
  refine ⟨hg, fun l w hw => hw.grown hd hg (owns hs) fun u _ hu => ?_⟩
  rw [vertex_modify_of_ne a _ fun huv => by rw [huv, hs] at hu; cases hu]
  exact hu

/-- What a vertex that has been unified or decided stands for when it is marked as done. -/
theorem Ended.fulfils (h : d.Ended k v a) (hd : d.Stands a) :
    d.Fulfils (a.modify v ({ · with stage := .done })) k v := by
  have hs : (a.vertex v).stage = .processing := h.elim (·.stage) (·.1)
  have hlt : v < a.vertices.size := lt_size_of_stage (by rw [hs]; decide)
  have hv : (a.modify v ({ · with stage := .done })).vertex v =
    { a.vertex v with stage := .done } :=
    vertex_modify _ hlt
  obtain ⟨hg, hholds⟩ := worked_end hs hd
  rcases h with hr | ⟨-, w, hforward, hvw, hf⟩
  · refine ⟨v, .here ?_ ?_, ?_, fun hlist w hw => ?_⟩
    · rw [hv]
    · rw [hv]; exact hr.forward
    · rw [hv]; exact hr.kinds
    · rw [hv] at hlist hw
      exact hholds _ w (hr.elems hlist w hw)
  · obtain ⟨t, ht, hk⟩ := hf.grown hg (owns hs) fun w => hholds _ w
    refine ⟨t, .there ?_ ?_ hvw ht, hk⟩
    · rw [hv]
    · rw [hv]; exact hforward

/-- The evaluation of a pending vertex begins. -/
theorem grown_start (hs : (a.vertex v).stage = .pending) :
    Grown none a (a.modify v ({ · with stage := .processing })) := by
  refine grown_modify a v rfl List.prefix_rfl List.prefix_rfl fun _ => ?_
  exact ⟨List.prefix_rfl, List.prefix_rfl, fun hor => hor.elim (absurd hs) nofun⟩

/-- A vertex that awaits its evaluation is on its way as soon as that begins. -/
theorem Awaits.pursues (h : d.Awaits a k v) (hl : a.Linked) (hd : d.Stands a) :
    d.Pursues k v (a.modify v ({ · with stage := .processing })) (a.vertex v).seeds [] [] := by
  let b := a.modify v ({ · with stage := .processing })
  have hv : b.vertex v = { a.vertex v with stage := .processing } := vertex_modify _ h.lt_size
  have hg := grown_start h.stage
  have hparent : (b.vertex v).parent = (a.vertex v).parent := by rw [hv]
  refine ⟨?_, hl.modify v rfl (hl v), hd.grown hg nofun, h.after, ?_, ?_, ?_, ?_, .inr ?_,
    .inr (.inl h.guarded)⟩
  · rw [hv]
  · rw [hparent, hg.parent hd.lt_size]
    exact h.apart
  · rw [hv]; exact h.forward
  · rw [hv]; exact h.elems
  · exact fun c hc => absurd hc List.not_mem_nil
  · rw [hv, List.append_nil]
    exact h.copied

/-- A change that processes a single vertex. -/
theorem beside_of_processed (hg : Grown none a b) (hl : a.Linked → b.Linked)
    (hothers : a.Linked → d.Stands a → ∀ k w, w ≠ v → d.Awaits a k w → d.Holds b k w)
    (hself : a.Linked → d.Stands a → ∀ k, d.Awaits a k v → d.Fulfils b k v) : d.Beside a b := by
  refine ⟨hg, hl, fun hla hda k w hw => ?_⟩
  rcases hw with hw | hw
  · by_cases h : w = v
    · subst h
      exact .inr (hself hla hda k hw).settled
    · exact hothers hla hda k w h hw
  · exact .inr (hw.grown hg nofun)

/-- The evaluation of a vertex, from its begin to its end. -/
theorem beside_evaluation (hs : (a.vertex v).stage = .pending) (hlt : v < a.vertices.size)
    (hw : d.Worked v (a.modify v ({ · with stage := .processing })) b)
    (hended : ∀ k, d.Pursues k v (a.modify v ({ · with stage := .processing })) (a.vertex v).seeds
      [] [] → d.Ended k v b) :
    d.Beside a (b.modify v ({ · with stage := .done })) ∧
      ∀ k, a.Linked → d.Stands a → d.Awaits a k v →
        d.Fulfils (b.modify v ({ · with stage := .done })) k v := by
  let start := a.modify v ({ · with stage := .processing })
  have hv : (start.vertex v).stage = .processing := congrArg Vertex.stage (vertex_modify _ hlt)
  have hgrown : Grown none a start := grown_start hs
  have hlinked (hl : a.Linked) : start.Linked := hl.modify v rfl (hl v)
  have hstands (hd : d.Stands a) : d.Stands start := hd.grown hgrown nofun
  have hsb (hd : d.Stands a) : d.Stands b := (hstands hd).grown hw.grown (owns hv)
  have hltb : v < b.vertices.size := lt_size_of_stage (by rw [hw.stage]; decide)
  have hself (k : Kinds) (hl : a.Linked) (hd : d.Stands a) (h : d.Awaits a k v) :
      d.Fulfils (b.modify v ({ · with stage := .done })) k v :=
    (hended k (h.pursues hl hd)).fulfils (hsb hd)
  refine ⟨beside_of_processed ?_ (fun hl => ?_) (fun hl hd k w hne h => ?_)
    fun hl hd k => hself k hl hd, hself⟩
  · have hend : Grown (some v) b (b.modify v ({ · with stage := .done })) :=
      grown_modify b v rfl List.prefix_rfl List.prefix_rfl (absurd rfl)
    refine (((hgrown.mono _).trans hw.grown).trans hend).of_own hs ?_
    rw [vertex_modify _ hltb]
    exact nofun
  · have hlb := hw.linked (hlinked hl)
    exact hlb.modify v rfl (hlb v)
  · have hstart : d.Awaits start k w := h.grown hd hgrown nofun (by
      rw [vertex_modify_of_ne a _ hne]
      exact h.stage)
    exact (worked_end hw.stage (hsb hd)).2 _ w
      (hw.holds (hlinked hl) (hstands hd) _ w (.inl hstart))

end Definition

namespace Eval

variable {d : Definition} {process : Nat → Eval Unit} {a : Arena} {v : Nat} {k : Kinds}

theorem keeps_unifySeeds (hp : ∀ u, Keeps d.Beside (process u)) :
    Keeps (d.Within v) (unifySeeds process v) := by
  rw [unifySeeds]
  refine (keeps_vertex v).bind fun x => (keeps_view _).bind fun rounds => ?_
  refine (keeps_addRounds hp _ _).bind fun (kept, alts) => (keeps_vertex v).bind fun y => ?_
  split
  · exact keeps_finish hp
  · exact keeps_decideChoice hp kept alts

theorem ended_unifySeeds (hp : Processes d process)
    (h : d.Pursues k v a (a.vertex v).seeds [] []) : d.Ended k v (unifySeeds process v a).2 := by
  rw [unifySeeds, run_bind, run_bind, run_bind]
  -- The limit is a number that unification must not count down from.
  generalize roundLimit = limit
  have hr := pursues_addRounds hp.keeps (limit a) (a.vertex v).seeds h
  rw [List.nil_append, List.nil_append] at hr
  rcases hrun : addRounds process v (limit a) (a.vertex v).seeds a with ⟨⟨kept, alts⟩, b⟩
  rw [hrun] at hr
  have hrun : addRounds process v (view limit (vertex v a).2).1 (vertex v a).1.seeds
      (view limit (vertex v a).2).2 = ((kept, alts), b) := hrun
  rw [hrun]
  show d.Ended k v ((if alts.isEmpty || (b.vertex v).val.isBottom then finish process v
    else decideChoice process v kept alts : Eval Unit) b).2
  split
  case isTrue hno =>
    refine .inl (ready_finish hp.keeps hr ?_)
    rcases (Bool.or_eq_true _ _).mp hno with hno | hno
    · exact .inr (List.isEmpty_iff.mp hno)
    · exact .inl hno
  case isFalse hno =>
    refine ended_decideChoice hp hr ?_
    simp only [Bool.or_eq_true, not_or, Bool.not_eq_true] at hno
    exact hno.2

/-- Without lists and fills, only patterns and closed structs are left. -/
theorem finish_of_lists_eq_nil (hb : (a.vertex v).val.isBottom = false)
    (hlists : (a.vertex v).lists = []) (hfills : a.fillSelectors (a.vertex v).paths = []) :
    finish process v a = checkClosed process v (applyPatterns process v a).2 := by
  have hbuild : buildList v a = ((), a) := by
    show (if !(a.vertex v).lists.isEmpty then _ else _ : Eval Unit) a = _
    rw [hlists]
    rfl
  have hrequire : requireFilledParts v a = ((), a) := by
    show ((a.fillSelectors (a.vertex v).paths).forM (requirePart v)) a = _
    rw [hfills]
    rfl
  show (if !(a.vertex v).val.isBottom then _ else _ : Eval Unit) a = _
  rw [if_pos (by simp [hb]), run_bind, hbuild, run_bind, hrequire, run_bind]

theorem applyPatterns_of_eq_nil (h : (a.vertex v).patterns = []) :
    applyPatterns process v a = ((), a) := by
  show (if !(a.vertex v).patterns.isEmpty then _ else _ : Eval Unit) a = _
  rw [h]
  rfl

theorem checkClosed_of_eq_nil (h : (a.vertex v).groups = []) :
    checkClosed process v a = ((), a) := by
  show (if !(a.vertex v).groups.isEmpty then _ else _ : Eval Unit) a = _
  rw [h]
  rfl

/-- Without patterns and closed structs, the last step builds the list and requires what fills are
for. -/
theorem finish_of_requireFilledParts {b : Arena} (hval : (a.vertex v).val.isBottom = false)
    (hbuild : buildList v a = ((), b)) (hrequire : requireFilledParts v b = ((), b))
    (hpatterns : (b.vertex v).patterns = []) (hgroups : (b.vertex v).groups = []) :
    finish process v a = ((), b) := by
  show (if !(a.vertex v).val.isBottom then _ else _ : Eval Unit) a = _
  rw [if_pos (by simp [hval]), run_bind, hbuild, run_bind, hrequire, run_bind,
    applyPatterns_of_eq_nil hpatterns]
  exact checkClosed_of_eq_nil hgroups

/-- Without fills below, patterns and closed structs, the last step is the one for lists. -/
theorem finish_of_buildList {b : Arena} (hval : (a.vertex v).val.isBottom = false)
    (hbuild : buildList v a = ((), b)) (hfills : b.fillSelectors (b.vertex v).paths = [])
    (hpatterns : (b.vertex v).patterns = []) (hgroups : (b.vertex v).groups = []) :
    finish process v a = ((), b) := by
  refine finish_of_requireFilledParts hval hbuild ?_ hpatterns hgroups
  show ((b.fillSelectors (b.vertex v).paths).forM (requirePart v)) b = _
  rw [hfills]
  rfl

/-- A vertex that is not there has nothing to unify. -/
theorem unifySeeds_of_size_le (h : a.vertices.size ≤ v) : unifySeeds process v a = ((), a) := by
  have hv : a.vertex v = default := vertex_of_size_le h
  have hno (limit : Nat) : addRounds process v limit [] a = (([], []), a) := by
    cases limit <;> rfl
  have hfinish : finish process v a = ((), a) := by
    have hpatterns : applyPatterns process v a = ((), a) :=
      applyPatterns_of_eq_nil (by rw [hv]; rfl)
    rw [finish_of_lists_eq_nil (by rw [hv]; rfl) (by rw [hv]; rfl) ?_, hpatterns]
    · exact checkClosed_of_eq_nil (by rw [hv]; rfl)
    · have hpaths : (a.vertex v).paths = [] := by rw [hv]; rfl
      simp [hpaths, fillSelectors, List.flatMap_eq_nil_iff.mpr]
  rw [unifySeeds, run_bind, run_bind, run_bind]
  generalize roundLimit = limit
  have hrun : addRounds process v (view limit (vertex v a).2).1 (vertex v a).1.seeds
      (view limit (vertex v a).2).2 = (([], []), a) := by
    show addRounds process v (limit a) (a.vertex v).seeds a = _
    rw [hv]
    exact hno _
  rw [hrun]
  exact hfinish

theorem processAt_of_stage (left : Nat) (hs : (a.vertex v).stage ≠ .pending) :
    processAt left v a = ((), a) := by
  cases left <;>
  · rw [processAt]
    show (if (a.vertex v).stage = .pending then _ else _ : Eval Unit) a = _
    rw [if_neg hs]
    rfl

/-- At the end of all levels a vertex becomes bottom. -/
theorem processes_zero : Processes d (processAt 0) := by
  let f (a : Arena) (v : Nat) (x : Vertex) : Vertex :=
    { x.meet (.bottom ((Fault.of .evaluationDepth).atPath (a.pathText v))) with stage := .done }
  have hrun (a : Arena) (v : Nat) (hs : (a.vertex v).stage = .pending) :
      processAt 0 v a = ((), a.modify v (f a v)) := by
    show (if (a.vertex v).stage = .pending then _ else _ : Eval Unit) a = _
    rw [if_pos hs]
    exact congrArg (Prod.mk ()) (modify_modify a v _ _)
  have hgrown (a : Arena) (v : Nat) (hs : (a.vertex v).stage = .pending) :
      Grown none a (a.modify v (f a v)) :=
    grown_modify a v rfl List.prefix_rfl List.prefix_rfl fun _ =>
      ⟨List.prefix_rfl, List.prefix_rfl, fun hor => hor.elim (absurd hs) nofun⟩
  have hself (a : Arena) (v : Nat) (k : Kinds) (h : d.Awaits a k v) :
      d.Fulfils (a.modify v (f a v)) k v := by
    have hv : (a.modify v (f a v)).vertex v = f a v (a.vertex v) := vertex_modify _ h.lt_size
    have hk : (f a v (a.vertex v)).val.kinds = .none :=
      Val.kinds_of_isBottom (Val.isBottom_meet_bottom _ _)
    refine ⟨v, .here ?_ ?_, ?_, fun hl => ?_⟩
    · rw [hv]
    · rw [hv]; exact h.forward
    · rw [hv, hk]; exact Kinds.contains_none k
    · rw [hv, hk] at hl
      exact absurd hl (by decide)
  refine ⟨fun v a => ?_, fun {a k v} hl hd h => ?_⟩
  · by_cases hs : (a.vertex v).stage = .pending
    · rw [hrun a v hs]
      refine Definition.beside_of_processed (hgrown a v hs) (fun hl => hl.modify v rfl (hl v))
        (fun hl hd k w hne h => ?_) fun _ _ k h => hself a v k h
      refine .inl (h.grown hd (hgrown a v hs) nofun ?_)
      rw [vertex_modify_of_ne a _ hne]
      exact h.stage
    · rw [processAt_of_stage 0 hs]
      exact Lasting.refl a
  · rw [hrun a v h.stage]
    exact hself a v k h

/-- A pending vertex is processed: it is marked so while `m` unifies its seeds. -/
theorem run_processing (m : Eval Unit) (hs : (a.vertex v).stage = .pending) :
    (do
      if (← vertex v).stage = .pending then
        deeper do
          setStage v .processing
          m
          setStage v .done : Eval Unit) a =
      let start :=
  ({ a with depth := a.depth + 1 } : Arena).modify v ({ · with stage := .processing })
      let last := (m start).2.modify v ({ · with stage := .done })
      ((), { last with depth := last.depth - 1 }) := by
  show (if (a.vertex v).stage = .pending then _ else _ : Eval Unit) a = _
  rw [if_pos hs]
  rfl

theorem run_processAt (left : Nat) (hs : (a.vertex v).stage = .pending) :
    processAt (left + 1) v a =
      let start :=
  ({ a with depth := a.depth + 1 } : Arena).modify v ({ · with stage := .processing })
      let last := (unifySeeds (processAt left) v start).2.modify v ({ · with stage := .done })
      ((), { last with depth := last.depth - 1 }) := by
  rw [processAt]
  exact run_processing _ hs

theorem beside_processing {m : Eval Unit} (hm : Keeps (d.Within v) m)
    (hended : ∀ a k, d.Pursues k v a (a.vertex v).seeds [] [] → d.Ended k v (m a).2)
    (hnone : ∀ a : Arena, a.vertices.size ≤ v → m a = ((), a))
    (hs : (a.vertex v).stage = .pending) :
    let start :=
  ({ a with depth := a.depth + 1 } : Arena).modify v ({ · with stage := .processing })
    let last := (m start).2.modify v ({ · with stage := .done })
    let b := { last with depth := last.depth - 1 }
    d.Beside a b ∧ ∀ k, a.Linked → d.Stands a → d.Awaits a k v → d.Fulfils b k v := by
  intro start last b
  let below := { a with depth := a.depth + 1 }
  have hbelow : d.Beside a below := Definition.beside_of_eq rfl rfl
  have habove : d.Beside last b := Definition.beside_of_eq rfl rfl
  by_cases hlt : v < a.vertices.size
  · have hv : start.vertex v = { a.vertex v with stage := .processing } := vertex_modify _ hlt
    obtain ⟨hbeside, hself⟩ := Definition.beside_evaluation (d := d) (a := below) (v := v) hs hlt
      (hm start (congrArg Vertex.stage hv)) fun k hk => hended start k (by rw [hv]; exact hk)
    refine ⟨(hbelow.trans hbeside).trans habove, fun k hl hd h => ?_⟩
    have hdb := hd.grown hbelow.grown nofun
    have hlb := hbelow.linked hl
    exact (hself k hlb hdb (h.grown hd hbelow.grown nofun h.stage)).beside (hbeside.linked hlb)
      (hdb.grown hbeside.grown nofun) habove
  · have hle : a.vertices.size ≤ v := Nat.le_of_not_lt hlt
    have hstart : start = below := modify_of_size_le _ hle
    have hlast : last = below := by
      show (m start).2.modify v _ = below
      rw [hstart, hnone below hle]
      exact modify_of_size_le _ hle
    refine ⟨?_, fun k _ _ h => absurd h.lt_size hlt⟩
    exact (hbelow.trans (by rw [hlast]; exact Lasting.refl below)).trans habove

theorem processes_succ {left : Nat} (hp : Processes d (processAt left)) :
    Processes d (processAt (left + 1)) := by
  have hall (a : Arena) (v : Nat) (hs : (a.vertex v).stage = .pending) :
      d.Beside a (processAt (left + 1) v a).2 ∧
        ∀ k, a.Linked → d.Stands a → d.Awaits a k v →
          d.Fulfils (processAt (left + 1) v a).2 k v := by
    rw [run_processAt left hs]
    exact beside_processing (keeps_unifySeeds hp.keeps) (fun _ _ => ended_unifySeeds hp)
      (fun _ => unifySeeds_of_size_le) hs
  refine ⟨fun v a => ?_, fun {a k v} hl hd h => (hall a v h.stage).2 k hl hd h⟩
  by_cases hs : (a.vertex v).stage = .pending
  · exact (hall a v hs).1
  · rw [processAt_of_stage (left + 1) hs]
    exact Lasting.refl a

theorem processes_processAt (left : Nat) : Processes d (processAt left) := by
  induction left with
  | zero => exact processes_zero
  | succ left ih => exact processes_succ ih

theorem processes_evaluate : Processes d evaluate := by
  unfold evaluate
  exact processes_processAt maxDepth

theorem evaluate_of_stage (hs : (a.vertex v).stage ≠ .pending) : evaluate v a = ((), a) := by
  unfold evaluate
  exact processAt_of_stage maxDepth hs

end Eval

end SchemaMock
