import SchemaMock.Proofs.Finality
import SchemaMock.Proofs.Eval.Writes

/-! # Queries as visits

The depth of an arena and the levels that are left for an evaluation add up to the limit, so a watch
on the depth never sees it passed. What a query does to an arena comes from the vertices that it has
processed.
-/

namespace SchemaMock

open Arena

namespace Arena

variable {a b : Arena} {v : Nat}

theorem Ordered.begin (h : a.Ordered) (v : Nat) : (a.begin v).Ordered :=
  (ordered_of_eq (b := { a with depth := a.depth + 1 }) h rfl rfl).modify v { h.vertex v with }

theorem Ordered.conclude (h : a.Ordered) (v : Nat) : (a.conclude v).Ordered :=
  ordered_of_eq (h.modify v (f := ({ · with stage := .done })) { h.vertex v with }) rfl rfl

/-- When the processing of a vertex has ended, its mark is gone and the counter is as before. -/
theorem restored_turn (hs : (a.vertex v).stage ≠ .processing) (h : (a.begin v).Restored b) :
    a.Restored (b.conclude v) where
  extent :=
    have hbegin : (a.begin v).extent = a.extent := extent_modify _ v _
    have hconclude : (b.conclude v).extent = b.extent := extent_modify b v _
    hconclude ▸ hbegin ▸ h.extent
  depth := Nat.pred_eq_of_eq_succ h.depth
  withheld := h.withheld
  processing u := by
    have hsize := h.extent.vertices
    have hb : (b.conclude v).vertex u = (b.modify v ({ · with stage := .done })).vertex u := rfl
    rw [hb]
    by_cases huv : u = v
    · subst huv
      refine iff_of_false (fun hdone => ?_) hs
      by_cases hu : u < b.vertices.size
      · rw [vertex_modify _ hu] at hdone
        cases hdone
      · rw [vertex_of_size_le (by simpa using hu)] at hdone
        cases hdone
    · rw [vertex_modify_of_ne b _ huv, h.processing u]
      have hbegin : (a.begin v).vertex u = a.vertex u := vertex_modify_of_ne _ _ huv
      rw [hbegin]

end Arena

namespace Eval

variable {d : Nat} {e : Extent} {v : Nat} {a : Arena}

/-! ## A watch on the depth -/

/-- Runs a computation one level further down, after an alarm if that is past the limit. -/
def deeperWatched (limit : Nat) (alarm m : Eval Unit) : Eval Unit := do
  modify fun a => { a with depth := a.depth + 1 }
  if limit < (← view (·.depth)) then alarm
  m
  modify fun a => { a with depth := a.depth - 1 }

/-- Processes a vertex, with an alarm wherever the depth is past the limit. -/
def processWatched (alarm : Eval Unit) : Nat → Nat → Eval Unit
  | 0, v => processAt 0 v
  | left + 1, v => do
    if (← vertex v).stage = .pending then
      deeperWatched maxDepth alarm do
        setStage v .processing
        unifySeeds (processWatched alarm left) v
        setStage v .done

def evaluateWatched (alarm : Eval Unit) : Nat → Eval Unit := processWatched alarm maxDepth

theorem deeperWatched_of_lt {limit : Nat} (alarm m : Eval Unit) (h : a.depth < limit) :
    deeperWatched limit alarm m a = deeper m a := by
  show (if limit < a.depth + 1 then _ else _ : Eval Unit) _ = _
  rw [if_neg (Nat.not_lt.mpr h)]
  rfl

theorem processWatched_of_stage (alarm : Eval Unit) (left : Nat)
    (hs : (a.vertex v).stage ≠ .pending) : processWatched alarm (left + 1) v a = ((), a) := by
  show (if (a.vertex v).stage = .pending then _ else _ : Eval Unit) a = _
  rw [if_neg hs]
  rfl

/-- Below the limit no alarm is raised, and a pending vertex has its turn. -/
theorem run_pending {limit : Nat} (alarm m : Eval Unit) (hs : (a.vertex v).stage = .pending)
    (hd : a.depth < limit) :
    (do
      if (← vertex v).stage = .pending then
        deeperWatched limit alarm do
          setStage v .processing
          m
          setStage v .done : Eval Unit) a = ((), (m (a.begin v)).2.conclude v) := by
  show (if (a.vertex v).stage = .pending then deeperWatched limit alarm _ else _ : Eval Unit) a = _
  rw [if_pos hs, deeperWatched_of_lt alarm _ hd]
  rfl

theorem run_watched (alarm : Eval Unit) (left : Nat) (hs : (a.vertex v).stage = .pending)
    (hd : a.depth < maxDepth) : processWatched alarm (left + 1) v a =
      ((), (unifySeeds (processWatched alarm left) v (a.begin v)).2.conclude v) := by
  rw [processWatched]
  exact run_pending alarm _ hs hd

theorem runs_processAt_zero (v : Nat) : Does d e (processAt 0 v) Anyhow := by
  intro a ha _ _
  by_cases hs : (a.vertex v).stage = .pending
  · let f (x : Vertex) : Vertex :=
      { x.meet (.bottom ((Fault.of .evaluationDepth).atPath (a.pathText v))) with stage := .done }
    have hrun : processAt 0 v a = ((), a.modify v f) := by
      show (if (a.vertex v).stage = .pending then _ else _ : Eval Unit) a = _
      rw [if_pos hs]
      exact congrArg (Prod.mk ()) (modify_modify a v _ _)
    rw [hrun]
    refine ⟨rfl, ha.modify v { ha.vertex v with }, restored_modify a v ?_, trivial⟩
    exact iff_of_false (by simp [f]) (by simp [hs])
  · rw [processAt_of_stage 0 hs]
    exact ⟨rfl, ha, .refl a, trivial⟩

/-- Depth and levels add up to the limit, so the alarm is not raised. -/
theorem runs_processAt (alarm : Eval Unit) {left : Nat} (hd : d + left = maxDepth) (v : Nat) :
    Runs d e (processAt left v) (processWatched alarm left v) Anyhow := by
  induction left generalizing d e v with
  | zero => exact runs_processAt_zero v
  | succ left ih =>
    intro a ha hdepth _
    by_cases hs : (a.vertex v).stage = .pending
    · obtain ⟨hsame, ho, hr⟩ : unifySeeds (processWatched alarm left) v (a.begin v) =
          unifySeeds (processAt left) v (a.begin v) ∧
          (unifySeeds (processAt left) v (a.begin v)).2.Ordered ∧
          (a.begin v).Restored (unifySeeds (processAt left) v (a.begin v)).2 := by
        by_cases hv : v < a.vertices.size
        · have hunify := runs_unifySeeds (d := d + 1) (e := (a.begin v).extent)
            (fun u _ => ih (by omega) u) ha.plain (by rwa [extent, size_begin])
          obtain ⟨hsame, ho, hr, -⟩ := hunify _ (ha.begin v) (congrArg (· + 1) hdepth) (.refl _)
          exact ⟨hsame, ho, hr⟩
        · have hv : (a.begin v).vertices.size ≤ v := by rw [size_begin]; exact Nat.le_of_not_lt hv
          rw [unifySeeds_of_size_le hv, unifySeeds_of_size_le hv]
          exact ⟨rfl, ha.begin v, .refl _⟩
      rw [run_turn left hs, run_watched alarm left hs (by omega), hsame]
      exact ⟨rfl, ho.conclude v, restored_turn (by rw [hs]; decide) hr, trivial⟩
    · rw [processAt_of_stage _ hs, processWatched_of_stage alarm left hs]
      exact ⟨rfl, ha, .refl a, trivial⟩

theorem runs_evaluate (alarm : Eval Unit) (v : Nat) (e : Extent) :
    Runs 0 e (evaluate v) (evaluateWatched alarm v) Anyhow :=
  runs_processAt alarm (Nat.zero_add _) v

/-! ## Lookups -/

def lookupBy (process : Nat → Eval Unit) (path : Path) : Attempt Nat :=
  path.selectors.foldlM (select process) Arena.root >>= fun v => Attempt.perform (arrive process v)

variable {process process' : Nat → Eval Unit}

section

variable (hp : ∀ u e, Runs d e (process u) (process' u) Anyhow)
include hp

theorem runs_arrive (hv : v < e.vertices) :
    Runs d e (arrive process v) (arrive process' v) fun w e' => w < e'.vertices :=
  (runs_settle hp v).bind fun w _ he hw => (hp w _).bind fun _ _ he' _ =>
    runs_pure fun _ he'' => he''.vertex (he'.vertex (hw (he.vertex hv)))

theorem tries_select_path (selectors : List Selector) (hv : v < e.vertices) :
    Tries d e (selectors.foldlM (select process) v) (selectors.foldlM (select process') v)
      fun w e' => w < e'.vertices := by
  induction selectors generalizing e v with
  | nil => exact tries_pure fun _ he => he.vertex hv
  | cons s selectors ih =>
    rw [List.foldlM_cons, List.foldlM_cons]
    exact (tries_select hp v s).bind fun w _ _ hw => ih hw

theorem tries_lookupBy (hroot : Arena.root < e.vertices) (path : Path) :
    Tries d e (lookupBy process path) (lookupBy process' path) fun w e' => w < e'.vertices :=
  (tries_select_path hp _ hroot).bind fun _ _ _ hv => tries_perform (runs_arrive hp hv)

end

end Eval

/-! ## Queries -/

instance : Lasting (@Eq Arena) := ⟨fun _ => rfl, Eq.trans⟩

/-- A computation that goes on without a change leaves what its first part leaves. -/
theorem Eval.leaves_bind {α β : Type} (m : Eval α) {k : α → Eval β} (hk : ∀ x, Keeps Eq (k x))
    (a : Arena) : ((m >>= k) a).2 = (m a).2 := (hk _ _).symm

theorem Attempt.leaves_bind {α β : Type} (m : Attempt α) {k : α → Attempt β}
    (hk : ∀ x, Eval.Keeps Eq (k x).run) (a : Arena) : ((m >>= k).run a).2 = (m.run a).2 := by
  rw [run_bind]
  rcases m.run a with ⟨f | x, b⟩
  · rfl
  · exact (hk x b).symm

theorem Eval.leaves_listable (v : Nat) (a : Arena) : ((listable v).run a).2 = (evaluate v a).2 := by
  rw [listable, Attempt.leaves_bind]
  · rfl
  · refine fun w => Attempt.keeps_bind (Attempt.keeps_perform (keeps_view _)) fun obstacle => ?_
    cases obstacle
    · exact Attempt.keeps_pure _
    · exact Attempt.keeps_throw _

theorem Eval.Runs.discard {α : Type} {d : Nat} {e : Extent} {m m' : Eval α}
    (h : Runs d e m m' Anyhow) : Runs d e (discard m) (discard m') Anyhow :=
  h.bind fun _ _ _ _ => runs_pure fun _ _ => trivial

namespace Query

open Eval

def visit (process : Nat → Eval Unit) : Query → Eval Unit
  | lookup path => discard (lookupBy process path).run
  | faults concrete v => discard (Eval.faults process concrete v)
  | fault v | kinds v | fields v | length v => process v
  | host v => discard (exportVertex process v).run

theorem next_eq (a : Arena) (q : Query) : q.next a = (q.visit evaluate a).2 := by
  have hsettle (v : Nat) : (settle evaluate v a).2 = (evaluate v a).2 := rfl
  cases q with
  | lookup path => rfl
  | faults concrete v => rfl
  | fault v =>
    show (faultOf v a).2 = _
    rw [faultOf, Eval.leaves_bind, hsettle]
    · rfl
    · refine fun w => (keeps_vertex w).bind fun x => ?_
      split
      · exact (keeps_view _).bind fun _ => keeps_pure _
      · exact keeps_pure _
  | kinds v => rfl
  | fields v =>
    show ((fieldsOf v).run a).2 = _
    rw [fieldsOf, Attempt.leaves_bind, leaves_listable]
    · rfl
    · refine fun w => Attempt.keeps_bind (Attempt.keeps_perform (keeps_vertex w)) fun x => ?_
      split
      · exact Attempt.keeps_pure _
      · exact keeps_failAt w _
  | length v =>
    show ((lengthOf v).run a).2 = _
    rw [lengthOf, Attempt.leaves_bind, leaves_listable]
    · rfl
    · refine fun w => Attempt.keeps_bind (Attempt.keeps_perform (keeps_vertex w)) fun x => ?_
      split
      · exact Attempt.keeps_pure _
      · exact keeps_failAt w _
  | host v => rfl

theorem runs_visit {d : Nat} {e : Extent} {process process' : Nat → Eval Unit}
    (hp : ∀ u e, Runs d e (process u) (process' u) Anyhow) (hroot : root < e.vertices) (q : Query) :
    Runs d e (q.visit process) (q.visit process') Anyhow := by
  cases q with
  | lookup path => exact (tries_lookupBy hp hroot path).runs.discard
  | faults concrete v => exact (runs_faults hp concrete v).discard
  | fault v | kinds v | fields v | length v => exact hp v e
  | host v => exact (tries_exportVertex hp v).runs.discard

theorem keeps_visit {R : Arena → Arena → Prop} [Lasting R] {process : Nat → Eval Unit}
    (hp : ∀ u, Keeps R (process u)) (q : Query) : Keeps R (q.visit process) := by
  cases q with
  | lookup path =>
    exact Attempt.keeps_bind (keeps_select_path hp _ _) fun v =>
      Attempt.keeps_perform (keeps_arrive hp v)
  | faults concrete v => exact keeps_faults hp concrete v
  | fault v | kinds v | fields v | length v => exact hp v
  | host v => exact keeps_exportVertex hp v

end Query

end SchemaMock
