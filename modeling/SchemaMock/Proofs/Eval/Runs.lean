import SchemaMock.Eval.Choice
import SchemaMock.Eval.Reference
import SchemaMock.Eval.Structure
import SchemaMock.Proofs.Eval.Computation
import SchemaMock.Proofs.Eval.Extent

/-! # Runs within an arena

A computation of the evaluator keeps an arena in order, refers to what is there, and puts back the
counter, the withheld paths and the marks of the vertices in work, however it ends. All this is said
of one way to process vertices; and that another way which does the same from the same depth gives
the same run.
-/

namespace SchemaMock

open Arena Eval

namespace Arena

/-- What is changed while a computation runs is as it was before. -/
structure Restored (a b : Arena) : Prop where
  extent : a.extent.Within b.extent
  depth : b.depth = a.depth
  withheld : b.withheld = a.withheld
  processing (v : Nat) : (b.vertex v).stage = .processing ↔ (a.vertex v).stage = .processing

variable {a b c : Arena} {v : Nat}

theorem Restored.refl (a : Arena) : a.Restored a :=
  ⟨Extent.Within.refl _, rfl, rfl, fun _ => Iff.rfl⟩

theorem Restored.trans (h : a.Restored b) (h' : b.Restored c) : a.Restored c where
  extent := h.extent.trans h'.extent
  depth := h'.depth.trans h.depth
  withheld := h'.withheld.trans h.withheld
  processing v := (h'.processing v).trans (h.processing v)

instance : Lasting Restored := ⟨Restored.refl, Restored.trans⟩

theorem restored_modify (a : Arena) (v : Nat) {f : Vertex → Vertex}
    (hf : (f (a.vertex v)).stage = .processing ↔ (a.vertex v).stage = .processing) :
    a.Restored (a.modify v f) where
  extent := extent_modify a v f ▸ Extent.Within.refl _
  depth := rfl
  withheld := rfl
  processing u := by
    by_cases huv : u = v
    · subst huv
      by_cases hu : u < a.vertices.size
      · rw [vertex_modify f hu, hf]
      · rw [modify_of_size_le f (Nat.le_of_not_lt hu)]
    · rw [vertex_modify_of_ne a f huv]

theorem restored_add (a : Arena) {x : Vertex} (hx : x.stage = .pending) :
    a.Restored (a.add x).2 where
  extent := extent_add a x
  depth := rfl
  withheld := rfl
  processing u := by
    rcases Nat.lt_trichotomy u a.vertices.size with hu | rfl | hu
    · rw [vertex_add_of_lt x hu]
    · rw [vertex_add, vertex_of_size_le (Nat.le_refl _), hx]
      rfl
    · rw [vertex_of_size_le (Nat.le_of_lt hu), vertex_of_size_le (by rw [size_add]; omega)]

theorem restored_addScope (a : Arena) (s : Scope) : a.Restored (a.addScope s).2 :=
  ⟨extent_addScope a s, rfl, rfl, fun _ => Iff.rfl⟩

end Arena

def Resolved.Within (e : Extent) (r : Resolved) : Prop := ∀ v, r = .vertex v → v < e.vertices

namespace Eval

variable {α β : Type} {d : Nat} {e e' : Extent} {v w scope : Nat}
variable {P : α → Extent → Prop} {Q : β → Extent → Prop}

/-- From an ordered arena at depth `d` that is large enough, the two computations do the same: they
leave an ordered arena, put back what they changed for a while, and give a result that has the
property at the extent they leave. -/
def Runs (d : Nat) (e : Extent) (m m' : Eval α) (P : α → Extent → Prop) : Prop :=
  ∀ a : Arena, a.Ordered → a.depth = d → e.Within a.extent →
    m' a = m a ∧ (m a).2.Ordered ∧ a.Restored (m a).2 ∧ P (m a).1 (m a).2.extent

abbrev Does (d : Nat) (e : Extent) (m : Eval α) (P : α → Extent → Prop) : Prop := Runs d e m m P

abbrev Anyhow : α → Extent → Prop := fun _ _ => True

/-! ## Rules -/

theorem Runs.mono {m m' : Eval α} {R : α → Extent → Prop} (h : Runs d e m m' P)
    (hPR : ∀ x e', e.Within e' → P x e' → R x e') : Runs d e m m' R := by
  intro a ha hd he
  obtain ⟨hsame, ho, hr, hx⟩ := h a ha hd he
  exact ⟨hsame, ho, hr, hPR _ _ (he.trans hr.extent) hx⟩

theorem Runs.enlarge {m m' : Eval α} (h : Runs d e m m' P) (he : e.Within e') : Runs d e' m m' P :=
  fun a ha hd he' => h a ha hd (he.trans he')

theorem runs_pure {x : α} (h : ∀ e', e.Within e' → P x e') : Does d e (pure x) P :=
  fun a ha _ he => ⟨rfl, ha, .refl a, h _ he⟩

theorem runs_view {f : Arena → α}
    (h : ∀ a : Arena, a.Ordered → e.Within a.extent → P (f a) a.extent) :
    Does d e (view f) P :=
  fun a ha _ he => ⟨rfl, ha, .refl a, h a ha he⟩

theorem runs_look (f : Arena → α) : Does d e (view f) Anyhow := runs_view fun _ _ _ => trivial

theorem runs_vertex (v : Nat) : Does d e (vertex v) fun x e' => x.Sound e' v :=
  fun a ha _ _ => ⟨rfl, ha, .refl a, ha.vertex v⟩

theorem Runs.bind {m m' : Eval α} {k k' : α → Eval β} (hm : Runs d e m m' P)
    (hk : ∀ x e', e.Within e' → P x e' → Runs d e' (k x) (k' x) Q) :
    Runs d e (m >>= k) (m' >>= k') Q := by
  intro a ha hd he
  obtain ⟨hsame, ho, hr, hx⟩ := hm a ha hd he
  obtain ⟨hsame', ho', hr', hx'⟩ :=
    hk _ _ (he.trans hr.extent) hx _ ho (hr.depth.trans hd) (Extent.Within.refl _)
  refine ⟨?_, ho', hr.trans hr', hx'⟩
  rw [run_bind, run_bind, hsame]
  exact hsame'

theorem runs_mapM {f f' : α → Eval β} {xs : List α}
    (hQ : ∀ y e' e'', e'.Within e'' → Q y e' → Q y e'') (h : ∀ x ∈ xs, Runs d e (f x) (f' x) Q) :
    Runs d e (xs.mapM f) (xs.mapM f') fun ys e' => ∀ y ∈ ys, Q y e' := by
  induction xs generalizing e with
  | nil => exact runs_pure fun _ _ => List.forall_mem_nil _
  | cons x xs ih =>
    rw [List.forall_mem_cons] at h
    rw [List.mapM_cons, List.mapM_cons]
    refine h.1.bind fun y e' he hy => ?_
    refine (ih fun z hz => (h.2 z hz).enlarge he).bind fun ys e'' he' hys =>
      runs_pure fun _ he'' => ?_
    exact List.forall_mem_cons.mpr
      ⟨hQ _ _ _ (he'.trans he'') hy, fun z hz => hQ _ _ _ he'' (hys z hz)⟩

theorem runs_forM {f f' : α → Eval PUnit} {xs : List α}
    (h : ∀ x ∈ xs, Runs d e (f x) (f' x) Anyhow) : Runs d e (xs.forM f) (xs.forM f') Anyhow := by
  induction xs generalizing e with
  | nil => exact runs_pure fun _ _ => trivial
  | cons x xs ih =>
    rw [List.forall_mem_cons] at h
    exact h.1.bind fun _ e' he _ => ih fun z hz => (h.2 z hz).enlarge he

theorem runs_anyM {f f' : α → Eval Bool} {xs : List α}
    (h : ∀ x ∈ xs, Runs d e (f x) (f' x) Anyhow) : Runs d e (xs.anyM f) (xs.anyM f') Anyhow := by
  induction xs generalizing e with
  | nil => exact runs_pure fun _ _ => trivial
  | cons x xs ih =>
    rw [List.forall_mem_cons] at h
    refine h.1.bind fun b e' he _ => ?_
    cases b
    · exact ih fun z hz => (h.2 z hz).enlarge he
    · exact runs_pure fun _ _ => trivial

theorem runs_allM {f f' : α → Eval Bool} {xs : List α}
    (h : ∀ x ∈ xs, Runs d e (f x) (f' x) Anyhow) : Runs d e (xs.allM f) (xs.allM f') Anyhow := by
  induction xs generalizing e with
  | nil => exact runs_pure fun _ _ => trivial
  | cons x xs ih =>
    rw [List.forall_mem_cons] at h
    refine h.1.bind fun b e' he _ => ?_
    cases b
    · exact runs_pure fun _ _ => trivial
    · exact ih fun z hz => (h.2 z hz).enlarge he

/-! ## Single changes -/

theorem runs_update (v : Nat) {f : Vertex → Vertex}
    (hf : ∀ x e', e.Within e' → x.Sound e' v → (f x).Sound e' v) (hs : ∀ x, (f x).stage = x.stage) :
    Does d e (update v f) Anyhow :=
  fun a ha _ he => ⟨rfl, ha.modify v (hf _ _ he (ha.vertex v)),
  restored_modify a v (by rw [hs]), trivial⟩

theorem runs_meet (v : Nat) (val : Val) : Does d e (meet v val) Anyhow :=
  runs_update v (fun _ _ _ hx => hx.meet val) fun _ => rfl

theorem runs_record (v : Nat) (f : Fault) : Does d e (record v f) Anyhow := by
  refine runs_update v (fun _ _ _ hx => hx.record f) fun x => ?_
  unfold Vertex.record
  split <;> rfl

/-- A new vertex comes after all that are there. -/
theorem runs_add {parent : Option Nat} (paths : List Path) {seeds : List Conjunct}
    (hparent : ∀ u, parent = some u → u < e.vertices) (hseeds : ∀ c ∈ seeds, c.scope < e.scopes) :
    Does d e (add parent paths seeds) fun w e' => e.vertices ≤ w ∧ w < e'.vertices := by
  intro a ha _ he
  have hgrown := he.trans (extent_add a (.fresh parent paths seeds))
  refine ⟨rfl, ha.add (Vertex.sound_fresh paths (fun u hu => ?_) fun c hc => ?_),
    restored_add a rfl, he.vertices, ?_⟩
  · exact ⟨he.vertex (hparent u hu), hgrown.vertex (hparent u hu)⟩
  · exact hgrown.scope (hseeds c hc)
  · show a.vertices.size < (a.add _).2.vertices.size
    rw [size_add]
    exact Nat.lt_succ_self _

theorem runs_alone (x : Expr) (hs : scope < e.scopes) :
    Does d e (alone x scope) fun w e' => w < e'.vertices := by
  have hparent : ∀ u, (none : Option Nat) = some u → u < e.vertices := nofun
  exact (runs_add [] hparent (List.forall_mem_singleton.mpr hs)).mono fun _ _ _ hw => hw.2

theorem runs_addScope {s : Scope} (h : ∀ t, e.scopes ≤ t → s.Sound e t) :
    Does d e (addScope s) fun t e' => t < e'.scopes := by
  intro a ha _ he
  refine ⟨rfl, ha.addScope (Arena.Scope.Sound.mono (h _ he.scopes) he), restored_addScope a s, ?_⟩
  show a.scopes.size < (a.addScope s).2.scopes.size
  simp [Arena.addScope]

theorem runs_addSeed (v : Nat) {c : Conjunct} (hc : c.scope < e.scopes) :
    Does d e (addSeed v c) Anyhow :=
  runs_update v (fun _ _ he hx => { hx with
    seeds := hx.addSeeds (List.forall_mem_singleton.mpr (he.scope hc)) }) fun _ => rfl

theorem runs_fillsAt (paths : List Path) :
    Does d e (view (·.fillsAt paths)) fun cs e' => ∀ c ∈ cs, c.scope < e'.scopes :=
  runs_view fun _ ha _ => ha.fillsAt paths

/-! ## Attempts -/

/-- The same of attempts; the property is one of what they give if they do not fail. -/
def Tries (d : Nat) (e : Extent) (m m' : Attempt α) (P : α → Extent → Prop) : Prop :=
  Runs d e m.run m'.run fun r e' => ∀ x, r = .ok x → P x e'

theorem Tries.runs {m m' : Attempt α} (h : Tries d e m m' P) : Runs d e m.run m'.run Anyhow :=
  Runs.mono h fun _ _ _ _ => trivial

theorem Tries.enlarge {m m' : Attempt α} (h : Tries d e m m' P) (he : e.Within e') :
    Tries d e' m m' P :=
  Runs.enlarge h he

theorem tries_pure {x : α} (h : ∀ e', e.Within e' → P x e') : Tries d e (pure x) (pure x) P := by
  refine runs_pure fun e' he y hy => ?_
  cases hy
  exact h e' he

theorem tries_throw (f : Fault) : Tries d e (throw f) (throw f) P :=
  runs_pure fun _ _ _ hy => by cases hy

theorem tries_refuse (c : Cause) : Tries d e (Attempt.refuse c) (Attempt.refuse c) P :=
  tries_throw _

theorem tries_ofExcept (x : Except Cause α) :
    Tries d e (Attempt.ofExcept x) (Attempt.ofExcept x) Anyhow := by
  cases x with
  | ok x => exact tries_pure fun _ _ => trivial
  | error c => exact tries_throw _

theorem tries_ofResult (x : Except Fault α) :
    Tries d e (Attempt.ofResult x) (Attempt.ofResult x) Anyhow := runs_pure fun _ _ _ _ => trivial

theorem tries_perform {m m' : Eval α} (h : Runs d e m m' P) :
    Tries d e (Attempt.perform m) (Attempt.perform m') P := by
  intro a ha hd he
  obtain ⟨hsame, ho, hr, hx⟩ := h a ha hd he
  rw [Attempt.run_perform, Attempt.run_perform, hsame]
  refine ⟨rfl, ho, hr, fun y hy => ?_⟩
  cases hy
  exact hx

theorem Tries.bind {m m' : Attempt α} {k k' : α → Attempt β} (hm : Tries d e m m' P)
    (hk : ∀ x e', e.Within e' → P x e' → Tries d e' (k x) (k' x) Q) :
    Tries d e (m >>= k) (m' >>= k') Q := by
  show Runs d e (m.run >>= ExceptT.bindCont k) (m'.run >>= ExceptT.bindCont k') _
  refine Runs.bind hm fun r e' he hr => ?_
  cases r with
  | error f => exact runs_pure fun _ _ _ hy => by cases hy
  | ok x => exact hk x e' he (hr x rfl)

theorem tries_mapM {f f' : α → Attempt β} {xs : List α}
    (h : ∀ x ∈ xs, Tries d e (f x) (f' x) Anyhow) : Tries d e (xs.mapM f) (xs.mapM f') Anyhow := by
  induction xs generalizing e with
  | nil => exact tries_pure fun _ _ => trivial
  | cons x xs ih =>
    rw [List.forall_mem_cons] at h
    rw [List.mapM_cons, List.mapM_cons]
    refine h.1.bind fun y e' he _ => ?_
    exact (ih fun z hz => (h.2 z hz).enlarge he).bind fun ys _ _ _ => tries_pure fun _ _ => trivial

theorem tries_failAt (v : Nat) (c : Cause) : Tries d e (failAt v c) (failAt v c) P :=
  (tries_perform (runs_look _)).bind fun _ _ _ _ => tries_throw _

end Eval

end SchemaMock
