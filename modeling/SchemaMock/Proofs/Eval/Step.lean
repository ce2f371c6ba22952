import SchemaMock.Proofs.Eval.Definition
import SchemaMock.Proofs.Eval.Reading

/-! # The steps of an evaluation

The evaluation of a vertex changes that vertex, adds others, and has others evaluated on the way.
None of these steps takes a vertex out from under a definition. Unification narrows the vertex that
is evaluated and leaves what it stands for to the decision of its disjunctions.
-/

namespace SchemaMock

/-- What unification does to a vertex. -/
structure Vertex.Refined (x y : Vertex) : Prop where
  parent : y.parent = x.parent
  stage : y.stage = x.stage
  forward : y.forward = x.forward
  elems : y.elems = x.elems
  copied : y.copied = x.copied
  paths : x.paths <+: y.paths
  seeds : x.seeds <+: y.seeds
  lists : x.lists ⊆ y.lists
  kinds : x.val.kinds.contains y.val.kinds = true
  bottom : x.val.isBottom = true → y.val.isBottom = true

namespace Vertex.Refined

variable {x y z : Vertex}

theorem refl (x : Vertex) : x.Refined x :=
  ⟨rfl, rfl, rfl, rfl, rfl, List.prefix_rfl, List.prefix_rfl, List.Subset.refl _,
    Kinds.contains_refl _, id⟩

theorem trans (h : x.Refined y) (h' : y.Refined z) : x.Refined z where
  parent := h'.parent.trans h.parent
  stage := h'.stage.trans h.stage
  forward := h'.forward.trans h.forward
  elems := h'.elems.trans h.elems
  copied := h'.copied.trans h.copied
  paths := h.paths.trans h'.paths
  seeds := h.seeds.trans h'.seeds
  lists := List.Subset.trans h.lists h'.lists
  kinds := Kinds.contains_trans h.kinds h'.kinds
  bottom := h'.bottom ∘ h.bottom

theorem meet (x : Vertex) (v : Val) : x.Refined (x.meet v) :=
  { refl x with
    kinds := (Val.contains_kinds_meet _ _).1
    bottom := fun h => Val.isBottom_meet h v }

theorem record (x : Vertex) (f : Fault) : x.Refined (x.record f) := by
  unfold Vertex.record
  split
  · exact { refl x with }
  · exact meet x _

end Vertex.Refined

namespace Definition

open Arena

variable {d : Definition} {a b c : Arena} {v : Nat}

/-- What the evaluation of other vertices does. -/
structure Beside (d : Definition) (a b : Arena) : Prop where
  grown : Grown none a b
  linked : a.Linked → b.Linked
  holds : a.Linked → d.Stands a → ∀ k w, d.Holds a k w → d.Holds b k w

/-- What the evaluation of the vertex `v` does. -/
structure Worked (d : Definition) (v : Nat) (a b : Arena) : Prop where
  stage : (b.vertex v).stage = .processing
  grown : Grown (some v) a b
  linked : a.Linked → b.Linked
  holds : a.Linked → d.Stands a → ∀ k w, d.Holds a k w → d.Holds b k w

/-- A step in the evaluation of `v`. -/
def Within (d : Definition) (v : Nat) (a b : Arena) : Prop :=
  (a.vertex v).stage = .processing → d.Worked v a b

/-- A step in the unification of `v`. -/
def Unifying (d : Definition) (v : Nat) (a b : Arena) : Prop :=
  (a.vertex v).stage = .processing → d.Worked v a b ∧ (a.vertex v).Refined (b.vertex v)

theorem Beside.trans (h : d.Beside a b) (h' : d.Beside b c) : d.Beside a c where
  grown := h.grown.trans h'.grown
  linked hl := h'.linked (h.linked hl)
  holds hl hd k w hh :=
    h'.holds (h.linked hl) (hd.grown h.grown nofun) k w (h.holds hl hd k w hh)

theorem owns {a : Arena} (hs : (a.vertex v).stage = .processing) (u : Nat) (hu : some v = some u) :
    (a.vertex u).stage = .processing := by
  cases hu
  exact hs

theorem Worked.trans (hs : (a.vertex v).stage = .processing) (h : d.Worked v a b)
    (h' : d.Worked v b c) : d.Worked v a c where
  stage := h'.stage
  grown := h.grown.trans h'.grown
  linked hl := h'.linked (h.linked hl)
  holds hl hd k w hh :=
    h'.holds (h.linked hl) (hd.grown h.grown (owns hs)) k w (h.holds hl hd k w hh)

theorem Worked.refl (hs : (a.vertex v).stage = .processing) : d.Worked v a a :=
  ⟨hs, .refl _ _, id, fun _ _ _ _ => id⟩

instance : Lasting d.Beside := ⟨fun a => ⟨.refl _ a, id, fun _ _ _ _ => id⟩, Beside.trans⟩

instance : Lasting (d.Within v) :=
  ⟨fun _ hs => .refl hs, fun h h' hs => (h hs).trans hs (h' (h hs).stage)⟩

instance : Lasting (d.Unifying v) where
  refl _ hs := ⟨.refl hs, .refl _⟩
  trans h h' hs := by
    obtain ⟨hw, hr⟩ := h hs
    obtain ⟨hw', hr'⟩ := h' hw.stage
    exact ⟨hw.trans hs hw', hr.trans hr'⟩

theorem Unifying.within (h : d.Unifying v a b) : d.Within v a b := fun hs => (h hs).1

theorem Beside.unifying (h : d.Beside a b) (v : Nat) : d.Unifying v a b := by
  intro hs
  have he := h.grown.eq_of_stage nofun (by rw [hs]; decide)
  have hlt := lt_size_of_stage (by rw [hs]; decide)
  refine ⟨⟨by rw [he]; exact hs, h.grown.mono _, h.linked, h.holds⟩, ?_⟩
  have hp := h.grown.paths hlt
  have hsd := h.grown.seeds hlt
  rw [he]
  exact { Vertex.Refined.refl (a.vertex v) with paths := hp, seeds := hsd }

theorem beside_of_grown (hg : Grown none a b) (hl : a.Linked → b.Linked)
    (hstill : ∀ u < a.vertices.size, (a.vertex u).stage = .pending → (b.vertex u).stage = .pending) :
    d.Beside a b :=
  ⟨hg, hl, fun _ hd _ _ h => h.grown hd hg nofun hstill⟩

theorem beside_of_eq (hv : b.vertices = a.vertices) (hs : b.scopes = a.scopes) : d.Beside a b := by
  have hvertex (v : Nat) : b.vertex v = a.vertex v := by
    rw [vertex, vertex, hv]
  refine beside_of_grown (grown_of_eq none hv hs) (fun hl v w hw => ?_) fun u _ hu => ?_
  · rw [hvertex] at hw
    rw [hvertex, hvertex, hv]
    exact hl v w hw
  · rw [hvertex]
    exact hu

theorem beside_add (a : Arena) {x : Vertex} (hx : x.forward = none) : d.Beside a (a.add x).2 :=
  beside_of_grown (grown_add none a x) (·.add hx) fun _ hu hs =>
    (congrArg Vertex.stage (vertex_add_of_lt x hu)).trans hs

theorem worked_modify (hs : (a.vertex v).stage = .processing) {f : Vertex → Vertex}
    (hr : (f (a.vertex v)).parent = (a.vertex v).parent)
    (hstage : (f (a.vertex v)).stage = (a.vertex v).stage)
    (hpaths : (a.vertex v).paths <+: (f (a.vertex v)).paths)
    (hseeds : (a.vertex v).seeds <+: (f (a.vertex v)).seeds)
    (hf : a.Linked → ∀ w, (f (a.vertex v)).forward = some w →
      v < w ∧ w < a.vertices.size ∧ (a.vertex w).parent = (a.vertex v).parent) :
    d.Worked v a (a.modify v f) := by
  have hlt := lt_size_of_stage (by rw [hs]; decide)
  have hg : Grown (some v) a (a.modify v f) := grown_modify a v hr hpaths hseeds (absurd rfl)
  refine ⟨by rw [vertex_modify f hlt, hstage, hs], hg, fun hl => hl.modify v hr (hf hl), ?_⟩
  intro _ hd k w hh
  refine hh.grown hd hg (owns hs) fun u _ hu => ?_
  rw [vertex_modify_of_ne a f fun huv => by rw [huv, hs] at hu; cases hu]
  exact hu

end Definition

namespace Eval

open Arena

variable {d : Definition} {v : Nat}

theorem keeps_update {f : Vertex → Vertex} (hf : ∀ x : Vertex, x.Refined (f x)) :
    Keeps (d.Unifying v) (update v f) := by
  intro a hs
  have hr := hf (a.vertex v)
  refine ⟨Definition.worked_modify hs hr.parent hr.stage hr.paths hr.seeds fun hl w hw => ?_, ?_⟩
  · rw [hr.forward] at hw
    exact hl v w hw
  · show Vertex.Refined _ ((a.modify v f).vertex v)
    rw [vertex_modify f (lt_size_of_stage (by rw [hs]; decide))]
    exact hr

theorem keeps_add (parent : Option Nat) (paths : List Path) (seeds : List Conjunct) :
    Keeps d.Beside (add parent paths seeds) := fun a => Definition.beside_add a rfl

theorem keeps_alone (x : Expr) (scope : Nat) : Keeps d.Beside (alone x scope) := keeps_add _ _ _

theorem keeps_addScope (s : Scope) : Keeps d.Beside (addScope s) :=
  fun a => Definition.beside_of_grown (grown_addScope none a s) id fun _ _ => id

/-- Any vertex may get further paths and seeds. -/
theorem keeps_grow (w : Nat) {f : Vertex → Vertex} (hf : ∀ x : Vertex, x.Grown (f x))
    (hr : ∀ x : Vertex, x.Refined (f x)) : Keeps d.Beside (update w f) := by
  intro a
  refine Definition.beside_of_grown
    (grown_modify a w (hr _).parent (hf _).paths (hf _).seeds fun _ => hf _) (fun hl => ?_) ?_
  · refine hl.modify w (hr _).parent fun u hu => hl w u ?_
    rwa [(hr _).forward] at hu
  · intro u hu hs
    by_cases h : u = w
    · subst h; exact (congrArg Vertex.stage (vertex_modify f hu)).trans ((hr _).stage.trans hs)
    · exact (congrArg Vertex.stage (vertex_modify_of_ne a f h)).trans hs

theorem keeps_addSeed (w : Nat) (c : Conjunct) : Keeps d.Beside (addSeed w c) :=
  keeps_grow w (fun _ => ⟨List.prefix_rfl, List.prefix_append _ _, fun _ => rfl⟩)
    fun x => { Vertex.Refined.refl x with seeds := List.prefix_append _ _ }

end Eval

end SchemaMock
