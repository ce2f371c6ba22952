import SchemaMock.Eval.Reference
import SchemaMock.Proofs.Eval.Computation

/-! # How an arena grows

Vertices and scopes are only ever added. The evaluation of other vertices appends to the paths and
the seeds of a vertex and may process it when it is pending; a vertex that is not pending stays as
it is but for that. What a vertex settles to and what a name stands for can so be told early on.
-/

namespace SchemaMock

/-- What the evaluation of other vertices does to a vertex. -/
structure Vertex.Grown (x y : Vertex) : Prop where
  paths : x.paths <+: y.paths
  seeds : x.seeds <+: y.seeds
  rest : x.stage ≠ .pending ∨ y.stage = .pending →
    y = { x with paths := y.paths, seeds := y.seeds }

namespace Vertex.Grown

variable {x y z : Vertex}

theorem refl (x : Vertex) : x.Grown x := ⟨List.prefix_rfl, List.prefix_rfl, fun _ => rfl⟩

theorem trans (h : x.Grown y) (h' : y.Grown z) : x.Grown z := by
  refine ⟨h.paths.trans h'.paths, h.seeds.trans h'.seeds, fun hs => ?_⟩
  by_cases hy : y.stage = .pending
  · have hxy := h.rest (.inr hy)
    have hyz := h'.rest <| hs.imp_left fun hx => by
      rw [hxy] at hy
      exact absurd hy hx
    rw [hyz, hxy]
  · have hyz := h'.rest (.inl hy)
    have hxy := h.rest <| .inl <| hs.elim id fun hz => by
      rw [hyz] at hz
      exact absurd hz hy
    rw [hyz, hxy]

end Vertex.Grown

namespace Arena

variable {a b c : Arena} {u v w t s : Nat}

/-! ## Single changes -/

theorem vertex_of_size_le (h : a.vertices.size ≤ v) : a.vertex v = default := by
  simp [vertex, h]

theorem lt_size_of_stage (h : (a.vertex v).stage ≠ .pending) : v < a.vertices.size := by
  refine Nat.lt_of_not_le fun hle => h ?_
  rw [vertex_of_size_le hle]
  rfl

theorem lt_size_of_forward (h : (a.vertex v).forward = some w) : v < a.vertices.size := by
  refine Nat.lt_of_not_le fun hle => ?_
  rw [vertex_of_size_le hle] at h
  cases h

@[simp] theorem size_modify (a : Arena) (v : Nat) (f : Vertex → Vertex) :
    (a.modify v f).vertices.size = a.vertices.size := by
  simp [modify]

theorem vertex_modify_of_ne (a : Arena) (f : Vertex → Vertex) (h : u ≠ v) :
    (a.modify v f).vertex u = a.vertex u := by
  by_cases hu : u < a.vertices.size
  · simp [modify, vertex, Array.getElem?_modify, Ne.symm h]
  · rw [vertex_of_size_le (by simpa using hu), vertex_of_size_le (by simpa using hu)]

theorem vertex_modify (f : Vertex → Vertex) (h : v < a.vertices.size) :
    (a.modify v f).vertex v = f (a.vertex v) := by
  simp [modify, vertex, h, Array.getElem_modify]

theorem modify_of_size_le (f : Vertex → Vertex) (h : a.vertices.size ≤ v) : a.modify v f = a := by
  have hsame : a.vertices.modify v f = a.vertices := by
    apply Array.ext
    · simp
    · intro i hi _
      simp only [Array.size_modify] at hi
      simp [Array.getElem_modify, show v ≠ i by omega]
  simp [modify, hsame]

theorem modify_modify (a : Arena) (v : Nat) (f g : Vertex → Vertex) :
    (a.modify v f).modify v g = a.modify v fun x => g (f x) := by
  have hsame : (a.vertices.modify v f).modify v g = a.vertices.modify v fun x => g (f x) := by
    apply Array.ext
    · simp
    · intro i _ _
      simp only [Array.getElem_modify]
      split <;> rfl
  simp [modify, hsame]

@[simp] theorem size_add (a : Arena) (x : Vertex) :
    (a.add x).2.vertices.size = a.vertices.size + 1 := by
  simp [add]

theorem vertex_add_of_lt (x : Vertex) (h : u < a.vertices.size) :
    (a.add x).2.vertex u = a.vertex u := by
  simp [add, vertex, Array.getElem?_push, h, Nat.ne_of_lt h]

theorem vertex_add (a : Arena) (x : Vertex) : (a.add x).2.vertex a.vertices.size = x := by
  simp [add, vertex]

theorem modify_add (a : Arena) (x : Vertex) (f : Vertex → Vertex) :
    (a.add x).2.modify a.vertices.size f = (a.add (f x)).2 := by
  have h : (a.vertices.push x).modify a.vertices.size f = a.vertices.push (f x) := by
    apply Array.ext
    · simp
    · intro i hi hi'
      simp only [Array.size_push] at hi'
      rcases Nat.lt_succ_iff_lt_or_eq.mp hi' with hlt | rfl
      · simp [Array.getElem_modify, Array.getElem_push, hlt, Nat.ne_of_gt hlt]
      · simp [Array.getElem_modify]
  simp [add, modify, h]

theorem scope_addScope_of_lt (x : Scope) (h : s < a.scopes.size) :
    (a.addScope x).2.scope s = a.scope s := by
  simp [addScope, scope, Array.getElem?_push, h, Nat.ne_of_lt h]

theorem scope_addScope (a : Arena) (x : Scope) : (a.addScope x).2.scope a.scopes.size = x := by
  simp [addScope, scope]

/-! ## Growth -/

/-- What a computation does to an arena. The vertex that it works on, if there is one, may change
otherwise. -/
structure Grown (own : Option Nat) (a b : Arena) : Prop where
  size : a.vertices.size ≤ b.vertices.size
  scopes : a.scopes.size ≤ b.scopes.size
  scope {s : Nat} : s < a.scopes.size → b.scope s = a.scope s
  parent {v : Nat} : v < a.vertices.size → (b.vertex v).parent = (a.vertex v).parent
  paths {v : Nat} : v < a.vertices.size → (a.vertex v).paths <+: (b.vertex v).paths
  seeds {v : Nat} : v < a.vertices.size → (a.vertex v).seeds <+: (b.vertex v).seeds
  vertex {v : Nat} : v < a.vertices.size → own ≠ some v → (a.vertex v).Grown (b.vertex v)

variable {own : Option Nat}

theorem Grown.mono (h : Grown none a b) (own : Option Nat) : Grown own a b :=
  { h with vertex := fun hv _ => h.vertex hv nofun }

theorem Grown.refl (own : Option Nat) (a : Arena) : Grown own a a where
  size := Nat.le_refl _
  scopes := Nat.le_refl _
  scope _ := rfl
  parent _ := rfl
  paths _ := List.prefix_rfl
  seeds _ := List.prefix_rfl
  vertex _ _ := .refl _

theorem Grown.trans (h : Grown own a b) (h' : Grown own b c) : Grown own a c where
  size := Nat.le_trans h.size h'.size
  scopes := Nat.le_trans h.scopes h'.scopes
  scope hs := (h'.scope (Nat.lt_of_lt_of_le hs h.scopes)).trans (h.scope hs)
  parent hv := (h'.parent (Nat.lt_of_lt_of_le hv h.size)).trans (h.parent hv)
  paths hv := (h.paths hv).trans (h'.paths (Nat.lt_of_lt_of_le hv h.size))
  seeds hv := (h.seeds hv).trans (h'.seeds (Nat.lt_of_lt_of_le hv h.size))
  vertex hv hne := (h.vertex hv hne).trans (h'.vertex (Nat.lt_of_lt_of_le hv h.size) hne)

instance : Lasting (Grown own) := ⟨Grown.refl own, Grown.trans⟩

/-- A vertex that is not pending changes by further paths and seeds only. -/
theorem Grown.eq_of_stage (h : Grown own a b) (hne : own ≠ some v)
    (hs : (a.vertex v).stage ≠ .pending) :
    b.vertex v = { a.vertex v with paths := (b.vertex v).paths, seeds := (b.vertex v).seeds } :=
  (h.vertex (lt_size_of_stage hs) hne).rest (.inl hs)

theorem Grown.mem_seeds (h : Grown own a b) {c : Conjunct} (hc : c ∈ (a.vertex v).seeds) :
    c ∈ (b.vertex v).seeds := by
  refine (h.seeds (Nat.lt_of_not_le fun hle => ?_)).subset hc
  rw [vertex_of_size_le hle] at hc
  cases hc

theorem grown_of_eq (own : Option Nat) (hv : b.vertices = a.vertices) (hs : b.scopes = a.scopes) :
    Grown own a b := by
  obtain ⟨vertices, scopes, fills, withheld, depth⟩ := a
  obtain ⟨vertices', scopes', fills', withheld', depth'⟩ := b
  obtain rfl : vertices' = vertices := hv
  obtain rfl : scopes' = scopes := hs
  exact ⟨Nat.le_refl _, Nat.le_refl _, fun _ => rfl, fun _ => rfl, fun _ => List.prefix_rfl,
    fun _ => List.prefix_rfl, fun _ _ => .refl _⟩

theorem grown_add (own : Option Nat) (a : Arena) (x : Vertex) : Grown own a (a.add x).2 where
  size := by simp
  scopes := Nat.le_refl _
  scope _ := rfl
  parent hv := by rw [vertex_add_of_lt _ hv]
  paths hv := (vertex_add_of_lt x hv).symm ▸ List.prefix_rfl
  seeds hv := (vertex_add_of_lt x hv).symm ▸ List.prefix_rfl
  vertex hv _ := by rw [vertex_add_of_lt _ hv]; exact .refl _

theorem grown_addScope (own : Option Nat) (a : Arena) (x : Scope) :
    Grown own a (a.addScope x).2 :=
  { Grown.refl own a with
    scopes := by simp [addScope]
    scope := fun hs => scope_addScope_of_lt x hs }

theorem grown_modify (a : Arena) (v : Nat) {f : Vertex → Vertex}
    (hr : (f (a.vertex v)).parent = (a.vertex v).parent)
    (hp : (a.vertex v).paths <+: (f (a.vertex v)).paths)
    (hs : (a.vertex v).seeds <+: (f (a.vertex v)).seeds)
    (hf : own ≠ some v → (a.vertex v).Grown (f (a.vertex v))) : Grown own a (a.modify v f) where
  size := by simp
  scopes := Nat.le_refl _
  scope _ := rfl
  parent {u} hu := by
    by_cases h : u = v
    · subst h; rwa [vertex_modify f hu]
    · rw [vertex_modify_of_ne a f h]
  paths {u} hu := by
    by_cases h : u = v
    · subst h; rwa [vertex_modify f hu]
    · exact (vertex_modify_of_ne a f h).symm ▸ List.prefix_rfl
  seeds {u} hu := by
    by_cases h : u = v
    · subst h; rwa [vertex_modify f hu]
    · exact (vertex_modify_of_ne a f h).symm ▸ List.prefix_rfl
  vertex {u} hu hne := by
    by_cases h : u = v
    · subst h; rw [vertex_modify f hu]; exact hf hne
    · rw [vertex_modify_of_ne a f h]; exact .refl _

/-- The vertex that is worked on may change as others may, once it is processed. -/
theorem Grown.of_own (h : Grown (some v) a b) (hs : (a.vertex v).stage = .pending)
    (hd : (b.vertex v).stage ≠ .pending) : Grown none a b := by
  refine { h with vertex := fun {u} hu _ => ?_ }
  by_cases huv : u = v
  · subst huv
    exact ⟨h.paths hu, h.seeds hu, fun hor => hor.elim (absurd hs) (absurd · hd)⟩
  · exact h.vertex hu fun he => huv (Option.some.inj he).symm

/-! ## Stand-ins -/

/-- A stand-in has the parent of the vertex that it stands for, and a higher number. -/
def Linked (a : Arena) : Prop :=
  ∀ v w, (a.vertex v).forward = some w →
    v < w ∧ w < a.vertices.size ∧ (a.vertex w).parent = (a.vertex v).parent

/-- The vertex that stands in for another one in the end has its parent. -/
theorem Linked.parent_follow (h : a.Linked) (v : Nat) :
    (a.vertex (a.follow v)).parent = (a.vertex v).parent := by
  have hgo (n u : Nat) (hu : (a.vertex u).parent = (a.vertex v).parent) :
      (a.vertex (follow.go a n u)).parent = (a.vertex v).parent := by
    induction n generalizing u with
    | zero => exact hu
    | succ n ih =>
      rw [follow.go]
      cases hf : (a.vertex u).forward with
      | none => exact hu
      | some w => exact ih w ((h u w hf).2.2.trans hu)
  exact hgo _ v rfl

/-- A change that sets no stand-in. -/
theorem Linked.modify (h : a.Linked) (v : Nat) {f : Vertex → Vertex}
    (hr : (f (a.vertex v)).parent = (a.vertex v).parent)
    (hf : ∀ w, (f (a.vertex v)).forward = some w →
      v < w ∧ w < a.vertices.size ∧ (a.vertex w).parent = (a.vertex v).parent) :
    (a.modify v f).Linked := by
  have hparent (u : Nat) : ((a.modify v f).vertex u).parent = (a.vertex u).parent := by
    by_cases hu : u < a.vertices.size
    · by_cases huv : u = v
      · subst huv; rw [vertex_modify f hu, hr]
      · rw [vertex_modify_of_ne a f huv]
    · rw [vertex_of_size_le (by simpa using hu), vertex_of_size_le (by simpa using hu)]
  intro u w hw
  rw [hparent, hparent, size_modify]
  have hu := lt_size_of_forward hw
  rw [size_modify] at hu
  by_cases huv : u = v
  · subst huv
    rw [vertex_modify f hu] at hw
    exact hf w hw
  · rw [vertex_modify_of_ne a f huv] at hw
    exact h u w hw

theorem Linked.add (h : a.Linked) {x : Vertex} (hx : x.forward = none) : (a.add x).2.Linked := by
  intro v w hw
  have hv := lt_size_of_forward hw
  rw [size_add] at hv
  by_cases hlt : v < a.vertices.size
  · rw [vertex_add_of_lt _ hlt] at hw ⊢
    obtain ⟨hvw, hws, hp⟩ := h v w hw
    rw [vertex_add_of_lt _ hws, size_add]
    exact ⟨hvw, by omega, hp⟩
  · obtain rfl : v = a.vertices.size := by omega
    rw [vertex_add, hx] at hw
    cases hw

/-- A vertex and its stand-ins are done, and the last of them is `t`. -/
inductive SettlesTo (a : Arena) : Nat → Nat → Prop
  | here {v : Nat} : (a.vertex v).stage = .done → (a.vertex v).forward = none → SettlesTo a v v
  | there {v w t : Nat} : (a.vertex v).stage = .done → (a.vertex v).forward = some w → v < w →
      SettlesTo a w t → SettlesTo a v t

theorem SettlesTo.stage (h : a.SettlesTo v t) : (a.vertex v).stage = .done := by
  cases h <;> assumption

theorem SettlesTo.stage_last (h : a.SettlesTo v t) : (a.vertex t).stage = .done := by
  induction h with
  | here hs => exact hs
  | there _ _ _ _ ih => exact ih

theorem SettlesTo.last (h : a.SettlesTo v t) : a.SettlesTo t t := by
  induction h with
  | here hs hf => exact .here hs hf
  | there _ _ _ _ ih => exact ih

theorem SettlesTo.lt_size (h : a.SettlesTo v t) : v < a.vertices.size :=
  lt_size_of_stage (by rw [h.stage]; decide)

/-- What a vertex settles to is settled. -/
theorem SettlesTo.grown (h : a.SettlesTo v t) (hg : Grown own a b)
    (hown : ∀ u, own = some u → (a.vertex u).stage ≠ .done) : b.SettlesTo v t := by
  have hsame {u : Nat} (hu : (a.vertex u).stage = .done) :
      (b.vertex u).stage = (a.vertex u).stage ∧ (b.vertex u).forward = (a.vertex u).forward := by
    have he := hg.eq_of_stage (fun h => hown u h hu) (by rw [hu]; decide)
    exact ⟨by rw [he], by rw [he]⟩
  induction h with
  | here hs hf => exact .here ((hsame hs).1.trans hs) ((hsame hs).2.trans hf)
  | there hs hf hlt _ ih => exact .there ((hsame hs).1.trans hs) ((hsame hs).2.trans hf) hlt ih

theorem follow_of_settlesTo (h : a.SettlesTo v t) : a.follow v = t := by
  have hgo (n : Nat) (hn : a.vertices.size - v ≤ n) : follow.go a n v = t := by
    induction h generalizing n with
    | here hs hf => cases n <;> simp [follow.go, hf]
    | there hs hf hlt hw ih =>
      have := hw.lt_size
      cases n with
      | zero => omega
      | succ n => rw [follow.go, hf]; exact ih n (by omega)
  exact hgo _ (Nat.sub_le _ _)

theorem follow_of_forward_eq_none (h : (a.vertex v).forward = none) : a.follow v = v := by
  unfold follow
  cases a.vertices.size <;> simp [follow.go, h]

/-! ## Names -/

/-- The innermost struct around a scope that declares a label belongs to the vertex `v`. -/
inductive Declares (a : Arena) (label : Label) : Nat → Nat → Prop
  | here {s p v : Nat} {decls : List Decl} : s < a.scopes.size → a.scope s = .struct p decls v →
      decls.any (Decl.declares label) = true → Declares a label s v
  | outer {s p u v : Nat} {decls : List Decl} : s < a.scopes.size → a.scope s = .struct p decls u →
      decls.any (Decl.declares label) = false → p < s → Declares a label p v → Declares a label s v

theorem Declares.grown {label : Label} (h : a.Declares label s v) (hg : Grown own a b) :
    b.Declares label s v := by
  induction h with
  | here hs hd hl => exact .here (Nat.lt_of_lt_of_le hs hg.scopes) ((hg.scope hs).trans hd) hl
  | outer hs hd hl hp _ ih =>
    exact .outer (Nat.lt_of_lt_of_le hs hg.scopes) ((hg.scope hs).trans hd) hl hp ih

theorem lookupName_of_declares {name : String} {arc : Arc}
    (h : a.Declares (.ofIdent name.toList) s v)
    (harc : (a.vertex (a.follow v)).arc? (.ofIdent name.toList) = some arc) :
    a.lookupName name s = .ok (.vertex arc.vertex) := by
  have hgo (n : Nat) (hn : s < n) : lookupName.go a name n s = .ok (.vertex arc.vertex) := by
    induction h generalizing n with
    | here hs hd hl =>
      cases n with
      | zero => omega
      | succ n => simp [lookupName.go, hd, hl, harc]
    | outer hs hd hl hp _ ih =>
      cases n with
      | zero => omega
      | succ n =>
        simp only [lookupName.go, hd, hl]
        exact ih harc n (by omega)
  cases h with
  | here hs => exact hgo _ hs
  | outer hs => exact hgo _ hs

end Arena

end SchemaMock
