import SchemaMock.Proofs.Eval.Growth

/-! # The order of an arena

Vertices and scopes refer to each other by number. A vertex comes after the one that it is a part
of, and before its own parts, its alternatives and the vertex that stands in for it; a scope comes
after the scope around it. So the walks through an arena stay within it and come to an end.
-/

namespace SchemaMock

/-- How many vertices and scopes there are. -/
structure Extent where
  vertices : Nat
  scopes : Nat

namespace Extent

structure Within (e e' : Extent) : Prop where
  vertices : e.vertices ≤ e'.vertices
  scopes : e.scopes ≤ e'.scopes

variable {e e' e'' : Extent} {v w s : Nat}

theorem Within.refl (e : Extent) : e.Within e := ⟨Nat.le_refl _, Nat.le_refl _⟩

theorem Within.trans (h : e.Within e') (h' : e'.Within e'') : e.Within e'' :=
  ⟨Nat.le_trans h.vertices h'.vertices, Nat.le_trans h.scopes h'.scopes⟩

theorem Within.vertex (h : e.Within e') (hv : v < e.vertices) : v < e'.vertices :=
  Nat.lt_of_lt_of_le hv h.vertices

theorem Within.scope (h : e.Within e') (hs : s < e.scopes) : s < e'.scopes :=
  Nat.lt_of_lt_of_le hs h.scopes

/-- The vertex `w` is there, and comes after `v`. -/
def Later (e : Extent) (v w : Nat) : Prop := v < w ∧ w < e.vertices

theorem Later.mono (h : e.Later v w) (he : e.Within e') : e'.Later v w := ⟨h.1, he.vertex h.2⟩

end Extent

/-! ## What refers to what -/

/-- The numbers that a vertex refers to are in range and in order. -/
structure Vertex.Sound (e : Extent) (v : Nat) (x : Vertex) : Prop where
  parent : ∀ u, x.parent = some u → u < v ∧ u < e.vertices
  arcs : ∀ f ∈ x.arcs, e.Later v f.2.vertex
  elems : ∀ w ∈ x.elems, e.Later v w
  forward : ∀ w, x.forward = some w → e.Later v w
  disjuncts : ∀ w ∈ x.disjuncts, e.Later v w
  copied : ∀ t ∈ x.copied, t < e.vertices
  seeds : ∀ c ∈ x.seeds, c.scope < e.scopes
  patterns : ∀ p ∈ x.patterns, p.scope < e.scopes
  groups : ∀ g ∈ x.groups, ∀ p ∈ g.patterns, p.2 < e.scopes
  lists : ∀ l ∈ x.lists, l.scope < e.scopes

def Scope.Sound (e : Extent) (s : Nat) : Scope → Prop
  | .root _ => True
  | .struct parent _ v => parent < s ∧ parent < e.scopes ∧ v < e.vertices

namespace Vertex

variable {e e' : Extent} {v w : Nat} {x : Vertex}

theorem Sound.mono (h : x.Sound e v) (he : e.Within e') : x.Sound e' v where
  parent u hu := ⟨(h.parent u hu).1, he.vertex (h.parent u hu).2⟩
  arcs f hf := (h.arcs f hf).mono he
  elems w hw := (h.elems w hw).mono he
  forward w hw := (h.forward w hw).mono he
  disjuncts w hw := (h.disjuncts w hw).mono he
  copied t ht := he.vertex (h.copied t ht)
  seeds c hc := he.scope (h.seeds c hc)
  patterns p hp := he.scope (h.patterns p hp)
  groups g hg p hp := he.scope (h.groups g hg p hp)
  lists l hl := he.scope (h.lists l hl)

theorem sound_fresh {parent : Option Nat} (paths : List Path) {seeds : List Conjunct}
    (hparent : ∀ u, parent = some u → u < v ∧ u < e.vertices)
    (hseeds : ∀ c ∈ seeds, c.scope < e.scopes) :
    (fresh parent paths seeds).Sound e v where
  parent := hparent
  arcs := List.forall_mem_nil _
  elems := List.forall_mem_nil _
  forward := nofun
  disjuncts := List.forall_mem_nil _
  copied := List.forall_mem_nil _
  seeds := hseeds
  patterns := List.forall_mem_nil _
  groups := List.forall_mem_nil _
  lists := List.forall_mem_nil _

theorem sound_default : (default : Vertex).Sound e v :=
  { sound_fresh [] (nofun : ∀ u, none = some u → u < v ∧ u < e.vertices) (List.forall_mem_nil _) with }

theorem Sound.meet (h : x.Sound e v) (val : Val) : (x.meet val).Sound e v := { h with }

theorem Sound.record (h : x.Sound e v) (f : Fault) : (x.record f).Sound e v := by
  unfold Vertex.record
  split
  · exact { h with }
  · exact h.meet _

theorem Sound.addSeeds (h : x.Sound e v) {cs : List Conjunct} (hcs : ∀ c ∈ cs, c.scope < e.scopes) :
    ∀ c ∈ x.seeds ++ cs, c.scope < e.scopes :=
  fun c hc => (List.mem_append.mp hc).elim (h.seeds c) (hcs c)

theorem Sound.arc? (h : x.Sound e v) {label : Label} {arc : Arc} (harc : x.arc? label = some arc) :
    e.Later v arc.vertex := by
  obtain ⟨before, after, harcs, -⟩ := List.lookup_eq_some_iff.mp harc
  exact h.arcs (label, arc) (by rw [harcs]; exact List.mem_append_right _ List.mem_cons_self)

theorem Sound.part? (h : x.Sound e v) {s : Selector} (hw : x.part? s = some w) : e.Later v w := by
  cases s with
  | label l =>
    obtain ⟨arc, harc, rfl⟩ := Option.map_eq_some_iff.mp hw
    exact h.arc? harc
  | index n => exact h.elems w (List.mem_of_getElem? hw)

end Vertex

namespace Arena

variable {a b : Arena} {u v w s : Nat}

def extent (a : Arena) : Extent := ⟨a.vertices.size, a.scopes.size⟩

/-- All that an arena refers to is there, in this order. -/
structure Ordered (a : Arena) : Prop where
  vertex (v : Nat) : (a.vertex v).Sound a.extent v
  scope (s : Nat) : (a.scope s).Sound a.extent s
  plain : plainScope < a.scopes.size

/-! ## Changes -/

theorem scope_of_size_le (h : a.scopes.size ≤ s) : a.scope s = default := by
  simp [scope, h]

theorem ordered_of_eq (h : a.Ordered) (hv : b.vertices = a.vertices) (hs : b.scopes = a.scopes) :
    b.Ordered := by
  obtain ⟨vertices, scopes, fills, withheld, depth⟩ := a
  obtain ⟨vertices', scopes', fills', withheld', depth'⟩ := b
  obtain rfl : vertices' = vertices := hv
  obtain rfl : scopes' = scopes := hs
  exact ⟨h.vertex, h.scope, h.plain⟩

@[simp] theorem extent_modify (a : Arena) (v : Nat) (f : Vertex → Vertex) :
    (a.modify v f).extent = a.extent := by
  simp [extent, modify]

theorem extent_add (a : Arena) (x : Vertex) : a.extent.Within (a.add x).2.extent :=
  ⟨by simp [extent], Nat.le_refl _⟩

theorem extent_addScope (a : Arena) (x : Scope) : a.extent.Within (a.addScope x).2.extent :=
  ⟨Nat.le_refl _, by simp [extent, addScope]⟩

theorem Ordered.modify (h : a.Ordered) (v : Nat) {f : Vertex → Vertex}
    (hf : (f (a.vertex v)).Sound a.extent v) : (a.modify v f).Ordered where
  vertex u := by
    rw [extent_modify]
    by_cases huv : u = v
    · subst huv
      by_cases hu : u < a.vertices.size
      · rw [vertex_modify f hu]
        exact hf
      · rw [modify_of_size_le f (Nat.le_of_not_lt hu)]
        exact h.vertex u
    · rw [vertex_modify_of_ne a f huv]
      exact h.vertex u
  scope s := by
    rw [extent_modify]
    exact h.scope s
  plain := h.plain

theorem Scope.Sound.mono {e e' : Extent} {x : Scope} (h : x.Sound e s) (he : e.Within e') :
    x.Sound e' s := by
  cases x with
  | root imports => trivial
  | struct parent decls v => exact ⟨h.1, he.scope h.2.1, he.vertex h.2.2⟩

theorem Ordered.add (h : a.Ordered) {x : Vertex} (hx : x.Sound (a.add x).2.extent a.vertices.size) :
    (a.add x).2.Ordered where
  vertex u := by
    rcases Nat.lt_trichotomy u a.vertices.size with hu | rfl | hu
    · rw [vertex_add_of_lt x hu]
      exact (h.vertex u).mono (extent_add a x)
    · rw [vertex_add]
      exact hx
    · rw [vertex_of_size_le (by rw [size_add]; omega)]
      exact Vertex.sound_default
  scope s := Scope.Sound.mono (h.scope s) (extent_add a x)
  plain := h.plain

theorem Ordered.addScope (h : a.Ordered) {x : Scope} (hx : x.Sound a.extent a.scopes.size) :
    (a.addScope x).2.Ordered where
  vertex v := (h.vertex v).mono (extent_addScope a x)
  scope s := by
    refine Scope.Sound.mono (e := a.extent) ?_ (extent_addScope a x)
    rcases Nat.lt_trichotomy s a.scopes.size with hs | rfl | hs
    · rw [scope_addScope_of_lt x hs]
      exact h.scope s
    · rw [scope_addScope]
      exact hx
    · rw [scope_of_size_le (by simp [Arena.addScope]; omega)]
      trivial
  plain := Nat.lt_of_lt_of_le h.plain (extent_addScope a x).scopes

/-- A fill is written in no file. -/
theorem Ordered.fillsAt (h : a.Ordered) (paths : List Path) :
    ∀ c ∈ a.fillsAt paths, c.scope < a.scopes.size := by
  intro c hc
  obtain ⟨fill, -, rfl⟩ := List.mem_map.mp hc
  exact h.plain

/-! ## Walks -/

/-- Stand-ins have higher numbers, so the last one is reached. -/
theorem Ordered.forward_follow (h : a.Ordered) (v : Nat) :
    (a.vertex (a.follow v)).forward = none := by
  have hgo (n u : Nat) (hu : a.vertices.size ≤ u + n) :
      (a.vertex (follow.go a n u)).forward = none := by
    induction n generalizing u with
    | zero =>
      rw [follow.go, vertex_of_size_le (v := u) hu]
      rfl
    | succ n ih =>
      rw [follow.go]
      cases hf : (a.vertex u).forward with
      | none => exact hf
      | some w =>
        have := ((h.vertex u).forward w hf).1
        exact ih w (by omega)
  exact hgo _ v (Nat.le_add_left _ _)

theorem Ordered.follow_eq (h : a.Ordered) (v : Nat) : a.follow v =
    match (a.vertex v).forward with
    | none => v
    | some w => a.follow w := by
  -- more steps than it takes change nothing
  have hgo (n u : Nat) (hu : a.vertices.size ≤ u + n) :
      follow.go a (n + 1) u = follow.go a n u := by
    induction n generalizing u with
    | zero =>
      unfold follow.go
      rw [vertex_of_size_le (v := u) hu]
      rfl
    | succ n ih =>
      unfold follow.go
      cases hf : (a.vertex u).forward with
      | none => rfl
      | some w =>
        have := ((h.vertex u).forward w hf).1
        exact ih w (by omega)
  rw [follow, ← hgo _ v (Nat.le_add_left _ _), follow.go]
  cases (a.vertex v).forward <;> rfl

theorem Ordered.follow_lt (h : a.Ordered) (hv : v < a.vertices.size) :
    a.follow v < a.vertices.size := by
  have hgo (n u : Nat) (hu : u < a.vertices.size) : follow.go a n u < a.vertices.size := by
    induction n generalizing u with
    | zero => exact hu
    | succ n ih =>
      rw [follow.go]
      cases hf : (a.vertex u).forward with
      | none => exact hu
      | some w => exact ih w ((h.vertex u).forward w hf).2
  exact hgo _ v hv

/-- Parents have lower numbers, so the root is reached. -/
theorem Ordered.isAncestor_eq (h : a.Ordered) (target v : Nat) : a.isAncestor target v =
    match (a.vertex v).parent with
    | none => false
    | some u => a.follow u == a.follow target || a.isAncestor target u := by
  have hgo (t n k : Nat) (p : Option Nat) (hn : ∀ u, p = some u → u < n) (hk : ∀ u,
      p = some u → u < k) :
      isAncestor.go a t n p = isAncestor.go a t k p := by
    induction n generalizing k p with
    | zero =>
      cases p with
      | none => cases k <;> rfl
      | some u => exact absurd (hn u rfl) (Nat.not_lt_zero u)
    | succ n ih =>
      cases p with
      | none => cases k <;> rfl
      | some u =>
        cases k with
        | zero => exact absurd (hk u rfl) (Nat.not_lt_zero u)
        | succ k =>
          have hu := hn u rfl
          have hu' := hk u rfl
          rw [isAncestor.go, isAncestor.go, ih k]
          · intro t ht
            have := ((h.vertex u).parent t ht).1
            omega
          · intro t ht
            have := ((h.vertex u).parent t ht).1
            omega
  rw [isAncestor]
  cases hp : (a.vertex v).parent with
  | none => cases a.vertices.size <;> rfl
  | some u =>
    have hu : u < a.vertices.size := ((h.vertex v).parent u hp).2
    rw [hgo _ _ (a.vertices.size + 1) _ (fun t ht => by cases ht; exact hu)
      (fun t ht => by cases ht; omega), isAncestor.go]
    rfl

/-- The scope around a struct has a lower number, so a name is found or the outermost scope is
reached. -/
theorem Ordered.lookupName_eq (h : a.Ordered) (name : String) (s : Nat) : a.lookupName name s =
    match a.scope s with
    | .root imports => a.lookupOutermost name imports
    | .struct parent decls v =>
      if decls.any (Decl.declares (Label.ofIdent name.toList)) then
        match (a.vertex (a.follow v)).arc? (Label.ofIdent name.toList) with
        | some arc => .ok (.vertex arc.vertex)
        | none => .error (.cyclicReference (Label.ofIdent name.toList).display)
      else a.lookupName name parent := by
  have hgo (n k s : Nat) (hn : s < n) (hk : s < k) :
      lookupName.go a name n s = lookupName.go a name k s := by
    induction n generalizing k s with
    | zero => exact absurd hn (Nat.not_lt_zero s)
    | succ n ih =>
      cases k with
      | zero => exact absurd hk (Nat.not_lt_zero s)
      | succ k =>
        have hs := h.scope s
        rw [lookupName.go, lookupName.go]
        cases hscope : a.scope s with
        | root imports => rfl
        | struct parent decls v =>
          rw [hscope] at hs
          dsimp only
          rw [ih k parent (Nat.lt_of_lt_of_le hs.1 (Nat.le_of_lt_succ hn))
            (Nat.lt_of_lt_of_le hs.1 (Nat.le_of_lt_succ hk))]
  have hs := h.scope s
  obtain ⟨n, hsize⟩ := Nat.exists_eq_succ_of_ne_zero (Nat.ne_of_gt h.plain)
  rw [lookupName]
  cases hscope : a.scope s with
  | root imports => rw [hsize, lookupName.go, hscope]
  | struct parent decls v =>
    rw [hscope] at hs
    have hlt : s < a.scopes.size := by
      refine Nat.lt_of_not_le fun hle => ?_
      rw [scope_of_size_le hle] at hscope
      cases hscope
    rw [hgo _ (a.scopes.size + 1) s hlt (by omega), lookupName.go, hscope]
    rfl

/-- A name stands for a vertex that is there. -/
theorem Ordered.lookupName_lt (h : a.Ordered) {name : String}
    (hw : a.lookupName name s = .ok (.vertex w)) : w < a.vertices.size := by
  have houter {imports : List String} (hw : a.lookupOutermost name imports = .ok (.vertex w)) :
      w < a.vertices.size := by
    unfold lookupOutermost at hw
    split at hw
    · rename_i arc harc
      cases hw
      exact ((h.vertex _).arc? harc).2
    · split at hw
      · cases hw
      · cases hw
      · split at hw <;> cases hw
  have hgo (n s : Nat) (hw : lookupName.go a name n s = .ok (.vertex w)) : w < a.vertices.size := by
    induction n generalizing s with
    | zero => cases hw
    | succ n ih =>
      unfold lookupName.go at hw
      split at hw
      · exact houter hw
      · dsimp only at hw
        split at hw
        · split at hw
          · rename_i arc harc
            cases hw
            exact ((h.vertex _).arc? harc).2
          · cases hw
        · exact ih _ hw
  exact hgo _ _ hw

end Arena

end SchemaMock
