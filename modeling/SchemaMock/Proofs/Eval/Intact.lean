import SchemaMock.Proofs.Eval.Growth

/-! # What a computation leaves as it is

Most computations change few of the vertices that they find. What they say about the others can be
carried along, and so can what they say about the fills.
-/

namespace SchemaMock

namespace Arena

variable {a b c : Arena} {own wider : Nat → Prop} {v w s : Nat}

/-- Vertices and scopes were added, and none of the earlier ones changed but those in `own`. -/
structure Intact (own : Nat → Prop) (a b : Arena) : Prop where
  size : a.vertices.size ≤ b.vertices.size
  scopes : a.scopes.size ≤ b.scopes.size
  scope {s : Nat} : s < a.scopes.size → b.scope s = a.scope s
  vertex {v : Nat} : v < a.vertices.size → ¬ own v → b.vertex v = a.vertex v
  fills : b.fills = a.fills
  withheld : ∀ fill ∈ a.fills, b.isWithheld fill.path = a.isWithheld fill.path

namespace Intact

theorem refl (own : Nat → Prop) (a : Arena) : Intact own a a :=
  ⟨Nat.le_refl _, Nat.le_refl _, fun _ => rfl, fun _ _ => rfl, rfl, fun _ _ => rfl⟩

theorem trans (h : Intact own a b) (h' : Intact own b c) : Intact own a c where
  size := Nat.le_trans h.size h'.size
  scopes := Nat.le_trans h.scopes h'.scopes
  scope hs := (h'.scope (Nat.lt_of_lt_of_le hs h.scopes)).trans (h.scope hs)
  vertex hv hown := (h'.vertex (Nat.lt_of_lt_of_le hv h.size) hown).trans (h.vertex hv hown)
  fills := h'.fills.trans h.fills
  withheld fill hf := (h'.withheld fill (h.fills.symm ▸ hf)).trans (h.withheld fill hf)

/-- What was added later need not be named. -/
theorem mono (h : Intact own a b) (hsub : ∀ v < a.vertices.size, own v → wider v) :
    Intact wider a b :=
  { h with vertex := fun hv hw => h.vertex hv fun ho => hw (hsub _ hv ho) }

/-- Later changes of vertices that were not there before do not count. -/
theorem trans_new (h : Intact own a b) (h' : Intact (a.vertices.size ≤ ·) b c) :
    Intact own a c where
  size := Nat.le_trans h.size h'.size
  scopes := Nat.le_trans h.scopes h'.scopes
  scope hs := (h'.scope (Nat.lt_of_lt_of_le hs h.scopes)).trans (h.scope hs)
  vertex hv hown := (h'.vertex (Nat.lt_of_lt_of_le hv h.size) (Nat.not_le_of_gt hv)).trans
    (h.vertex hv hown)
  fills := h'.fills.trans h.fills
  withheld fill hf := (h'.withheld fill (h.fills.symm ▸ hf)).trans (h.withheld fill hf)

theorem vertex_eq (h : Intact own a b) (hs : (a.vertex v).stage ≠ .pending) (hv : ¬ own v) :
    b.vertex v = a.vertex v := h.vertex (lt_size_of_stage hs) hv

end Intact

instance : Lasting (Intact own) := ⟨Intact.refl own, Intact.trans⟩

/-- None of the earlier vertices changed but those in `own` that were not done. -/
def Extends (own : Nat → Prop) (a b : Arena) : Prop :=
  Intact (fun v => own v ∧ (a.vertex v).stage ≠ .done) a b

namespace Extends

theorem refl (own : Nat → Prop) (a : Arena) : Extends own a a := Intact.refl _ a

theorem vertex_of_done (h : Extends own a b) (hs : (a.vertex v).stage = .done) :
    b.vertex v = a.vertex v :=
  h.vertex_eq (by rw [hs]; decide) fun ho => ho.2 hs

theorem trans (h : Extends own a b) (h' : Extends own b c) : Extends own a c :=
  Intact.trans h (Intact.mono h' fun _ _ hv =>
    ⟨hv.1, fun hs => hv.2 (by rw [h.vertex_of_done hs]; exact hs)⟩)

theorem mono (h : Extends own a b) (hsub : ∀ v < a.vertices.size, own v → wider v) :
    Extends wider a b :=
  Intact.mono h fun v hv ho => ⟨hsub v hv ho.1, ho.2⟩

theorem trans_new (h : Extends own a b) (h' : Extends (a.vertices.size ≤ ·) b c) :
    Extends own a c :=
  Intact.trans_new h (Intact.mono h' fun _ _ hv => hv.1)

theorem not_done (v : Nat) (h : own v ∧ (a.vertex v).stage ≠ .done) :
    (a.vertex v).stage ≠ .done := h.2

end Extends

theorem Intact.extends (h : Intact own a b) (hown : ∀ v, own v → (a.vertex v).stage ≠ .done) :
    Extends own a b :=
  h.mono fun v _ ho => ⟨ho, hown v ho⟩

theorem Intact.extends_self (h : Intact (· = v) a b) (hs : (a.vertex v).stage ≠ .done) :
    Extends (· = v) a b :=
  h.extends fun u hu => by rw [hu]; exact hs

theorem intact_of_eq (own : Nat → Prop) (hv : b.vertices = a.vertices) (hs : b.scopes = a.scopes)
    (hf : b.fills = a.fills) (hw : b.withheld = a.withheld) : Intact own a b where
  size := Nat.le_of_eq (by rw [hv])
  scopes := Nat.le_of_eq (by rw [hs])
  scope _ := by simp only [scope, hs]
  vertex _ _ := by simp only [vertex, hv]
  fills := hf
  withheld _ _ := by simp only [isWithheld, hw]

theorem intact_modify (a : Arena) (f : Vertex → Vertex) (hv : own v) :
    Intact own a (a.modify v f) where
  size := by simp
  scopes := Nat.le_refl _
  scope _ := rfl
  vertex _ hown := vertex_modify_of_ne a f fun he => hown (he ▸ hv)
  fills := rfl
  withheld _ _ := rfl

theorem intact_modify_self (a : Arena) (v : Nat) (f : Vertex → Vertex) :
    Intact (· = v) a (a.modify v f) := intact_modify a f rfl

@[simp] theorem size_addScope (a : Arena) (x : Scope) :
    (a.addScope x).2.vertices.size = a.vertices.size := by simp [addScope]

theorem intact_addScope (own : Nat → Prop) (a : Arena) (x : Scope) :
    Intact own a (a.addScope x).2 :=
  { Intact.refl own a with
    scopes := by simp [addScope]
    scope := fun hs => scope_addScope_of_lt x hs }

/-! ## Several new vertices -/

/-- New vertices take the next numbers. -/
def append (a : Arena) (xs : List Vertex) : Arena := { a with vertices := a.vertices ++ xs.toArray }

variable {xs ys : List Vertex}

@[simp] theorem append_nil (a : Arena) : a.append [] = a := by simp [append]

theorem append_append (a : Arena) (xs ys : List Vertex) :
    (a.append xs).append ys = a.append (xs ++ ys) := by simp [append]

theorem add_eq_append (a : Arena) (x : Vertex) : a.add x = (a.vertices.size, a.append [x]) := by
  simp [add, append]

@[simp] theorem size_append (a : Arena) (xs : List Vertex) :
    (a.append xs).vertices.size = a.vertices.size + xs.length := by simp [append]

theorem vertex_append_of_lt (xs : List Vertex) (h : v < a.vertices.size) :
    (a.append xs).vertex v = a.vertex v := by
  simp [append, vertex, Array.getElem?_append, h]

theorem vertex_append (a : Arena) {i : Nat} (h : i < xs.length) :
    (a.append xs).vertex (a.vertices.size + i) = xs[i] := by
  simp [append, vertex, h]

theorem modify_append (xs : List Vertex) (f : Vertex → Vertex) (h : v < a.vertices.size) :
    (a.append xs).modify v f = (a.modify v f).append xs := by
  simp only [modify, append]
  congr 1
  apply Array.ext
  · simp
  · intro i hi hi'
    simp only [Array.getElem_modify, Array.getElem_append, Array.size_modify]
    split <;> split <;> first | rfl | omega

theorem modify_eq_self {f : Vertex → Vertex} (h : f (a.vertex v) = a.vertex v) :
    a.modify v f = a := by
  have hsame : a.vertices.modify v f = a.vertices := by
    apply Array.ext
    · simp
    · intro i hi hi'
      rw [Array.getElem_modify]
      split
      case isTrue hv =>
        subst hv
        simpa [vertex, hi'] using h
      case isFalse => rfl
  simp [modify, hsame]

theorem modify_congr {f g : Vertex → Vertex} (h : f (a.vertex v) = g (a.vertex v)) :
    a.modify v f = a.modify v g := by
  simp only [modify]
  congr 1
  apply Array.ext
  · simp
  · intro i hi hi'
    simp only [Array.getElem_modify]
    split
    case isTrue hv =>
      subst hv
      have hlt : v < a.vertices.size := by simpa using hi
      simpa [vertex, hlt] using h
    case isFalse => rfl

theorem modify_comm (f g : Vertex → Vertex) (h : v ≠ w) :
    (a.modify v f).modify w g = (a.modify w g).modify v f := by
  simp only [modify]
  congr 1
  apply Array.ext
  · simp
  · intro i hi hi'
    simp only [Array.getElem_modify]
    split <;> split <;> first | rfl | omega

theorem modify_append_right (xs : List Vertex) (i : Nat) (f : Vertex → Vertex) :
    (a.append xs).modify (a.vertices.size + i) f = a.append (xs.modify i f) := by
  simp only [modify, append]
  congr 1
  apply Array.ext
  · simp
  · intro j hj hj'
    simp only [Array.getElem_modify, Array.getElem_append, List.getElem_toArray,
      List.getElem_modify]
    split <;> split <;> first | rfl | omega | (split <;> first | rfl | omega)

theorem intact_append (own : Nat → Prop) (a : Arena) (xs : List Vertex) :
    Intact own a (a.append xs) where
  size := by simp
  scopes := Nat.le_refl _
  scope _ := rfl
  vertex hv _ := vertex_append_of_lt xs hv
  fills := rfl
  withheld _ _ := rfl

/-! ## Fills -/

theorem Intact.fillsAt (h : Intact own a b) (paths : List Path) :
    b.fillsAt paths = a.fillsAt paths := by
  rw [Arena.fillsAt, Arena.fillsAt, h.fills]
  exact congrArg _ (List.filter_congr fun fill hf => by rw [h.withheld fill hf])

theorem Intact.hasFillsBelow (h : Intact own a b) (paths : List Path) :
    b.hasFillsBelow paths = a.hasFillsBelow paths := by
  simp only [Arena.hasFillsBelow, h.fills]

theorem Intact.fillSelectors (h : Intact own a b) (paths : List Path) :
    b.fillSelectors paths = a.fillSelectors paths := by
  have hsame : (a.fills.filter fun fill => !b.isWithheld fill.path) =
      a.fills.filter fun fill => !a.isWithheld fill.path :=
    List.filter_congr fun fill hf => by rw [h.withheld fill hf]
  rw [Arena.fillSelectors, Arena.fillSelectors, h.fills, hsame]

end Arena

namespace Path

variable {p q : Path} {s : Selector}

theorem startsWith_iff : p.startsWith q = true ↔ q.selectors <+: p.selectors := by
  simp [startsWith]

theorem length_child (p : Path) (s : Selector) : (p.child s).length = p.length + 1 := by
  simp [child, length]

/-- What lies at or below a child lies below. -/
theorem startsWith_of_child (h : p.startsWith (q.child s) = true) :
    p.startsWith q = true ∧ q.length < p.length := by
  rw [startsWith_iff] at *
  refine ⟨(List.prefix_append _ _).trans h, ?_⟩
  have := h.length_le
  simp only [child, List.length_append, List.length_singleton] at this
  exact this

end Path

namespace Arena

variable {a : Arena} {paths : List Path} {s : Selector}

theorem hasFillsBelow_eq_false_iff : a.hasFillsBelow paths = false ↔
    ∀ fill ∈ a.fills, ∀ path ∈ paths,
      ¬ (path.length < fill.path.length ∧ fill.path.startsWith path) := by
  simp [hasFillsBelow]

theorem hasFillsBelow_append {ps qs : List Path} (hp : a.hasFillsBelow ps = false)
    (hq : a.hasFillsBelow qs = false) : a.hasFillsBelow (ps ++ qs) = false := by
  rw [hasFillsBelow_eq_false_iff] at *
  intro fill hfill path hpath
  rcases List.mem_append.mp hpath with h | h
  · exact hp fill hfill path h
  · exact hq fill hfill path h

theorem hasFillsBelow_of_subset {qs : List Path} (h : a.hasFillsBelow paths = false)
    (hsub : ∀ p ∈ qs, p ∈ paths) : a.hasFillsBelow qs = false := by
  rw [hasFillsBelow_eq_false_iff] at *
  exact fun fill hfill path hpath => h fill hfill path (hsub path hpath)

/-- Without fills below, no fill is at or below a part. -/
theorem hasFillsBelow_child (h : a.hasFillsBelow paths = false) (s : Selector) :
    ∀ fill ∈ a.fills, ∀ path ∈ paths, fill.path.startsWith (path.child s) = false := by
  intro fill hfill path hpath
  rw [← Bool.not_eq_true]
  intro hp
  obtain ⟨hstarts, hlt⟩ := Path.startsWith_of_child hp
  have hb : a.hasFillsBelow paths = true :=
    List.any_eq_true.mpr ⟨fill, hfill, List.any_eq_true.mpr ⟨path, hpath, by simp [hstarts, hlt]⟩⟩
  rw [h] at hb
  cases hb

theorem hasFillsBelow_parts (h : a.hasFillsBelow paths = false) (s : Selector) :
    a.hasFillsBelow (paths.map (·.child s)) = false := by
  have hno := hasFillsBelow_child h s
  simp only [hasFillsBelow, List.any_eq_false, Bool.not_eq_true]
  intro fill hfill
  simp only [List.mem_map, forall_exists_index, and_imp, forall_apply_eq_imp_iff₂]
  intro path hpath
  simp [hno fill hfill path hpath]

theorem fillsAt_parts (h : a.hasFillsBelow paths = false) (s : Selector) :
    a.fillsAt (paths.map (·.child s)) = [] := by
  have hno := hasFillsBelow_child h s
  simp only [fillsAt, List.map_eq_nil_iff, List.filter_eq_nil_iff, Bool.and_eq_true, not_and]
  intro fill hfill hat
  simp only [List.contains_iff_mem, List.mem_map] at hat
  obtain ⟨path, hpath, he⟩ := hat
  have := hno fill hfill path hpath
  rw [he, ← Bool.not_eq_true, Path.startsWith_iff] at this
  exact absurd List.prefix_rfl this

theorem fillSelectors_of_hasFillsBelow (h : a.hasFillsBelow paths = false) :
    a.fillSelectors paths = [] := by
  have hnone : ((a.fills.filter fun fill => !a.isWithheld fill.path).flatMap fun fill =>
      paths.filterMap fun path =>
        if fill.path.startsWith path then fill.path.selectors[path.length]? else none) = [] := by
    refine List.flatMap_eq_nil_iff.mpr fun fill hfill =>
      List.filterMap_eq_nil_iff.mpr fun path hpath => ?_
    split
    case isFalse => rfl
    case isTrue hp =>
      refine List.getElem?_eq_none (Nat.le_of_not_lt fun hlt => ?_)
      have hb : a.hasFillsBelow paths = true :=
        List.any_eq_true.mpr ⟨fill, (List.mem_filter.mp hfill).1,
          List.any_eq_true.mpr ⟨path, hpath, Bool.and_eq_true_iff.mpr ⟨decide_eq_true hlt, hp⟩⟩⟩
      rw [h] at hb
      cases hb
  show List.foldl _ [] _ = []
  rw [hnone]
  rfl

end Arena

end SchemaMock
