import SchemaMock.Proofs.Eval.Lookup
import SchemaMock.Proofs.Eval.Intact

/-! # New parts

A struct that declares fields for the first time, and a list, give a vertex new parts. They take
the next numbers, in the order in which they are written.
-/

namespace SchemaMock

open Arena Eval

namespace Arena

variable {a b : Arena} {v : Nat}

def fieldVertex (a : Arena) (v : Nat) (closed : Bool) (scope : Nat) (d : Label × Expr) : Vertex :=
  let paths := (a.vertex v).paths.map (·.child (.label d.1))
  .fresh (some v) paths (a.fillsAt paths ++ [.of d.2 scope closed])

def elementVertex (a : Arena) (v : Nat) (lists : List ListPart) (index : Nat) : Vertex :=
  let paths := (a.vertex v).paths.map (·.child (.index index))
  .fresh (some v) paths (a.fillsAt paths ++ lists.filterMap (ListPart.conjunct? · index))

def arcsFrom (n : Nat) : List Label → List (Label × Arc)
  | [] => []
  | l :: ls => (l, ⟨n, true⟩) :: arcsFrom (n + 1) ls

theorem map_fst_arcsFrom (n : Nat) (ls : List Label) : (arcsFrom n ls).map (·.1) = ls := by
  induction ls generalizing n with
  | nil => rfl
  | cons l ls ih => rw [arcsFrom, List.map_cons, ih]

theorem fields_of_arcsFrom {x : Vertex} {n : Nat} {ls : List Label} (h : x.arcs = arcsFrom n ls) :
    x.fields = ls.zipIdx n := by
  rw [Vertex.fields, h]
  clear h
  induction ls generalizing n with
  | nil => rfl
  | cons l ls ih => exact congrArg ((l, n) :: ·) ih

theorem map_vertex_arcsFrom (n : Nat) (ls : List Label) :
    (arcsFrom n ls).map (·.2.vertex) = List.range' n ls.length := by
  induction ls generalizing n with
  | nil => rfl
  | cons l ls ih => rw [arcsFrom, List.map_cons, ih, List.length_cons, List.range'_succ]

theorem required_of_mem_arcsFrom {n : Nat} {ls : List Label} {p : Label × Arc}
    (h : p ∈ arcsFrom n ls) : p.2.required = true := by
  induction ls generalizing n with
  | nil => cases h
  | cons l ls ih =>
    rcases List.mem_cons.mp h with rfl | h
    · rfl
    · exact ih h

end Arena

def Decl.required (d : Label × Expr) : Decl := .field d.1 false d.2

theorem Decl.any_declares_required (ds : List (Label × Expr)) {l : Label} (h : l ∉ ds.map (·.1)) :
    (ds.map Decl.required).any (Decl.declares l) = false := by
  simp only [List.any_map, List.any_eq_false]
  intro d hd
  have hne : d.1 ≠ l := fun he => h (he ▸ List.mem_map_of_mem hd)
  simp [Decl.required, Decl.declares, hne]

namespace Eval

variable {process : Nat → Eval Unit} {a b : Arena} {v : Nat}

/-! ## Fields -/

/-- A field that is declared for the first time. -/
theorem run_addField (c : Conjunct) (scope : Nat) {d : Label × Expr} (hlt : v < a.vertices.size)
    (hnew : (a.vertex v).arc? d.1 = none) :
    addDecl v c scope none (.required d) a =
      ([], (a.append [a.fieldVertex v c.closed scope d]).modify v fun x =>
        { x with arcs := x.arcs ++ [(d.1, ⟨a.vertices.size, true⟩)] }) := by
  obtain ⟨label, value⟩ := d
  let paths := (a.vertex v).paths.map (·.child (.label label))
  let fills := a.fillsAt paths
  let f (x : Vertex) : Vertex := { x with arcs := x.arcs ++ [(label, ⟨a.vertices.size, true⟩)] }
  let x : Vertex := .fresh (some v) paths fills
  have harc : arc v label true a = (a.vertices.size, (a.append [x]).modify v f) := by
    rw [arc, run_bind]
    dsimp only [vertex]
    rw [hnew]
    show (a.vertices.size, (a.add x).2.modify v f) = _
    rw [add_eq_append]
  have hseed : ((a.append [x]).modify v f).modify a.vertices.size
      (fun x => { x with seeds := x.seeds ++ [.of value scope c.closed] }) =
      (a.append [a.fieldVertex v c.closed scope (label, value)]).modify v f := by
    rw [modify_append _ _ hlt, modify_append _ _ hlt]
    have := modify_add (a.modify v f) x fun x =>
      { x with seeds := x.seeds ++ [.of value scope c.closed] }
    rw [size_modify, add_eq_append, add_eq_append] at this
    exact this
  show addDecl v c scope none (.field label false value) a = _
  rw [addDecl, run_bind, Bool.not_false, harc]
  exact congrArg (Prod.mk []) hseed

/-- Fields that are declared for the first time. -/
theorem run_addFields (c : Conjunct) (scope : Nat) (ds : List (Label × Expr))
    (hlt : v < a.vertices.size) (hnew : ∀ d ∈ ds, (a.vertex v).arc? d.1 = none)
    (hdistinct : (ds.map (·.1)).Nodup) :
    (ds.map Decl.required).mapM (addDecl v c scope none) a =
      (ds.map fun _ => [], (a.append (ds.map (a.fieldVertex v c.closed scope))).modify v fun x =>
        { x with arcs := x.arcs ++ arcsFrom a.vertices.size (ds.map (·.1)) }) := by
  induction ds generalizing a with
  | nil =>
    simp only [List.map_nil, arcsFrom, List.append_nil, append_nil]
    exact congrArg (Prod.mk []) (modify_eq_self rfl).symm
  | cons d ds ih =>
    let f (x : Vertex) : Vertex := { x with arcs := x.arcs ++ [(d.1, ⟨a.vertices.size, true⟩)] }
    let x := a.fieldVertex v c.closed scope d
    let b := (a.append [x]).modify v f
    have hb : b.vertex v = f (a.vertex v) := by
      rw [← vertex_append_of_lt [x] hlt]
      exact vertex_modify f (by simp; omega)
    have hintact : Intact (· = v) a b := (intact_append _ a [x]).trans (intact_modify_self _ v f)
    have hsame (e : Label × Expr) :
        b.fieldVertex v c.closed scope e = a.fieldVertex v c.closed scope e := by
      simp only [fieldVertex, hb, hintact.fillsAt, f]
    rw [List.map_cons, List.nodup_cons] at hdistinct
    have hfresh : ∀ e ∈ ds, (b.vertex v).arc? e.1 = none := by
      intro e he
      have hne : e.1 ≠ d.1 := fun h => hdistinct.1 (h ▸ List.mem_map_of_mem he)
      have hold := hnew e (List.mem_cons_of_mem _ he)
      rw [hb]
      simp only [Vertex.arc?, f, List.lookup_append] at hold ⊢
      simp [hold, List.lookup_cons, beq_eq_false_iff_ne.mpr hne]
    have hrest := ih (a := b) (by simp [b]; omega) hfresh hdistinct.2
    have hfirst := run_addField c scope (d := d) hlt (hnew d List.mem_cons_self)
    rw [List.map_cons, run_mapM_cons, hfirst]
    show ([] :: ((ds.map Decl.required).mapM (addDecl v c scope none) b).1,
      ((ds.map Decl.required).mapM (addDecl v c scope none) b).2) = _
    rw [hrest, funext hsame]
    refine congrArg (Prod.mk _) ?_
    have hsize : b.vertices.size = a.vertices.size + 1 := by simp [b]
    show ((((a.append [x]).modify v f).append _).modify v _) = _
    rw [← modify_append _ _ (by simp; omega), append_append, modify_modify, hsize]
    simp [f, x, arcsFrom]

/-! ## Elements -/

/-- Elements take the next numbers. -/
theorem run_elements (lists : List ListPart) (indices : List Nat) (hlt : v < a.vertices.size) :
    indices.mapM (element v lists) a = (List.range' a.vertices.size indices.length,
      a.append (indices.map (a.elementVertex v lists))) := by
  induction indices generalizing a with
  | nil => simp; rfl
  | cons i indices ih =>
    let x := a.elementVertex v lists i
    let b := a.append [x]
    have helement : element v lists i a = (a.vertices.size, b) := add_eq_append a x
    have hsame (j : Nat) : b.elementVertex v lists j = a.elementVertex v lists j := by
      simp only [elementVertex, b, vertex_append_of_lt _ hlt,
        (intact_append (fun _ => False) a [x]).fillsAt]
    rw [run_mapM_cons, helement, ih (by simp [b]; omega), funext hsame]
    simp [b, x, append_append, List.range'_succ]

/-- The elements that the lists of a vertex agree on. -/
theorem run_buildList {length : Nat} (hlt : v < a.vertices.size) (hlists : (a.vertex v).lists ≠ [])
    (hlength : agreedLength (a.vertex v).lists = .ok length) :
    buildList v a = ((), (a.append ((List.range length).map
        (a.elementVertex v (a.vertex v).lists))).modify v fun x =>
      { x with
        lists := []
        openList := (a.vertex v).lists.all (·.tail.isSome)
        elems := List.range' a.vertices.size length }) := by
  let lists := (a.vertex v).lists
  let f (x : Vertex) : Vertex := { x with lists := [], openList := lists.all (·.tail.isSome) }
  let b := a.modify v f
  have hb : b.vertex v = f (a.vertex v) := vertex_modify f hlt
  have hintact : Intact (· = v) a b := intact_modify_self a v f
  have hsame (i : Nat) : b.elementVertex v lists i = a.elementVertex v lists i := by
    simp only [elementVertex, hb, hintact.fillsAt, f]
  have helements := run_elements (a := b) lists (List.range length) (by simpa [b] using hlt)
  have hempty : lists.isEmpty = false := by simpa using hlists
  show (if !lists.isEmpty then _ else _ : Eval Unit) a = _
  rw [hempty]
  show setElements v lists (agreedLength lists) b = _
  rw [hlength]
  show ((), ((List.range length).mapM (element v lists) b).2.modify v fun x =>
    { x with elems := ((List.range length).mapM (element v lists) b).1 }) = _
  rw [helements, funext hsame]
  refine congrArg (Prod.mk ()) ?_
  rw [← modify_append _ _ hlt, modify_modify]
  simp [b, f, lists]

/-! ## Unification -/

theorem run_mapM_append {α β : Type} (f : α → Eval β) (xs ys : List α) (a : Arena) :
    (xs ++ ys).mapM f a =
      ((xs.mapM f a).1 ++ (ys.mapM f (xs.mapM f a).2).1, (ys.mapM f (xs.mapM f a).2).2) := by
  induction xs generalizing a with
  | nil => rfl
  | cons x xs ih =>
    rw [List.cons_append, run_mapM_cons, ih, run_mapM_cons]
    rfl

theorem run_mapM_of_same {α β : Type} {f : α → Eval β} {y : β} (xs : List α)
    (h : ∀ x ∈ xs, f x a = (y, a)) : xs.mapM f a = (xs.map fun _ => y, a) := by
  induction xs with
  | nil => rfl
  | cons x xs ih =>
    rw [run_mapM_cons, h x List.mem_cons_self]
    dsimp only
    rw [ih fun z hz => h z (List.mem_cons_of_mem x hz)]
    rfl

theorem run_forM_of_same {α : Type} {f : α → Eval PUnit} (xs : List α)
    (h : ∀ x ∈ xs, f x a = ((), a)) : xs.forM f a = ((), a) := by
  induction xs with
  | nil => rfl
  | cons x xs ih =>
    show (f x >>= fun _ => xs.forM f) a = _
    rw [run_bind, h x List.mem_cons_self]
    exact ih fun y hy => h y (List.mem_cons_of_mem x hy)

theorem addRounds_nil (rounds : Nat) : addRounds process v rounds [] a = (([], []), a) := by
  cases rounds <;> rfl

theorem addRounds_succ (rounds : Nat) (work : List Conjunct) (a : Arena) :
    addRounds process v (rounds + 1) work a =
      let ys := work.mapM (addConjunct process v) a
      let r := addRounds process v rounds (ys.1.flatMap (·.next)) ys.2
      ((ys.1.flatMap (·.kept) ++ r.1.1, ys.1.flatMap (·.disjunctions) ++ r.1.2), r.2) := by
  cases work with
  | nil =>
    show _ = (([] ++ (addRounds process v rounds [] a).1.1, [] ++ (addRounds process v rounds [] a).1.2),
      (addRounds process v rounds [] a).2)
    rw [addRounds_nil, addRounds_nil]
    rfl
  | cons c work =>
    rw [addRounds, run_bind, foldl_append]
    · rfl
    · exact List.cons_ne_nil c work

/-- A round whose outcome is known. -/
theorem addRounds_of_mapM {rounds : Nat} {work next kept kept' : List Conjunct}
    {alts alts' : List (List Alternative)} {ys : List Yield} {c : Arena}
    (h : work.mapM (addConjunct process v) a = (ys, b)) (hnext : ys.flatMap (·.next) = next)
    (hkept : ys.flatMap (·.kept) = kept) (halts : ys.flatMap (·.disjunctions) = alts)
    (hrest : addRounds process v rounds next b = ((kept', alts'), c)) :
    addRounds process v (rounds + 1) work a = ((kept ++ kept', alts ++ alts'), c) := by
  rw [addRounds_succ, h]
  dsimp only
  rw [hnext, hkept, halts, hrest]

/-- A conjunct that leaves nothing for the next round is done with before the others. -/
theorem addRounds_cons {c : Conjunct} {y : Yield} (rounds : Nat) (work : List Conjunct)
    (h : addConjunct process v c a = (y, b)) (hnext : y.next = [])
    (hdisjunctions : y.disjunctions = []) : addRounds process v (rounds + 1) (c :: work) a =
      ((y.kept ++ (addRounds process v (rounds + 1) work b).1.1,
        (addRounds process v (rounds + 1) work b).1.2),
          (addRounds process v (rounds + 1) work b).2) := by
  rw [addRounds_succ, addRounds_succ, run_mapM_cons, h]
  simp only [List.flatMap_cons, hnext, hdisjunctions, List.nil_append, List.append_assoc]

/-- Where no disjunction is left, unification ends with the last step. -/
theorem unifySeeds_of_addRounds {kept : List Conjunct}
    (h : addRounds process v (roundLimit a) (a.vertex v).seeds a = ((kept, []), b)) :
    unifySeeds process v a = finish process v b := by
  rw [unifySeeds, run_bind, run_bind, run_bind]
  generalize roundLimit = limit at h
  have hrun : addRounds process v (view limit (vertex v a).2).1 (vertex v a).1.seeds
      (view limit (vertex v a).2).2 = ((kept, []), b) := h
  rw [hrun]
  rfl

end Eval

end SchemaMock
