import SchemaMock.Proofs.Echo.Query
import SchemaMock.Proofs.Eval.Labels

/-! # Queries of one value agree

A query is answered by a vertex of its own arena, but all of them begin with the same lookup and
settle on the same vertex. Where that vertex has a host value it is neither bottom nor still waiting
for something, so its kind, its fields and its elements are those of the host value. No field is
counted twice, as a vertex has one field of each label.
-/

namespace SchemaMock

open Arena Eval

def Selector.name? : Selector → Option String
  | .label (.regular name) => some name
  | _ => none

theorem Selector.eq_of_name? {s : Selector} {name : String} (h : s.name? = some name) :
    s = .label (.regular name) := by
  unfold name? at h
  split at h <;> cases h
  rfl

namespace Json

def kinds : Json → Kinds
  | .null => .ofNull
  | .bool _ => .ofBool
  | .int _ => .ofInt
  | .float _ => .ofFloat
  | .str _ => .ofString
  | .arr _ => .ofList
  | .obj _ => .ofStruct

end Json

/-! ## The vertex behind a host value -/

/-- The kind and the parts of a vertex are those of a host value. -/
inductive Vertex.Portrays (x : Vertex) : Json → Prop
  | scalar {s : Scalar} {j : Json} : x.val = .atom s → s.toJson = .ok j → Portrays x j
  | object {fields : List (String × Json)} : x.val.kinds = .ofStruct →
    fields.map (·.1) = (x.fields.filter (·.1.isRegular)).map (·.1.display) →
    Portrays x (Json.ofFields fields)
  | list {items : List Json} : x.val.kinds = .ofList → items.length = x.elems.length →
    Portrays x (.arr items)

namespace Vertex

variable {x : Vertex} {j : Json}

theorem kinds_of_toJson {s : Scalar} (h : s.toJson = .ok j) : s.kinds = j.kinds := by
  unfold Scalar.toJson at h
  split at h
  · cases h; rfl
  · cases h; rfl
  · split at h <;> cases h; rfl
  · split at h <;> cases h; rfl
  · cases h; rfl

theorem Portrays.kinds (h : x.Portrays j) : x.val.kinds = j.kinds := by
  cases h with
  | scalar hval hj => rw [hval]; exact kinds_of_toJson hj
  | object hkinds => exact hkinds
  | list hkinds => exact hkinds

/-- The regular fields that are present, by name. -/
theorem filterMap_name?_fields (x : Vertex) :
    (x.fields.map fun f => Selector.label f.1).filterMap Selector.name? =
      (x.fields.filter (·.1.isRegular)).map (·.1.display) := by
  induction x.fields with
  | nil => rfl
  | cons f fields ih =>
    obtain ⟨l, w⟩ := f
    rw [List.map_cons]
    cases l with
    | regular name => exact congrArg (name :: ·) ih
    | _ => exact ih

theorem nodup_names (h : x.labels.Nodup) :
    ((x.fields.filter (·.1.isRegular)).map (·.1.display)).Nodup := by
  have hpresent : (x.fields.map (·.1)).Nodup := by
    have hmap : x.fields.map (·.1) = (x.arcs.filter (·.2.required)).map (·.1) := by
      rw [fields, List.map_map]
      rfl
    rw [hmap]
    exact h.sublist (List.filter_sublist.map _)
  rw [← filterMap_name?_fields]
  refine List.Nodup.filterMap (fun s t name hs ht => ?_) ?_
  · exact (Selector.eq_of_name? hs).trans (Selector.eq_of_name? ht).symm
  · rw [← Function.comp_def Selector.label, ← List.map_map]
    exact hpresent.map fun _ _ => Selector.label.inj

/-- The names of an object are those of the regular fields, each once. -/
theorem Portrays.names {fs : List (String × Json)} (h : x.Portrays (.obj fs))
    (hx : x.labels.Nodup) :
    ((x.fields.map fun f => Selector.label f.1).filterMap Selector.name?).Perm (fs.map (·.1)) := by
  rw [filterMap_name?_fields]
  generalize hj : Json.obj fs = j at h
  cases h with
  | scalar hval hs =>
    rw [← hj] at hs
    unfold Scalar.toJson at hs
    split at hs <;> first | cases hs | (split at hs <;> cases hs)
  | list => cases hj
  | @object fields hkinds hnames =>
    have hnodup := nodup_names hx
    rw [← hnames] at hnodup ⊢
    obtain ⟨gs, hgs, hperm, -⟩ := Json.exists_ofFields hnodup
    rw [hgs] at hj
    cases hj
    exact (hperm.map (·.1)).symm

/-- A list has as many elements as the array. -/
theorem Portrays.length {items : List Json} (h : x.Portrays (.arr items)) :
    x.elems.length = items.length := by
  generalize hj : Json.arr items = j at h
  cases h with
  | scalar hval hs =>
    rw [← hj] at hs
    unfold Scalar.toJson at hs
    split at hs <;> first | cases hs | (split at hs <;> cases hs)
  | object => cases hj
  | list hkinds hlength =>
    cases hj
    exact hlength.symm

end Vertex

namespace Attempt

/-- What shows in each result of a run over a list shows in all of them together. -/
theorem gives_mapM_map {α β γ : Type} {m : α → Attempt β} {f : α → γ} {g : β → γ}
    (h : ∀ x, Gives (m x) fun y => g y = f x) (xs : List α) :
    Gives (xs.mapM m) fun ys => ys.map g = xs.map f := by
  induction xs with
  | nil => exact gives_pure rfl
  | cons x xs ih =>
    rw [List.mapM_cons]
    refine (h x).bind fun y hy => ih.bind fun ys hys => gives_pure ?_
    rw [List.map_cons, List.map_cons, hy, hys]

end Attempt

namespace Eval

variable {process : Nat → Eval Unit} {left v w : Nat} {a b : Arena} {j : Json}

theorem obstacle?_eq_none (h : a.obstacle? v = none) :
    (a.vertex v).val.isBottom = false ∧ (a.vertex v).pending = [] := by
  unfold obstacle? at h
  dsimp only at h
  split at h
  · cases h
  · split at h
    · cases h
    case h_2 hval =>
      refine ⟨?_, List.head?_eq_none_iff.mp (Option.map_eq_none_iff.mp h)⟩
      cases hv : (a.vertex v).val with
      | bottom f => exact absurd hv (hval f)
      | _ => rfl

/-- What is exported of a vertex shows its kind and its parts. -/
theorem gives_exportVal (v : Nat) (x : Vertex) : (exportVal process left v x).Gives x.Portrays := by
  unfold exportVal
  split
  case h_1 s hval =>
    split
    case h_1 j hj => exact Attempt.gives_pure (.scalar hval hj)
    case h_2 => exact (Attempt.gives_any _).bind fun _ _ => Attempt.gives_throw _
  case h_2 =>
    split
    case isTrue hkinds =>
      refine Attempt.Gives.bind (P := fun fields => fields.map (·.1) =
        (x.fields.filter (·.1.isRegular)).map (·.1.display))
        (Attempt.gives_mapM_map (fun f => ?_) _)
        fun fields hfields => Attempt.gives_pure (.object hkinds hfields)
      exact (Attempt.gives_any _).bind fun _ _ => Attempt.gives_pure rfl
    case isFalse =>
      split
      case isTrue hkinds =>
        refine Attempt.Gives.bind (P := fun items => items.map (fun _ => ()) =
          x.elems.map fun _ => ())
          (Attempt.gives_mapM_map (fun w _ _ _ _ => rfl) _) fun items hitems =>
          Attempt.gives_pure (.list hkinds ?_)
        simpa using congrArg List.length hitems
      case isFalse => exact (Attempt.gives_any _).bind fun _ _ => Attempt.gives_throw _

/-- An export that succeeds has met no obstacle. -/
theorem exists_of_exportVertex {c : Arena} (h : (exportVertex process v).run a = (.ok j, c)) :
    ∃ w b, settle process v a = (w, b) ∧ b.obstacle? w = none ∧ (b.vertex w).Portrays j := by
  rcases hsettle : settle process v a with ⟨w, b⟩
  refine ⟨w, b, rfl, ?_⟩
  rw [exportVertex, exportAt, Attempt.run_bind, Attempt.run_perform, hsettle] at h
  dsimp only at h
  rw [Attempt.run_bind, Attempt.run_perform] at h
  dsimp only [view] at h
  cases hobstacle : b.obstacle? w with
  | some f =>
    rw [hobstacle] at h
    cases h
  | none =>
    rw [hobstacle] at h
    exact ⟨rfl, gives_exportVal w (b.vertex w) b j c h⟩

/-- The fields that are listed are those of the vertex that was settled on. -/
theorem exists_of_fieldsOf {selectors : List Selector} {c : Arena}
    (h : (fieldsOf v).run a = (.ok selectors, c)) :
    ∃ w b, settle evaluate v a = (w, b) ∧
      selectors = (b.vertex w).fields.map fun f => .label f.1 := by
  rcases hsettle : settle evaluate v a with ⟨w, b⟩
  refine ⟨w, b, rfl, ?_⟩
  cases hobstacle : partsObstacle? b w with
  | some f =>
    simp only [fieldsOf, listable, Attempt.run_bind, Attempt.run_perform, hsettle, view,
      hobstacle] at h
    cases h
  | none =>
    rw [fieldsOf, Attempt.run_bind, run_listable hsettle hobstacle] at h
    dsimp only at h
    rw [Attempt.run_bind, Attempt.run_perform] at h
    dsimp only [vertex] at h
    split at h
    · cases h
      rfl
    · rw [failAt, Attempt.run_bind, Attempt.run_perform] at h
      cases h

/-! ## The other queries of that vertex -/

variable (hsettle : settle evaluate v a = (w, b)) (h : b.obstacle? w = none)
include hsettle

theorem kindsOf_of_settle : (kindsOf v a).1 = (b.vertex w).val.kinds := by
  rw [kindsOf, run_bind, hsettle]
  rfl

include h

theorem faultOf_of_settle : (faultOf v a).1 = none := by
  have hval := (obstacle?_eq_none h).1
  rw [faultOf, run_bind, hsettle, run_bind]
  dsimp only [vertex]
  cases hv : (b.vertex w).val with
  | bottom f => rw [hv] at hval; cases hval
  | _ => rfl

theorem listable_of_settle : (listable v).run a = (.ok w, b) := by
  obtain ⟨hval, hpending⟩ := obstacle?_eq_none h
  refine run_listable hsettle ?_
  simp only [partsObstacle?, hpending]
  cases hv : (b.vertex w).val with
  | bottom f => rw [hv] at hval; cases hval
  | _ => simp

theorem fieldsOf_of_settle (hkinds : (b.vertex w).val.kinds = .ofStruct) :
    (fieldsOf v).run a = (.ok ((b.vertex w).fields.map fun f => .label f.1), b) := by
  rw [fieldsOf, Attempt.run_bind, listable_of_settle hsettle h]
  dsimp only
  rw [Attempt.run_bind, Attempt.run_perform]
  dsimp only [vertex]
  rw [hkinds]
  rfl

theorem lengthOf_of_settle (hkinds : (b.vertex w).val.kinds = .ofList) :
    (lengthOf v).run a = (.ok (b.vertex w).elems.length, b) := by
  rw [lengthOf, Attempt.run_bind, listable_of_settle hsettle h]
  dsimp only
  rw [Attempt.run_bind, Attempt.run_perform]
  dsimp only [vertex]
  rw [hkinds]
  rfl

end Eval

namespace Value

variable {v : Value} {j : Json}

/-- The vertex that queries of a value settle on has one field of each label. -/
theorem nodup_labels_of_settle {u w : Nat} {a b : Arena}
    (hlookup : (Eval.lookup v.path).run (ofInputs v.sources v.fills) = (.ok u, a))
    (hsettle : settle evaluate u a = (w, b)) : (b.vertex w).labels.Nodup := by
  have ha := labelled_lookup v.path _ (labelled_ofInputs v.sources v.fills)
  rw [hlookup] at ha
  have hb := keeps_settle labelled_evaluate u a ha
  rw [hsettle] at hb
  exact hb w

/-- All queries of a value with a host value settle on one vertex that shows it. -/
theorem exists_portrayed (h : v.toJson = .ok j) :
    ∃ u a w b, (∀ {α : Type} (onFault : Fault → α) (onVertex : Nat → Eval α),
        v.query onFault onVertex = (onVertex u a).1) ∧
      settle evaluate u a = (w, b) ∧ b.obstacle? w = none ∧ (b.vertex w).Portrays j ∧
      (b.vertex w).labels.Nodup := by
  have hexport := Except.eq_ok_of_mapError h
  rw [attempt, query_eq] at hexport
  rcases hlookup : (Eval.lookup v.path).run (ofInputs v.sources v.fills) with ⟨f | u, a⟩
  · rw [hlookup] at hexport
    cases hexport
  · rw [hlookup] at hexport
    obtain ⟨w, b, hsettle, hobstacle, hportrays⟩ :=
      exists_of_exportVertex (c := ((exportVertex evaluate u).run a).2) (Prod.ext hexport rfl)
    refine ⟨u, a, w, b, fun onFault onVertex => ?_, hsettle, hobstacle, hportrays, ?_⟩
    · rw [query_eq, hlookup]
    · exact nodup_labels_of_settle hlookup hsettle

/-- No two regular fields of a value have one name. -/
theorem nodup_fields {parts : List (Selector × Value)} (h : v.fields = .ok parts) :
    (parts.filterMap (·.1.name?)).Nodup := by
  obtain ⟨selectors, hselectors, h⟩ := Except.exists_of_bind_eq_ok h
  cases h
  rw [attempt, query_eq] at hselectors
  rcases hlookup : (Eval.lookup v.path).run (ofInputs v.sources v.fills) with ⟨f | u, a⟩
  · rw [hlookup] at hselectors
    cases hselectors
  · rw [hlookup] at hselectors
    obtain ⟨w, b, hsettle, rfl⟩ :=
      exists_of_fieldsOf (c := ((fieldsOf u).run a).2) (Prod.ext hselectors rfl)
    have hnames := Vertex.nodup_names (nodup_labels_of_settle hlookup hsettle)
    rw [← Vertex.filterMap_name?_fields] at hnames
    rwa [List.filterMap_map]

/-- The queries of a value that has a host value agree with it. The value exists, is no fault and
has the single kind of the host value. Its regular fields are the fields of an object, each once,
its elements are as many as those of an array, and it is null just when the host value is. -/
theorem queries_agree (h : v.toJson = .ok j) :
    v.exists_ = true ∧ v.fault? = none ∧ v.kinds = j.kinds ∧ (v.isNull = true ↔ j = .null) ∧
    (∀ fs, j = .obj fs → ∃ parts, v.fields = .ok parts ∧ (fs.map (·.1)).Nodup ∧
      (parts.filterMap (·.1.name?)).Perm (fs.map (·.1))) ∧
    ∀ items, j = .arr items → v.length = .ok items.length ∧
      ∃ ws, v.elements = .ok ws ∧ ws.length = items.length := by
  obtain ⟨u, a, w, b, hquery, hsettle, hobstacle, hportrays, hlabels⟩ := exists_portrayed h
  refine ⟨?_, ?_, ?_, ?_, fun fs hj => ?_, fun items hj => ?_⟩
  · rw [exists_, hquery]
    rfl
  · rw [fault?, hquery, faultOf_of_settle hsettle hobstacle]
  · rw [kinds, hquery, kindsOf_of_settle hsettle, hportrays.kinds]
  · rw [isNull, h]
    cases j <;> simp
  · subst hj
    have hfields : v.attempt fieldsOf = .ok ((b.vertex w).fields.map fun f => .label f.1) := by
      rw [attempt, hquery]
      exact congrArg Prod.fst (fieldsOf_of_settle hsettle hobstacle hportrays.kinds)
    have hperm := hportrays.names hlabels
    refine ⟨_, by rw [fields, hfields]; rfl, ?_, ?_⟩
    · rw [← hperm.nodup_iff, Vertex.filterMap_name?_fields]
      exact Vertex.nodup_names hlabels
    · rw [List.filterMap_map]
      exact hperm
  · subst hj
    have hlength : v.length = .ok items.length := by
      rw [length, attempt, hquery]
      refine (congrArg Prod.fst (lengthOf_of_settle hsettle hobstacle hportrays.kinds)).trans ?_
      rw [hportrays.length]
    refine ⟨hlength, _, by rw [elements, hlength]; rfl, ?_⟩
    rw [List.length_map, List.length_range]

/-- A struct with a list, a default, a hidden field, a definition and an optional field. -/
def sampleParts : Value := ofFile ⟨none, [],
  [.field (.regular "b") false (.list [.int 1, .str "x"] none),
    .field (.regular "a") false (.binary .disjoin (.marked (.int 1)) (.ident "int")),
    .field (.hidden "_h") false (.int 2), .field (.definition "D") false (.ident "int"),
    .field (.regular "c") true (.int 3)]⟩

def sampleShown : Json := .obj [("a", .int 1), ("b", .arr [.int 1, .str "x"])]

def isSampleShown : Json → Bool
  | .obj [("a", .int 1), ("b", .arr [.int 1, .str "x"])] => true
  | _ => false

theorem eq_of_isSampleShown (h : isSampleShown j = true) : j = sampleShown := by
  unfold isSampleShown at h
  split at h
  · rfl
  · cases h

theorem queries_agree_parts : sampleParts.toJson = .ok sampleShown ∧
    sampleParts.exists_ = true ∧ sampleParts.fault? = none ∧ sampleParts.kinds = .ofStruct ∧
    sampleParts.isNull = false ∧
    ∃ parts, sampleParts.fields = .ok parts ∧ (parts.filterMap (·.1.name?)).Perm ["a", "b"] := by
  have hshown : (sampleParts.toJson.toOption.map isSampleShown) = some true := by decide +kernel
  have hjson : sampleParts.toJson = .ok sampleShown := by
    cases hr : sampleParts.toJson with
    | error f => rw [hr] at hshown; cases hshown
    | ok j =>
      rw [hr] at hshown
      rw [eq_of_isSampleShown (Option.some.inj hshown)]
  obtain ⟨hexists, hfault, hkinds, hnull, hfields, -⟩ := queries_agree hjson
  obtain ⟨parts, hparts, -, hnames⟩ := hfields _ rfl
  refine ⟨hjson, hexists, hfault, hkinds, ?_, parts, hparts, hnames⟩
  rw [Bool.eq_false_iff, Ne, hnull]
  exact Json.noConfusion

end Value

end SchemaMock
