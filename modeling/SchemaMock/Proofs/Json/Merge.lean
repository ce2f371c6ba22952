import SchemaMock.Proofs.Json.Encoding
import SchemaMock.Proofs.Scalar

/-! # Merging host values

Objects merge name by name, and arrays of one length place by place. Other values merge with what
equals them only.
-/

namespace SchemaMock

/-- The fields of the second object whose names the first one does not have. -/
def Json.beside (fs gs : List (String × Json)) : List (String × Json) :=
  gs.filter fun g => (fs.lookup g.1).isNone

mutual

def Json.merge : Json → Json → Option Json
  | .obj fs, .obj gs => (Json.mergeFields fs gs).map fun ms => .ofFields (ms ++ Json.beside fs gs)
  | .arr is, .arr js => (Json.mergeItems is js).map .arr
  | .null, .null => some .null
  | .bool a, .bool b => if a = b then some (.bool a) else none
  | .int a, .int b => if a = b then some (.int a) else none
  | .float a, .float b => if a == b then some (.float a) else none
  | .str a, .str b => if a = b then some (.str a) else none
  | _, _ => none

/-- The fields of the first object, each merged with the field of its name in the second one. -/
def Json.mergeFields : List (String × Json) → List (String × Json) → Option (List (String × Json))
  | [], _ => some []
  | (name, j) :: fs, gs => do
    let merged ← match gs.lookup name with
      | some k => j.merge k
      | none => some j
    return (name, merged) :: (← Json.mergeFields fs gs)

def Json.mergeItems : List Json → List Json → Option (List Json)
  | [], [] => some []
  | i :: is, j :: js => do return (← i.merge j) :: (← Json.mergeItems is js)
  | _, _ => none

end

/-- Host data for one place: one piece, or two that have to agree. -/
inductive Pieces where
  | one (j : Json)
  | two (i j : Json)

namespace Pieces

def merged : Pieces → Option Json
  | one j => some j
  | two i j => i.merge j

def mergedField (p : String × Pieces) : Option (String × Json) := p.2.merged.map (p.1, ·)

theorem mapM_merged_eq_none {ps : List Pieces} : ps.mapM merged = none ↔
    ∃ p ∈ ps, p.merged = none := by
  induction ps with
  | nil => simp
  | cons p ps ih =>
    rw [List.mapM_cons, List.exists_mem_cons_iff, ← ih]
    cases p.merged <;> cases ps.mapM merged <;> simp

theorem mapM_mergedField_eq_none {ps : List (String × Pieces)} :
    ps.mapM mergedField = none ↔ (ps.map (·.2)).mapM merged = none := by
  induction ps with
  | nil => simp
  | cons p ps ih =>
    rw [List.mapM_cons, List.map_cons, List.mapM_cons, mergedField]
    cases hp : p.2.merged <;> cases hf : ps.mapM mergedField <;>
      cases hm : (ps.map (·.2)).mapM merged <;> simp_all

def All (P : Json → Prop) : Pieces → Prop
  | one j => P j
  | two i j => P i ∧ P j

end Pieces

namespace Json

variable {fs gs : List (String × Json)} {is js : List Json}

def piecesOf (gs : List (String × Json)) (f : String × Json) : Pieces :=
  match gs.lookup f.1 with
  | some k => .two f.2 k
  | none => .one f.2

def pieces (fs gs : List (String × Json)) : List (String × Pieces) :=
  (fs.map fun f => (f.1, piecesOf gs f)) ++ (beside fs gs).map fun g => (g.1, .one g.2)

theorem mergeFields_eq (fs gs : List (String × Json)) :
    mergeFields fs gs = fs.mapM fun f => (piecesOf gs f).merged.map (f.1, ·) := by
  induction fs with
  | nil => rfl
  | cons f fs ih =>
    obtain ⟨name, j⟩ := f
    rw [mergeFields, List.mapM_cons, ih, piecesOf]
    cases gs.lookup name with
    | none => rfl
    | some k => cases hm : j.merge k <;> simp [Pieces.merged, hm]

theorem merge_obj (fs gs : List (String × Json)) :
    merge (.obj fs) (.obj gs) =
      ((pieces fs gs).mapM Pieces.mergedField).map ofFields := by
  have hbeside (hs : List (String × Json)) :
      (hs.map fun g => (g.1, Pieces.one g.2)).mapM Pieces.mergedField = some hs := by
    induction hs with
    | nil => rfl
    | cons h hs ih => rw [List.map_cons, List.mapM_cons, ih]; rfl
  have hfs : (fs.map fun f => (f.1, piecesOf gs f)).mapM Pieces.mergedField =
      fs.mapM fun f => (piecesOf gs f).merged.map (f.1, ·) := List.mapM_map
  rw [merge, mergeFields_eq, pieces, List.mapM_append, hbeside, hfs]
  cases fs.mapM fun f => (piecesOf gs f).merged.map (f.1, ·) <;> rfl

theorem mergeItems_eq (h : is.length = js.length) :
    mergeItems is js = (List.zipWith Pieces.two is js).mapM Pieces.merged := by
  induction is generalizing js with
  | nil =>
    obtain rfl := List.length_eq_zero_iff.mp h.symm
    rfl
  | cons i is ih =>
    cases js with
    | nil => cases h
    | cons j js =>
      rw [mergeItems, ih (Nat.succ.inj h), List.zipWith_cons_cons, List.mapM_cons]
      rfl

theorem mergeItems_of_length_ne (h : is.length ≠ js.length) : mergeItems is js = none := by
  induction is generalizing js with
  | nil =>
    cases js with
    | nil => exact absurd rfl h
    | cons j js => rfl
  | cons i is ih =>
    cases js with
    | nil => rfl
    | cons j js =>
      rw [mergeItems, ih fun he => h (congrArg Nat.succ he)]
      cases i.merge j <;> rfl

theorem merge_arr (h : is.length = js.length) :
    merge (.arr is) (.arr js) = ((List.zipWith Pieces.two is js).mapM Pieces.merged).map .arr := by
  rw [merge, mergeItems_eq h]

theorem depth_le_of_obj {n : Nat} (h : (obj fs).depth ≤ n + 1) : ∀ f ∈ fs, f.2.depth ≤ n := by
  intro f hf
  rw [depth, depthFields_eq] at h
  have := depth_le_of_mem (List.mem_map_of_mem (f := (·.2)) hf)
  omega

theorem depth_le_of_arr {n : Nat} (h : (arr is).depth ≤ n + 1) : ∀ i ∈ is, i.depth ≤ n := by
  intro i hi
  rw [depth] at h
  have := depth_le_of_mem hi
  omega

theorem mem_of_lookup {k : String} {j : Json} (h : fs.lookup k = some j) : (k, j) ∈ fs := by
  induction fs with
  | nil => cases h
  | cons f fs ih =>
    rw [List.lookup_cons] at h
    split at h
    · rename_i hk
      rw [eq_of_beq hk, ← Option.some.inj h]
      exact List.mem_cons_self
    · exact List.mem_cons_of_mem f (ih h)

theorem all_piecesOf {P : Json → Prop} (hfs : ∀ f ∈ fs, P f.2) (hgs : ∀ g ∈ gs, P g.2) :
    ∀ p ∈ pieces fs gs, p.2.All P := by
  intro p hp
  rcases List.mem_append.mp hp with hp | hp
  · obtain ⟨f, hf, rfl⟩ := List.mem_map.mp hp
    dsimp only [piecesOf]
    cases hlookup : gs.lookup f.1 with
    | none => exact hfs f hf
    | some k => exact ⟨hfs f hf, hgs (f.1, k) (mem_of_lookup hlookup)⟩
  · obtain ⟨g, hg, rfl⟩ := List.mem_map.mp hp
    exact hgs g (List.mem_of_mem_filter hg)

theorem all_zipWith {P : Json → Prop} (his : ∀ i ∈ is, P i) (hjs : ∀ j ∈ js, P j) :
    ∀ p ∈ List.zipWith Pieces.two is js, p.All P := by
  intro p hp
  obtain ⟨k, hk, rfl⟩ := List.mem_iff_getElem.mp hp
  rw [List.getElem_zipWith]
  exact ⟨his _ (List.getElem_mem _), hjs _ (List.getElem_mem _)⟩

end Json

end SchemaMock
