import SchemaMock.Expr.Host

/-! # The nesting of host values

A host value that is nested no deeper than the levels that may be opened has an expression.
-/

namespace SchemaMock

namespace Json

theorem depth_pos (j : Json) : 0 < j.depth := by
  cases j <;> simp [depth]

theorem depth_le_of_mem {items : List Json} {j : Json} (h : j ∈ items) :
    j.depth ≤ depthItems items := by
  induction items with
  | nil => cases h
  | cons i items ih =>
    rw [depthItems]
    rcases List.mem_cons.mp h with rfl | h
    · omega
    · have := ih h
      omega

theorem depthItems_le {items : List Json} {n : Nat} (h : ∀ j ∈ items, j.depth ≤ n) :
    depthItems items ≤ n := by
  induction items with
  | nil => exact Nat.zero_le n
  | cons i items ih =>
    rw [depthItems]
    have hi := h i (by simp)
    have hitems := ih fun j hj => h j (by simp [hj])
    omega

theorem depthFields_insertField_le {name : String} {j : Json}
    {fields : List (String × Json)} {n : Nat} (hj : j.depth ≤ n) (hf : depthFields fields ≤ n) :
    depthFields (insertField name j fields) ≤ n := by
  induction fields with
  | nil => simp only [insertField, depthFields]; omega
  | cons f fields ih =>
    obtain ⟨k, v⟩ := f
    simp only [depthFields] at hf
    have htail := ih (by omega)
    rw [insertField]
    split
    · simp only [depthFields]; omega
    · split <;> simp only [depthFields] <;> omega

/-- An object is one level deeper than its deepest field. -/
theorem depth_ofFields_le {fields : List (String × Json)} {n : Nat}
    (h : ∀ f ∈ fields, f.2.depth ≤ n) : (ofFields fields).depth ≤ n + 1 := by
  have hfold (done : List (String × Json)) (hd : depthFields done ≤ n) :
      depthFields (fields.foldl (fun done f => insertField f.1 f.2 done) done) ≤ n := by
    induction fields generalizing done with
    | nil => exact hd
    | cons f fields ih =>
      exact ih (fun g hg => h g (by simp [hg])) _
        (depthFields_insertField_le (h f (by simp)) hd)
  have := hfold [] (Nat.zero_le n)
  simp only [ofFields, depth]
  omega

end Json

namespace Expr

mutual

theorem exists_encode (left : Nat) (j : Json) (h : j.depth ≤ left) :
    ∃ x, encode left j = .ok x := by
  cases left with
  | zero => have := j.depth_pos; omega
  | succ left =>
    match j with
    | .null => exact ⟨_, rfl⟩
    | .bool _ => exact ⟨_, rfl⟩
    | .int _ => exact ⟨_, rfl⟩
    | .float _ => exact ⟨_, rfl⟩
    | .str _ => exact ⟨_, rfl⟩
    | .arr items =>
      rw [Json.depth] at h
      obtain ⟨xs, hxs⟩ := exists_encodeItems left items (by omega)
      exact ⟨.list xs none, by rw [encode, hxs]; rfl⟩
    | .obj fields =>
      rw [Json.depth] at h
      obtain ⟨ds, hds⟩ := exists_encodeFields left fields (by omega)
      exact ⟨.struct ds, by rw [encode, hds]; rfl⟩

theorem exists_encodeItems (left : Nat) (js : List Json) (h : Json.depthItems js ≤ left) :
    ∃ xs, encodeItems left js = .ok xs := by
  match js with
  | [] => exact ⟨_, rfl⟩
  | j :: rest =>
    rw [Json.depthItems] at h
    obtain ⟨x, hx⟩ := exists_encode left j (by omega)
    obtain ⟨xs, hxs⟩ := exists_encodeItems left rest (by omega)
    exact ⟨x :: xs, by rw [encodeItems, hx, hxs]; rfl⟩

theorem exists_encodeFields (left : Nat) (fs : List (String × Json))
    (h : Json.depthFields fs ≤ left) : ∃ ds, encodeFields left fs = .ok ds := by
  match fs with
  | [] => exact ⟨_, rfl⟩
  | (name, j) :: rest =>
    rw [Json.depthFields] at h
    obtain ⟨x, hx⟩ := exists_encode left j (by omega)
    obtain ⟨ds, hds⟩ := exists_encodeFields left rest (by omega)
    exact ⟨.field (.regular name) false x :: ds, by rw [encodeFields, hx, hds]; rfl⟩

end

end Expr

end SchemaMock
