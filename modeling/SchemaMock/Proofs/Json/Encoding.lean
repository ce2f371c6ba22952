import Mathlib.Data.List.Chain
import Mathlib.Data.List.Forall2
import SchemaMock.Proofs.Json.Nesting
import SchemaMock.Proofs.Outcome

/-! # Expressions of host values

What the expression of a host value is made of, and which host values have none: those with a value
inside that is nested too deeply.
-/

namespace SchemaMock

namespace Json

/-- `k` stands inside a host value, `n` levels down. -/
inductive Inside (k : Json) : Nat → Json → Prop
  | self : Inside k 0 k
  | item {n : Nat} {items : List Json} {j : Json} : j ∈ items → Inside k n j →
    Inside k (n + 1) (.arr items)
  | field {n : Nat} {fields : List (String × Json)} {f : String × Json} :
    f ∈ fields → Inside k n f.2 → Inside k (n + 1) (.obj fields)

theorem depthFields_eq (fields : List (String × Json)) :
    depthFields fields = depthItems (fields.map (·.2)) := by
  induction fields with
  | nil => rfl
  | cons f fields ih => rw [depthFields, ih, List.map_cons, depthItems]

theorem exists_depth_of_pos (items : List Json) (h : 0 < depthItems items) :
    ∃ j ∈ items, j.depth = depthItems items := by
  induction items with
  | nil => simp [depthItems] at h
  | cons i items ih =>
    rw [depthItems] at h ⊢
    by_cases hi : depthItems items ≤ i.depth
    · exact ⟨i, List.mem_cons_self, by omega⟩
    · obtain ⟨j, hj, hd⟩ := ih (by omega)
      exact ⟨j, List.mem_cons_of_mem _ hj, by omega⟩

theorem Inside.lt_depth {k j : Json} {n : Nat} (h : Inside k n j) : n < j.depth := by
  induction h with
  | self => exact k.depth_pos
  | item hmem _ ih =>
    have := depth_le_of_mem hmem
    rw [depth]
    omega
  | @field n fields f hmem _ ih =>
    have : f.2.depth ≤ depthItems (fields.map (·.2)) := depth_le_of_mem (List.mem_map_of_mem hmem)
    rw [depth, depthFields_eq]
    omega

/-- A host value has a part on every level but those from its depth on. -/
theorem exists_inside (n : Nat) {j : Json} (h : n < j.depth) : ∃ k, Inside k n j := by
  induction n generalizing j with
  | zero => exact ⟨j, .self⟩
  | succ n ih =>
    cases j with
    | arr items =>
      rw [depth] at h
      obtain ⟨i, hi, hd⟩ := exists_depth_of_pos items (by omega)
      obtain ⟨k, hk⟩ := ih (j := i) (by omega)
      exact ⟨k, .item hi hk⟩
    | obj fields =>
      rw [depth, depthFields_eq] at h
      obtain ⟨i, hi, hd⟩ := exists_depth_of_pos (fields.map (·.2)) (by omega)
      obtain ⟨f, hf, rfl⟩ := List.mem_map.mp hi
      obtain ⟨k, hk⟩ := ih (j := f.2) (by omega)
      exact ⟨k, .field hf hk⟩
    | _ => simp [depth] at h

/-! ## Fields in order -/

theorem pairwise_of_ascending {fields : List (String × Json)} (h : ascending fields = true) :
    fields.Pairwise (·.1 < ·.1) := by
  have hchain : fields.IsChain (·.1 < ·.1) := by
    induction fields with
    | nil => exact .nil
    | cons f fields ih =>
      cases fields with
      | nil => exact .singleton f
      | cons g fields =>
        simp only [ascending, Bool.and_eq_true, decide_eq_true_eq] at h
        exact .cons_cons h.1 (ih h.2)
  have : IsTrans (String × Json) (·.1 < ·.1) := ⟨fun _ _ _ => String.lt_trans⟩
  exact hchain.pairwise

theorem nodup_of_ascending {fields : List (String × Json)} (h : ascending fields = true) :
    (fields.map fun f => Label.regular f.1).Nodup :=
  List.pairwise_map.mpr ((pairwise_of_ascending h).imp fun hlt he =>
    String.ne_of_lt hlt (Label.regular.inj he))

/-- A name after all others takes the last place. -/
theorem insertField_of_lt {name : String} (j : Json) {fields : List (String × Json)}
    (h : ∀ f ∈ fields, f.1 < name) : insertField name j fields = fields ++ [(name, j)] := by
  induction fields with
  | nil => rfl
  | cons f fields ih =>
    obtain ⟨k, v⟩ := f
    have hk : k < name := h (k, v) List.mem_cons_self
    rw [insertField, if_neg (String.lt_asymm hk), if_neg (String.ne_of_lt hk).symm,
      ih fun g hg => h g (List.mem_cons_of_mem _ hg), List.cons_append]

theorem ofFields_of_ascending {fields : List (String × Json)} (h : ascending fields = true) :
    ofFields fields = .obj fields := by
  have hfold (rest done : List (String × Json)) (hp : (done ++ rest).Pairwise (·.1 < ·.1)) :
      rest.foldl (fun done f => insertField f.1 f.2 done) done = done ++ rest := by
    induction rest generalizing done with
    | nil => simp
    | cons f rest ih =>
      have hlast : ∀ g ∈ done, g.1 < f.1 := fun g hg =>
        (List.pairwise_append.mp hp).2.2 g hg f List.mem_cons_self
      rw [List.foldl_cons, insertField_of_lt f.2 hlast, ih _ (by simpa using hp)]
      simp
  exact congrArg obj (hfold fields [] (by simpa using pairwise_of_ascending h))

theorem ascending_of_pairwise {fields : List (String × Json)} (h : fields.Pairwise (·.1 < ·.1)) :
    ascending fields = true := by
  induction fields with
  | nil => rfl
  | cons f fields ih =>
    obtain ⟨hf, hfields⟩ := List.pairwise_cons.mp h
    cases fields with
    | nil => rfl
    | cons g fields => simp [ascending, hf g List.mem_cons_self, ih hfields]

theorem mem_insertField {name : String} {j : Json} {fields : List (String × Json)}
    {g : String × Json} (h : g ∈ insertField name j fields) : g = (name, j) ∨ g ∈ fields := by
  induction fields with
  | nil => simpa [insertField] using h
  | cons f fields ih =>
    obtain ⟨k, v⟩ := f
    rw [insertField] at h
    split at h
    · simpa using h
    · split at h
      · rcases List.mem_cons.mp h with rfl | h
        · exact .inl rfl
        · exact .inr (List.mem_cons_of_mem _ h)
      · rcases List.mem_cons.mp h with rfl | h
        · exact .inr List.mem_cons_self
        · exact (ih h).imp_right (List.mem_cons_of_mem _)

/-- A field that takes its place leaves the fields in order. -/
theorem pairwise_insertField (name : String) (j : Json) {fields : List (String × Json)}
    (h : fields.Pairwise (·.1 < ·.1)) : (insertField name j fields).Pairwise (·.1 < ·.1) := by
  induction fields with
  | nil => simp [insertField]
  | cons f fields ih =>
    obtain ⟨k, v⟩ := f
    obtain ⟨hk, hfields⟩ := List.pairwise_cons.mp h
    rw [insertField]
    by_cases hlt : name < k
    · rw [if_pos hlt, List.pairwise_cons]
      refine ⟨fun g hg => ?_, h⟩
      rcases List.mem_cons.mp hg with rfl | hg
      · exact hlt
      · exact String.lt_trans hlt (hk g hg)
    · rw [if_neg hlt]
      by_cases heq : name = k
      · rw [if_pos heq, List.pairwise_cons]
        exact ⟨fun g hg => heq ▸ hk g hg, hfields⟩
      · rw [if_neg heq, List.pairwise_cons]
        refine ⟨fun g hg => ?_, ih hfields⟩
        rcases mem_insertField hg with rfl | hg
        · exact Decidable.byContradiction fun hge =>
            heq (String.le_antisymm (String.not_lt.mp hge) (String.not_lt.mp hlt))
        · exact hk g hg

/-- A field of a new name is one more field. -/
theorem perm_insertField {name : String} (j : Json) {fields : List (String × Json)}
    (h : name ∉ fields.map (·.1)) : (insertField name j fields).Perm ((name, j) :: fields) := by
  induction fields with
  | nil => exact .refl _
  | cons f fields ih =>
    obtain ⟨k, v⟩ := f
    rw [List.map_cons, List.mem_cons, not_or] at h
    rw [insertField, if_neg h.1]
    split
    · exact .refl _
    · exact ((ih h.2).cons (k, v)).trans (.swap (name, j) (k, v) _)

/-- Fields of different names are the fields of the object that they make, which has them in
order. -/
theorem exists_ofFields {fields : List (String × Json)} (h : (fields.map (·.1)).Nodup) :
    ∃ fs, ofFields fields = .obj fs ∧ fs.Perm fields ∧ fs.Pairwise (·.1 < ·.1) := by
  have hfold (rest done : List (String × Json)) (hp : ((rest ++ done).map (·.1)).Nodup)
      (hdone : done.Pairwise (·.1 < ·.1)) :
      let all := rest.foldl (fun done f => insertField f.1 f.2 done) done
      all.Perm (rest ++ done) ∧ all.Pairwise (·.1 < ·.1) := by
    induction rest generalizing done with
    | nil => exact ⟨.refl _, hdone⟩
    | cons f rest ih =>
      have hnew : f.1 ∉ done.map (·.1) := fun hmem => by
        rw [List.cons_append, List.map_cons, List.nodup_cons, List.map_append] at hp
        exact hp.1 (List.mem_append_right _ hmem)
      have hmoved : (rest ++ insertField f.1 f.2 done).Perm (f :: rest ++ done) :=
        ((perm_insertField f.2 hnew).append_left rest).trans List.perm_middle
      obtain ⟨hperm, hpairwise⟩ :=
        ih _ ((hmoved.map _).nodup_iff.mpr hp) (pairwise_insertField f.1 f.2 hdone)
      exact ⟨hperm.trans hmoved, hpairwise⟩
  obtain ⟨hperm, hpairwise⟩ := hfold fields [] (by rwa [List.append_nil]) .nil
  rw [List.append_nil] at hperm
  exact ⟨_, rfl, hperm, hpairwise⟩

/-- The order in which fields come makes no difference to their object. -/
theorem ofFields_of_perm {fs fields : List (String × Json)} (h : fs.Perm fields)
    (hascending : ascending fields = true) : ofFields fs = .obj fields := by
  have hordered := pairwise_of_ascending hascending
  have hnodup : (fields.map (·.1)).Nodup := List.pairwise_map.mpr (hordered.imp String.ne_of_lt)
  obtain ⟨gs, hgs, hperm, hpairwise⟩ := exists_ofFields ((h.map (·.1)).nodup_iff.mpr hnodup)
  have hsame : gs = fields := (hperm.trans h).eq_of_pairwise
    (fun f g _ _ hfg hgf => absurd hgf (String.lt_asymm hfg)) hpairwise hordered
  rw [hgs, hsame]

theorem canonicalItems_of_forall {items : List Json} (h : ∀ j ∈ items, j.canonical = true) :
    canonicalItems items = true := by
  induction items with
  | nil => rfl
  | cons i items ih =>
    obtain ⟨hi, hitems⟩ := List.forall_mem_cons.mp h
    simp [canonicalItems, hi, ih hitems]

theorem canonical_of_mem {items : List Json} (h : canonicalItems items = true) {j : Json}
    (hj : j ∈ items) : j.canonical = true := by
  induction items with
  | nil => cases hj
  | cons i items ih =>
    simp only [canonicalItems, Bool.and_eq_true] at h
    rcases List.mem_cons.mp hj with rfl | hj
    · exact h.1
    · exact ih h.2 hj

theorem canonicalFields_eq (fields : List (String × Json)) :
    canonicalFields fields = canonicalItems (fields.map (·.2)) := by
  induction fields with
  | nil => rfl
  | cons f fields ih => rw [canonicalFields, ih, List.map_cons, canonicalItems]

/-- An object is a value that a host can hold if its fields are, in whatever order they come. -/
theorem canonical_ofFields {fields : List (String × Json)}
    (h : ∀ f ∈ fields, f.2.canonical = true) : (ofFields fields).canonical = true := by
  have hfold (rest done : List (String × Json)) (hrest : ∀ f ∈ rest, f.2.canonical = true)
      (hdone : done.Pairwise (·.1 < ·.1)) (hc : ∀ f ∈ done, f.2.canonical = true) :
      (obj (rest.foldl (fun done f => insertField f.1 f.2 done) done)).canonical = true := by
    induction rest generalizing done with
    | nil =>
      rw [List.foldl_nil, canonical, Bool.and_eq_true, canonicalFields_eq]
      refine ⟨ascending_of_pairwise hdone, canonicalItems_of_forall fun j hj => ?_⟩
      obtain ⟨f, hf, rfl⟩ := List.mem_map.mp hj
      exact hc f hf
    | cons f rest ih =>
      obtain ⟨hf, hrest⟩ := List.forall_mem_cons.mp hrest
      apply ih _ hrest (pairwise_insertField f.1 f.2 hdone)
      intro g hg
      rcases mem_insertField hg with rfl | hg
      · exact hf
      · exact hc g hg
  exact hfold fields [] h .nil (List.forall_mem_nil _)

end Json

namespace Expr

variable {left : Nat}

theorem forall_of_encodeItems {js : List Json} {xs : List Expr} (h : encodeItems left js = .ok xs) :
    List.Forall₂ (fun j x => encode left j = .ok x) js xs := by
  induction js generalizing xs with
  | nil => cases h; exact .nil
  | cons j js ih =>
    rw [encodeItems] at h
    obtain ⟨x, hx, h⟩ := Except.exists_of_bind_eq_ok h
    obtain ⟨rest, hrest, h⟩ := Except.exists_of_bind_eq_ok h
    cases h
    exact .cons hx (ih hrest)

/-- The fields of an object become required regular fields in the same order. -/
theorem exists_of_encodeFields {fields : List (String × Json)} {ds : List Decl}
    (h : encodeFields left fields = .ok ds) :
    ∃ es : List (Label × Expr), ds = es.map (fun e => .field e.1 false e.2) ∧
      List.Forall₂ (fun f e => e.1 = .regular f.1 ∧ encode left f.2 = .ok e.2) fields es := by
  induction fields generalizing ds with
  | nil => cases h; exact ⟨[], rfl, .nil⟩
  | cons f fields ih =>
    rw [encodeFields] at h
    obtain ⟨x, hx, h⟩ := Except.exists_of_bind_eq_ok h
    obtain ⟨rest, hrest, h⟩ := Except.exists_of_bind_eq_ok h
    cases h
    obtain ⟨es, rfl, hes⟩ := ih hrest
    exact ⟨(.regular f.1, x) :: es, rfl, .cons ⟨rfl, hx⟩ hes⟩

mutual

theorem depth_le_of_encode (left : Nat) (j : Json) {x : Expr} (h : encode left j = .ok x) :
    j.depth ≤ left := by
  cases left with
  | zero => rw [encode] at h; cases h
  | succ left =>
    match j with
    | .null | .bool _ | .int _ | .float _ | .str _ => simp [Json.depth]
    | .arr items =>
      cases hxs : encodeItems left items with
      | error c => rw [encode, hxs] at h; cases h
      | ok xs =>
        have := depth_le_of_encodeItems left items hxs
        rw [Json.depth]
        omega
    | .obj fields =>
      cases hds : encodeFields left fields with
      | error c => rw [encode, hds] at h; cases h
      | ok ds =>
        have := depth_le_of_encodeFields left fields hds
        rw [Json.depth]
        omega

theorem depth_le_of_encodeItems (left : Nat) (js : List Json) {xs : List Expr}
    (h : encodeItems left js = .ok xs) : Json.depthItems js ≤ left := by
  match js with
  | [] => exact Nat.zero_le _
  | j :: rest =>
    rw [encodeItems] at h
    obtain ⟨x, hx, h⟩ := Except.exists_of_bind_eq_ok h
    obtain ⟨xs, hxs, -⟩ := Except.exists_of_bind_eq_ok h
    have := depth_le_of_encode left j hx
    have := depth_le_of_encodeItems left rest hxs
    rw [Json.depthItems]
    omega

theorem depth_le_of_encodeFields (left : Nat) (fs : List (String × Json)) {ds : List Decl}
    (h : encodeFields left fs = .ok ds) : Json.depthFields fs ≤ left := by
  match fs with
  | [] => exact Nat.zero_le _
  | (name, j) :: rest =>
    rw [encodeFields] at h
    obtain ⟨x, hx, h⟩ := Except.exists_of_bind_eq_ok h
    obtain ⟨ds, hds, -⟩ := Except.exists_of_bind_eq_ok h
    have := depth_le_of_encode left j hx
    have := depth_le_of_encodeFields left rest hds
    rw [Json.depthFields]
    omega

end

mutual

/-- Encoding fails for the depth of nesting only. -/
theorem cause_of_encode (left : Nat) (j : Json) {c : Cause} (h : encode left j = .error c) :
    c = .hostDepth := by
  cases left with
  | zero => rw [encode] at h; cases h; rfl
  | succ left =>
    match j with
    | .null | .bool _ | .int _ | .float _ | .str _ => cases h
    | .arr items =>
      cases hxs : encodeItems left items with
      | error d => rw [encode, hxs] at h; cases h; exact cause_of_encodeItems left items hxs
      | ok xs => rw [encode, hxs] at h; cases h
    | .obj fields =>
      cases hds : encodeFields left fields with
      | error d => rw [encode, hds] at h; cases h; exact cause_of_encodeFields left fields hds
      | ok ds => rw [encode, hds] at h; cases h

theorem cause_of_encodeItems (left : Nat) (js : List Json) {c : Cause}
    (h : encodeItems left js = .error c) : c = .hostDepth := by
  match js with
  | [] => cases h
  | j :: rest =>
    rw [encodeItems] at h
    cases hx : encode left j with
    | error d => rw [hx] at h; cases h; exact cause_of_encode left j hx
    | ok x =>
      cases hxs : encodeItems left rest with
      | error d => rw [hx, hxs] at h; cases h; exact cause_of_encodeItems left rest hxs
      | ok xs => rw [hx, hxs] at h; cases h

theorem cause_of_encodeFields (left : Nat) (fs : List (String × Json)) {c : Cause}
    (h : encodeFields left fs = .error c) : c = .hostDepth := by
  match fs with
  | [] => cases h
  | (name, j) :: rest =>
    rw [encodeFields] at h
    cases hx : encode left j with
    | error d => rw [hx] at h; cases h; exact cause_of_encode left j hx
    | ok x =>
      cases hds : encodeFields left rest with
      | error d => rw [hx, hds] at h; cases h; exact cause_of_encodeFields left rest hds
      | ok ds => rw [hx, hds] at h; cases h

end

/-- A host value has no expression just if a value inside it is nested too deeply. -/
theorem ofJson_eq_error_iff {j : Json} :
    ofJson j = .error .hostDepth ↔ ∃ n k, maxDepth < n ∧ Json.Inside k n j := by
  constructor
  · intro h
    have hdeep : maxDepth + 1 < j.depth := by
      refine Nat.lt_of_not_le fun hle => ?_
      obtain ⟨x, hx⟩ := exists_encode _ j hle
      rw [ofJson, hx] at h
      cases h
    obtain ⟨k, hk⟩ := Json.exists_inside (maxDepth + 1) hdeep
    exact ⟨maxDepth + 1, k, Nat.lt_succ_self _, hk⟩
  · rintro ⟨n, k, hn, hk⟩
    have hlt := hk.lt_depth
    cases hx : ofJson j with
    | error c => rw [cause_of_encode _ j hx]
    | ok x =>
      have := depth_le_of_encode _ j hx
      omega

theorem exists_ofJson {j : Json} (h : ∀ n k, Json.Inside k n j → n ≤ maxDepth) :
    ∃ x, ofJson j = .ok x := by
  cases hx : ofJson j with
  | ok x => exact ⟨x, rfl⟩
  | error c =>
    rw [cause_of_encode _ j hx] at hx
    obtain ⟨n, k, hn, hk⟩ := ofJson_eq_error_iff.mp hx
    exact absurd (h n k hk) (Nat.not_le_of_gt hn)

end Expr

end SchemaMock
