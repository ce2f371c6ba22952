import SchemaMock.Proofs.Eval.Record
import SchemaMock.Proofs.Fields

/-! # Records that a definition accepts

A file has a definition, which declares fields, patterns and perhaps an ellipsis, and a field that
refers to it. An object of scalars that is filled in there is found to be complete and without
faults just when the declarations accept it.
-/

namespace SchemaMock

open Arena Eval

namespace Json

variable {j : Json} {s : Scalar} {fields : List (String × Json)}

theorem encode_of_scalar? (left : Nat) (h : j.scalar? = some s) :
    Expr.encode (left + 1) j = .ok s.toExpr := by
  cases j <;> cases h <;> rfl

theorem admitsJson_of_scalar? (h : j.scalar? = some s) (t : Condition) :
    Condition.admitsJson j t = t.admits s := by
  cases j <;> cases h <;> rfl

def scalars (fields : List (String × Json)) : List (String × Scalar) :=
  fields.filterMap fun f => f.2.scalar?.map (f.1, ·)

theorem mem_scalars {k : String} : (k, s) ∈ scalars fields ↔ ∃ j, (k, j) ∈ fields ∧
    j.scalar? = some s := by
  rw [scalars, List.mem_filterMap]
  constructor
  · rintro ⟨⟨l, j⟩, hf, hs⟩
    obtain ⟨t, ht, heq⟩ := Option.map_eq_some_iff.mp hs
    cases heq
    exact ⟨j, hf, ht⟩
  · rintro ⟨j, hf, hs⟩
    exact ⟨(k, j), hf, by rw [hs]; rfl⟩

theorem encodeFields_scalars (left : Nat) (h : ∀ f ∈ fields, f.2.scalar?.isSome = true) :
    Expr.encodeFields (left + 1) fields =
      .ok ((Member.ofScalars (scalars fields)).map Member.toDecl) := by
  induction fields with
  | nil => rfl
  | cons f fields ih =>
    obtain ⟨s, hs⟩ := Option.isSome_iff_exists.mp (h f List.mem_cons_self)
    have hrest := ih fun g hg => h g (List.mem_cons_of_mem f hg)
    have hscalars : scalars (f :: fields) = (f.1, s) :: scalars fields := by
      rw [scalars, List.filterMap_cons, hs]
      rfl
    rw [Expr.encodeFields, encode_of_scalar? left hs, hrest, hscalars]
    rfl

end Json

/-! ## What is declared -/

namespace Member

variable {fields : List (String × Json)} {ms : List Member} {k : String}

theorem mem_flatMap_ofField {os : List (String × Scalar)} {t : Condition} :
    t ∈ (ofScalars os).flatMap (ofField k) ↔ ∃ s, (k, s) ∈ os ∧ t = .equal (.plain s) := by
  rw [ofScalars, List.flatMap_map, List.mem_flatMap]
  constructor
  · rintro ⟨⟨l, s⟩, ho, ht⟩
    rw [ofField] at ht
    split at ht
    · next hkl =>
      cases hkl
      exact ⟨s, ho, List.mem_singleton.mp ht⟩
    · cases ht
  · rintro ⟨s, ho, rfl⟩
    refine ⟨(k, s), ho, ?_⟩
    simp [ofField]

theorem any_requires_ofScalars (os : List (String × Scalar)) (k : String) :
    (ofScalars os).any (requires k) = true ↔ ∃ s, (k, s) ∈ os := by
  rw [ofScalars, List.any_map, List.any_eq_true]
  constructor
  · rintro ⟨⟨l, s⟩, ho, hk⟩
    obtain rfl : k = l := by simpa [requires] using hk
    exact ⟨s, ho⟩
  · rintro ⟨s, ho⟩
    exact ⟨(k, s), ho, by simp [requires]⟩

theorem knows_of_requires {m : Member} (h : m.requires k = true) : m.knows k = true := by
  cases m with
  | field name optional t => exact (Bool.and_eq_true _ _ ▸ h).1
  | _ => cases h

theorem faults_eq_nil_iff (ms : List Member) (k : String) :
    faults ms k = [] ↔ ms.any (knows k) = true := by
  rw [faults]
  split <;> simp_all

/-- The field of a scalar that is there settles on it just when it meets all conditions. -/
theorem settles_of_present {j : Json} {s : Scalar} (hnodup : (fields.map (·.1)).Nodup)
    (hf : (k, j) ∈ fields) (hs : j.scalar? = some s) :
    Settles (ofScalars (Json.scalars fields) ++ ms) k ↔ ∀ t ∈ allOf ms k,
    Condition.admitsJson j t = true := by
  have hpresent :
      Condition.equal (.plain s) ∈ (ofScalars (Json.scalars fields)).flatMap (ofField k) :=
    mem_flatMap_ofField.mpr ⟨s, Json.mem_scalars.mpr ⟨j, hf, hs⟩, rfl⟩
  rw [Settles, allOf_append]
  constructor
  · rintro ⟨u, -, hu⟩ t ht
    have hsame : u.same s = true := hu _ (List.mem_append_left _ hpresent)
    rw [Json.admitsJson_of_scalar? hs, ← t.admits_congr hsame]
    exact hu t (List.mem_append_right _ ht)
  · intro hall
    refine ⟨s, ?_, fun t ht => ?_⟩
    · exact List.mem_flatMap.mpr ⟨_, List.mem_append_left _ hpresent, List.mem_singleton_self s⟩
    · rcases List.mem_append.mp ht with ht | ht
      · obtain ⟨u, hu, rfl⟩ := mem_flatMap_ofField.mp ht
        obtain ⟨i, hi, hui⟩ := Json.mem_scalars.mp hu
        obtain rfl : i = j := by
          have heq := List.inj_on_of_nodup_map hnodup hi hf rfl
          exact (Prod.mk.inj heq).2
        obtain rfl := Option.some.inj (hui.symm.trans hs)
        exact u.same_refl
      · rw [← Json.admitsJson_of_scalar? hs]
        exact hall t ht

/-- Nothing but the declarations is said of a field that the object lacks. -/
theorem settles_of_absent (hk : k ∉ fields.map (·.1)) :
    Settles (ofScalars (Json.scalars fields) ++ ms) k ↔ Settles ms k := by
  have hnone : (ofScalars (Json.scalars fields)).flatMap (ofField k) = [] := by
    rw [List.eq_nil_iff_forall_not_mem]
    intro t ht
    obtain ⟨s, hs, -⟩ := mem_flatMap_ofField.mp ht
    obtain ⟨j, hj, -⟩ := Json.mem_scalars.mp hs
    exact hk (List.mem_map_of_mem hj)
  rw [Settles, Settles, allOf_append, hnone, List.nil_append]

/-- The declarations accept an object just when all required fields, of the object or of the
declarations, are known and settle. -/
theorem accept_iff (hnodup : (fields.map (·.1)).Nodup)
    (hscalars : ∀ f ∈ fields, f.2.scalar?.isSome = true) :
    (∀ k, (ofScalars (Json.scalars fields) ++ ms).any (requires k) = true →
      faults ms k = [] ∧ Settles (ofScalars (Json.scalars fields) ++ ms) k) ↔ Accept ms fields := by
  have hrequires (k : String) : (ofScalars (Json.scalars fields) ++ ms).any (requires k) = true ↔
      k ∈ fields.map (·.1) ∨ ms.any (requires k) = true := by
    rw [List.any_append, Bool.or_eq_true, any_requires_ofScalars]
    refine or_congr ⟨fun ⟨s, hs⟩ => ?_, fun hk => ?_⟩ Iff.rfl
    · obtain ⟨j, hj, -⟩ := Json.mem_scalars.mp hs
      exact List.mem_map_of_mem hj
    · obtain ⟨f, hf, rfl⟩ := List.mem_map.mp hk
      obtain ⟨s, hs⟩ := Option.isSome_iff_exists.mp (hscalars f hf)
      exact ⟨s, Json.mem_scalars.mpr ⟨f.2, hf, hs⟩⟩
  simp only [hrequires, faults_eq_nil_iff]
  constructor
  · intro h
    refine ⟨fun k hk => ?_, fun f hf => ?_, fun f hf => (h f.1 (.inl (List.mem_map_of_mem hf))).1⟩
    · by_cases hpresent : k ∈ fields.map (·.1)
      · exact .inl hpresent
      · exact .inr ((settles_of_absent hpresent).mp (h k (.inr hk)).2)
    · obtain ⟨s, hs⟩ := Option.isSome_iff_exists.mp (hscalars f hf)
      exact (settles_of_present hnodup hf hs).mp (h f.1 (.inl (List.mem_map_of_mem hf))).2
  · intro h k hk
    by_cases hpresent : k ∈ fields.map (·.1)
    · obtain ⟨f, hf, rfl⟩ := List.mem_map.mp hpresent
      obtain ⟨s, hs⟩ := Option.isSome_iff_exists.mp (hscalars f hf)
      exact ⟨h.known f hf, (settles_of_present hnodup hf hs).mpr (h.meets f hf)⟩
    · have hk := hk.resolve_left hpresent
      refine ⟨?_, (settles_of_absent hpresent).mpr ((h.present k hk).resolve_left hpresent)⟩
      rw [List.any_eq_true] at hk ⊢
      obtain ⟨m, hm, hmk⟩ := hk
      exact ⟨m, hm, knows_of_requires hmk⟩

end Member

/-! ## A file with a definition -/

namespace Value

def instanceLabel : Label := .regular "x"

/-- The names of a file with a definition, with what they are declared as. -/
def recordFields (ms : List Member) : List (Label × Expr) :=
  [(.definition "D", .struct (ms.map Member.toDecl)), (instanceLabel, .ident "#D")]

def recordFile (package : Option String) (imports : List String) (ms : List Member) : SchemaFile :=
  ⟨package, imports, (recordFields ms).map Decl.required⟩

def recordFill (os : List (String × Scalar)) : Fill :=
  ⟨.field instanceLabel, .expr (.struct ((Member.ofScalars os).map Member.toDecl))⟩

variable {ms : List Member} {os : List (String × Scalar)}

theorem map_fst_recordFields (ms : List Member) :
    (recordFields ms).map (·.1) = [.definition "D", instanceLabel] := rfl

theorem length_recordFields (ms : List Member) : (recordFields ms).length = 2 := rfl

theorem nodup_recordFields (ms : List Member) : ((recordFields ms).map (·.1)).Nodup := by
  rw [map_fst_recordFields]
  decide

theorem recordFields_ne_of_ofTypeName? {name : String}
    (h : (Constraint.ofTypeName? name).isSome = true) :
    Label.ofIdent name.toList ∉ (recordFields ms).map (·.1) := by
  rw [Label.ofIdent_of_ofTypeName? h, map_fst_recordFields, List.mem_cons, List.mem_singleton]
  rintro (hname | hname)
  · cases hname
  · cases hname
    cases h

theorem exists_record (package : Option String) (imports : List String)
    (os : List (String × Scalar)) (hms : Member.Legible ms) :
    ∃ b c d place,
      evaluate root (ofInputs [.file (recordFile package imports ms)] [recordFill os]) = ((), b) ∧
      b.Rooted (recordFields ms) [recordFill os] ∧ evaluate 2 b = ((), c) ∧
      c.Record 2 d place (Member.allOf (Member.ofScalars os ++ ms)) (Member.faults ms) ∧
      ∀ k, k ∈ d.names ∧ d.required k = true ↔
        (Member.ofScalars os ++ ms).any (·.requires k) = true := by
  have hlabels := nodup_recordFields ms
  have haddressed : Addressed ((recordFields ms).map (·.1)) [recordFill os] := by
    intro fill hfill
    obtain rfl := List.mem_singleton.mp hfill
    exact ⟨instanceLabel, List.mem_cons_of_mem _ List.mem_cons_self, rfl⟩
  obtain ⟨b, hrun, hb⟩ := exists_rooted package imports hlabels haddressed
  have hdefinition : b.vertex 1 = .fresh (some root) [.field (.definition "D")]
      [.of (.struct (ms.map Member.toDecl)) fieldScope false] := by
    have hpart := hb.part (i := 0) Nat.zero_lt_two
    rw [hb.fillsAt] at hpart
    exact hpart
  have hinstance : b.vertex 2 = .fresh (some root) [.field instanceLabel]
      [.of (.struct ((Member.ofScalars os).map Member.toDecl)) plainScope false,
      .of (.ident "#D") fieldScope false] := by
    have hpart := hb.part (i := 1) Nat.one_lt_two
    rw [hb.fillsAt] at hpart
    exact hpart
  have hbelow (l : Label) : b.hasFillsBelow [.field l] = false := by
    rw [hasFillsBelow_eq_false_iff, hb.entries]
    intro fill hfill path hpath hbelow
    obtain rfl := List.mem_singleton.mp hfill
    obtain rfl := List.mem_singleton.mp hpath
    exact Nat.lt_irrefl _ hbelow.1
  have hdefined : b.Defined "#D" fieldScope 1 fieldScope ms := by
    refine ⟨?_, ?_, ?_, ?_, ?_, ?_, ?_, ?_⟩
    · have harc := hb.arc? hlabels (i := 0) Nat.zero_lt_two
      refine .declared (.here ?_ hb.inner ?_) hb.settlesTo harc rfl
      · rw [hb.scopes]
        decide
      · rfl
    · rw [hb.size, length_recordFields]
      decide
    · rw [hdefinition]
      rfl
    · rw [hdefinition]
      rfl
    · rw [hdefinition]
      rfl
    · rw [hdefinition]
      exact hbelow _
    · rw [hb.scopes]
      decide
    · exact fun m hm t ht => ⟨hb.clear fun name hname =>
        recordFields_ne_of_ofTypeName? (Condition.isSome_of_mem_names hname), (hms m hm t ht).1⟩
  obtain ⟨c, d, place, hprocess, hrecord, hrequires⟩ :=
    Eval.exists_record 254 (by rw [hb.size, length_recordFields]; decide) hinstance
    (hbelow _) hdefined (by decide) (hb.apart Nat.one_ne_zero) hms
  refine ⟨b, c, d, place, hrun, hb, ?_, hrecord, hrequires⟩
  rw [evaluate_eq]
  exact hprocess

/-- An object that is filled in at the field is without faults just when all required fields are
known and settle. -/
theorem faults_recordFill (package : Option String) (imports : List String)
    (hms : Member.Legible ms) {fields : List (String × Json)}
    (hscalars : ∀ f ∈ fields, f.2.scalar?.isSome = true) :
    ∃ w, ofJson (.obj fields) = .ok w ∧
      ((((ofFile (recordFile package imports ms)).fill (.field instanceLabel) w).lookup
        (.field instanceLabel)).faults true = [] ↔
        ∀ k, (Member.ofScalars (Json.scalars fields) ++ ms).any (·.requires k) = true →
          Member.faults ms k = [] ∧
          Member.Settles (Member.ofScalars (Json.scalars fields) ++ ms) k) := by
  let os := Json.scalars fields
  let x : Expr := .struct ((Member.ofScalars os).map Member.toDecl)
  have hencode : Expr.ofJson (.obj fields) = .ok x := by
    have hfields := Json.encodeFields_scalars (maxDepth - 1) hscalars
    show (Expr.encodeFields maxDepth fields).map Expr.struct = _
    rw [show maxDepth = maxDepth - 1 + 1 from rfl, hfields]
    rfl
  refine ⟨ofExpr x, by rw [ofJson, hencode]; rfl, ?_⟩
  let v := ((ofFile (recordFile package imports ms)).fill (.field instanceLabel) (ofExpr x)).lookup
    (.field instanceLabel)
  obtain ⟨b, c, d, place, hrun, hb, hprocess, hrecord, hrequires⟩ :=
    exists_record package imports os hms
  have hsettle : settle evaluate 2 b = (2, c) := settle_of_forward hprocess hrecord.forward
  have hquery : v.faults true = (Eval.faults evaluate true 2 c).1 :=
    query_field (v := v) (i := 1) hrun hb (nodup_recordFields ms) Nat.one_lt_two rfl hsettle
      hrecord.stage _ _
  have hfaults : (Eval.faults evaluate true 2 c).1 = [] ↔
      ∀ k, k ∈ d.names ∧ d.required k = true → ∃ s,
        Condition.remains (Member.allOf (Member.ofScalars os ++ ms) k) (Member.faults ms k) =
          .atom s := by
    rw [Eval.faults, evaluate_eq]
    exact faultsAt_of_record 255 255 hrecord
  show v.faults true = [] ↔ _
  rw [hquery, hfaults]
  refine forall_congr' fun k => ?_
  rw [← hrequires k]
  refine imp_congr_right fun hk => ?_
  rw [Condition.remains_eq_atom_iff (hrecord.part k hk.1).height]
  rfl

/-- An object of scalars, filled in at a field that refers to a definition, is complete and free of
faults just when the declarations of the definition accept it. -/
theorem faults_record_iff (package : Option String) (imports : List String)
    (hms : Member.Legible ms) {fields : List (String × Json)}
    (hcanonical : (Json.obj fields).canonical = true)
    (hscalars : ∀ f ∈ fields, f.2.scalar?.isSome = true) :
    let v := ofFile (recordFile package imports ms)
    ∃ w, ofJson (.obj fields) = .ok w ∧
      (((v.fill (.field instanceLabel) w).lookup (.field instanceLabel)).faults true = [] ↔
        Member.Accept ms fields) := by
  intro v
  have hnodup : (fields.map (·.1)).Nodup := by
    rw [Json.canonical, Bool.and_eq_true] at hcanonical
    have hlabels : ((fields.map (·.1)).map Label.regular).Nodup := by
      rw [List.map_map]
      exact Json.nodup_of_ascending hcanonical.1
    exact hlabels.of_map _
  obtain ⟨w, hw, hfaults⟩ := faults_recordFill package imports hms hscalars
  exact ⟨w, hw, hfaults.trans (Member.accept_iff hnodup hscalars)⟩

/-- A name that is required, one that is optional, and names other than `id` that are for small
numbers. -/
def sampleMembers : List Member :=
  [.field "id" false (.type .uint), .field "note" true (.type .string),
    .pattern (.both (.type .string) (.bound .less (.plain (.str "id"))))
    (.bound .less (.plain (.int 10)))]

def sampleRecord : List (String × Json) := [("count", .int 3), ("id", .int 7)]

theorem faults_record_iff_accepted : Member.Legible sampleMembers ∧
    (Json.obj sampleRecord).canonical = true ∧ (∀ f ∈ sampleRecord, f.2.scalar?.isSome = true) ∧
    ∃ w, ofJson (.obj sampleRecord) = .ok w ∧
      (((ofFile (recordFile none [] sampleMembers)).fill (.field instanceLabel) w).lookup
        (.field instanceLabel)).faults true = [] := by
  have hms : Member.Legible sampleMembers := by
    unfold Member.Legible
    decide +kernel
  have hcanonical : (Json.obj sampleRecord).canonical = true := by decide +kernel
  have hscalars : ∀ f ∈ sampleRecord, f.2.scalar?.isSome = true := by decide
  have haccept : Member.Accept sampleMembers sampleRecord := by
    refine ⟨fun k hk => .inl ?_, by decide +kernel, by decide +kernel⟩
    obtain rfl : k = "id" := by simpa [sampleMembers, Member.requires] using hk
    decide
  obtain ⟨w, hw, hfaults⟩ := faults_record_iff none [] hms hcanonical hscalars
  exact ⟨hms, hcanonical, hscalars, w, hw, hfaults.mpr haccept⟩

/-- A required field that is not given may settle by itself: nothing is filled in for the `a` of
`#D: {a: 1}`, and still there is no fault. -/
theorem faults_record_of_literal :
    let ms : List Member := [.field "a" false (.equal (.plain (.int 1)))]
    let fields : List (String × Json) := []
    ∃ w, ofJson (.obj fields) = .ok w ∧
      ¬ ((((ofFile (recordFile none [] ms)).fill (.field instanceLabel) w).lookup
          (.field instanceLabel)).faults true = [] ↔
        (∀ k, ms.any (·.requires k) = true → k ∈ fields.map (·.1)) ∧
        (∀ f ∈ fields, ∀ t ∈ Member.allOf ms f.1, Condition.admitsJson f.2 t = true) ∧
        ∀ f ∈ fields, ms.any (·.knows f.1) = true) := by
  intro ms fields
  have hms : Member.Legible ms := by
    unfold Member.Legible
    decide +kernel
  obtain ⟨w, hw, hfaults⟩ := faults_recordFill none [] hms (List.forall_mem_nil _)
  refine ⟨w, hw, fun hiff => ?_⟩
  have hnone := hfaults.mpr fun k hk => by
    obtain rfl : k = "a" := by simpa [ms, Member.requires, Json.scalars, Member.ofScalars] using hk
    exact ⟨by decide, .int 1, List.mem_singleton_self _, by decide⟩
  exact List.not_mem_nil ((hiff.mp hnone).1 "a" (by decide))

end Value

end SchemaMock
