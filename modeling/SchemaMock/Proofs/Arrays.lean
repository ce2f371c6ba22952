import SchemaMock.Proofs.Eval.Literals
import SchemaMock.Proofs.Expr.Comparison
import SchemaMock.Proofs.Expr.Rounds
import SchemaMock.Proofs.Fields

/-! # Arrays that list literals describe

A field of a file is declared as list literals, perhaps more than once, and an array is filled in
there. It is found to be complete and without faults just when all the literals describe it, in
whatever order they stand, and then it is exported as it is.
-/

namespace SchemaMock

open Arena Eval

/-! ## What a text may hold -/

namespace ListTerm

theorem rounds_toExpr (t : ListTerm) : t.toExpr.rounds = t.height := by
  induction t with
  | any => rfl
  | literal s => rfl
  | both a b iha ihb => rw [toExpr, Expr.rounds, iha, ihb, height]

theorem shallow_of_mem_literals {t : ListTerm} (h : t.toExpr.Shallow) {s : ListLiteral}
    (hs : s ∈ t.literals) : s.toExpr.Shallow := by
  induction t with
  | any => cases hs
  | literal u =>
    obtain rfl := List.mem_singleton.mp hs
    exact h
  | both a b iha ihb =>
    rcases List.mem_append.mp hs with hs | hs
    · exact iha (h.within List.mem_cons_self) hs
    · exact ihb (h.within (List.mem_cons_of_mem _ List.mem_cons_self)) hs

end ListTerm

theorem ListLiteral.shallow_of_mem_conditions {s : ListLiteral} (h : s.toExpr.Shallow)
    {t : Condition} (ht : t ∈ s.conditions) : t.toExpr.Shallow := by
  refine h.within ?_
  rcases List.mem_append.mp ht with ht | ht
  · exact List.mem_append_left _ (List.mem_map_of_mem ht)
  · refine List.mem_append_right _ (Option.mem_toList.mpr ?_)
    rw [Option.mem_toList.mp ht]
    rfl

/-- The fields of one label are declared as list literals, whose type names are not names of
fields. -/
structure ListFields (fields : List (Label × Expr)) (label : Label)
    (ts : List ListTerm) : Prop where
  mem : label ∈ fields.map (·.1)
  terms : (fields.filter (·.1 = label)).map (·.2) = ts.map ListTerm.toExpr
  names : ∀ s ∈ ts.flatMap ListTerm.literals, ∀ t ∈ s.conditions, ∀ name ∈ t.names,
    Label.ofIdent name.toList ∉ fields.map (·.1)

theorem ListFields.shallow {fields : List (Label × Expr)} {label : Label} {ts : List ListTerm}
    (h : ListFields fields label ts) (hshallow : ∀ d ∈ fields, d.2.Shallow) :
    ∀ t ∈ ts, t.toExpr.Shallow := by
  intro t ht
  have hmem := List.mem_map_of_mem (f := ListTerm.toExpr) ht
  rw [← h.terms] at hmem
  obtain ⟨d, hd, hdt⟩ := List.mem_map.mp hmem
  exact hdt ▸ hshallow d (List.mem_of_mem_filter hd)

/-! ## Arrays at a field -/

namespace Value

variable {fields : List (Label × Expr)} {label : Label} {ts : List ListTerm} {items : List Json}

/-- The vertex of the field is one for the array and the terms. -/
theorem exists_poised (package : Option String) (imports : List String)
    (h : ListFields fields label ts) (hshallow : ∀ d ∈ fields, d.2.Shallow) {x : Expr}
    (hx : Expr.ofJson (.arr items) = .ok x) (hc : (Json.arr items).canonical = true) :
    ∃ b i, evaluate root (ofInputs [.file ⟨package, imports, fields.map Decl.required⟩]
        [⟨.field label, .expr x⟩]) = ((), b) ∧
      b.Founded (declared fields) fields [⟨.field label, .expr x⟩] ∧
      (∃ hi : i < (declared fields).length, (declared fields)[i].1 = label) ∧
      b.Poised (i + 1) fieldScope ts items := by
  have hterms := h.shallow hshallow
  let fill : Fill := ⟨.field label, .expr x⟩
  have haddressed : Addressed (fields.map (·.1)) [fill] := by
    intro f hf
    obtain rfl := List.mem_singleton.mp hf
    exact ⟨label, h.mem, rfl⟩
  obtain ⟨b, hrun, hb⟩ := exists_founded package imports haddressed
  obtain ⟨i, hi, hlabel⟩ := List.mem_iff_getElem.mp (mem_labels_declared.mpr h.mem)
  have hit : i < (declared fields).length := by simpa [Table.labels] using hi
  replace hlabel : (declared fields)[i].1 = label := by simpa [Table.labels] using hlabel
  refine ⟨b, i, hrun, hb, ⟨hit, hlabel⟩, ?_, ?_, fun t ht => t.rounds_toExpr ▸ (hterms t ht).rounds_le, ?_⟩
  · rw [hb.size]
    omega
  · refine ⟨some root, [.field label], .of x plainScope false, ?_, ⟨⟨_, x, hx, rfl⟩, hc⟩, ?_⟩
    · have hseeds : (declared fields)[i].2 = ts.map (·.conjunct fieldScope) := by
        rw [← Table.conjuncts_getElem (nodup_declared fields) hit, hlabel, conjuncts_declared]
        have hmap := congrArg (List.map fun x => Conjunct.of x fieldScope false) h.terms
        rw [List.map_map, List.map_map] at hmap
        exact hmap
      have hfill : b.fillsAt [.field label] = [.of x plainScope false] := by
        rw [hb.fillsAt]
        simp [fill, Conjunct.of]
      rw [hb.part hit, hseeds, hlabel, hfill]
      rfl
    · rw [hasFillsBelow_eq_false_iff, hb.entries]
      intro f hf path hpath hbelow
      obtain rfl := List.mem_singleton.mp hf
      obtain rfl := List.mem_singleton.mp hpath
      exact Nat.lt_irrefl _ hbelow.1
  · intro s hs t ht
    obtain ⟨u, hu, hsu⟩ := List.mem_flatMap.mp hs
    have hliteral := ListTerm.shallow_of_mem_literals (hterms u hu) hsu
    exact ⟨(ListLiteral.shallow_of_mem_conditions hliteral ht).height_le,
      hb.clear (h.names s hs t ht)⟩

/-- An array filled in at a field of list literals. -/
theorem faults_listFill (package : Option String) (imports : List String)
    (h : ListFields fields label ts) (hshallow : ∀ d ∈ fields, d.2.Shallow) {w : Value}
    (hw : ofJson (.arr items) = .ok w) (hc : (Json.arr items).canonical = true) :
    let v := ((ofFile ⟨package, imports, fields.map Decl.required⟩).fill (.field label) w).lookup
      (.field label)
    (v.faults true = [] ↔ ∀ s ∈ ts.flatMap ListTerm.literals, s.Describes items) ∧
      (v.faults true = [] → v.toJson = .ok (.arr items)) := by
  intro v
  obtain ⟨x, hx, rfl⟩ := exists_expr_of_ofJson hw
  have hdepth : ∀ j ∈ items, j.depth ≤ maxDepth :=
    Json.depth_le_of_arr (Expr.depth_le_of_encode _ _ hx)
  obtain ⟨b, i, hrun, hb, ⟨hi, hlabel⟩, hpoised⟩ := exists_poised package imports h hshallow hx hc
  obtain ⟨c, hprocess, hstage, hforward, hfound, hexport⟩ :=
    exists_verdict 255 255 true hpoised hdepth
  have hsettle : settle evaluate (i + 1) b = (i + 1, c) := by
    rw [evaluate_eq]
    exact settle_of_forward hprocess hforward
  have hquery {α : Type} (onFault : Fault → α) (onVertex : Nat → Eval α) :
      v.query onFault onVertex = (onVertex (i + 1) c).1 :=
    query_part (v := v) hrun hb (nodup_declared fields) hi (by rw [hlabel]; rfl) hsettle hstage
      onFault onVertex
  have hfaults : v.faults true = (faultsAt (processAt (255 + 1)) (255 + 2) true (i + 1) c).1 := by
    have := hquery (fun f => [v.locate f]) (Eval.faults evaluate true)
    rwa [evaluate_eq] at this
  have hiff : v.faults true = [] ↔ ∀ s ∈ ts.flatMap ListTerm.literals, s.Describes items := by
    rw [hfaults]
    refine ⟨fun hnone => by_contra fun hno => ?_, fun hall => hfound.none (not_not.mpr hall)⟩
    obtain ⟨f, hf, -⟩ := hfound.some hno
    rw [hnone] at hf
    cases hf
  refine ⟨hiff, fun hnone => ?_⟩
  have hjson := hquery Except.error fun w => (exportVertex evaluate w).run
  have hresult := hexport (hiff.mp hnone)
  rw [← evaluate_eq] at hresult
  exact toJson_of_attempt (hjson.trans hresult)

/-- The fields of a text that is read. -/
theorem shallow_of_parse {text : String} {package : Option String} {imports : List String}
    (h : SchemaFile.parse text = .ok ⟨package, imports, fields.map Decl.required⟩) :
    ∀ d ∈ fields, d.2.Shallow :=
  fun _ hd => SchemaFile.shallow_of_parse h _ (List.mem_map_of_mem hd) _ (List.mem_singleton_self _)

/-- An array that is filled in at a field of list literals is complete and free of faults just when
all literals describe it, and is then exported as it is. The order of the literals makes no
difference. -/
theorem faults_array_iff {text text' : String} {package package' : Option String}
    {imports imports' : List String} {fields' : List (Label × Expr)} {ts' : List ListTerm}
    (hparse : SchemaFile.parse text = .ok ⟨package, imports, fields.map Decl.required⟩)
    (hparse' : SchemaFile.parse text' = .ok ⟨package', imports', fields'.map Decl.required⟩)
    (h : ListFields fields label ts) (h' : ListFields fields' label ts')
    (hperm : (ts'.flatMap ListTerm.literals).Perm (ts.flatMap ListTerm.literals))
    (hc : (Json.arr items).canonical = true) (hdepth : (Json.arr items).depth ≤ maxDepth + 1) :
    ∃ w, ofJson (.arr items) = .ok w ∧
      let filled (file : SchemaFile) := ((ofFile file).fill (.field label) w).lookup (.field label)
      let v := filled ⟨package, imports, fields.map Decl.required⟩
      let v' := filled ⟨package', imports', fields'.map Decl.required⟩
      (v.faults true = [] ↔ ∀ s ∈ ts.flatMap ListTerm.literals, s.Describes items) ∧
        (v'.faults true = [] ↔ v.faults true = []) ∧
        (v.faults true = [] → v.toJson = .ok (.arr items)) := by
  obtain ⟨w, hw⟩ := exists_ofJson hdepth
  obtain ⟨hiff, hexport⟩ := faults_listFill package imports h (shallow_of_parse hparse) hw hc
  obtain ⟨hiff', -⟩ := faults_listFill package' imports' h' (shallow_of_parse hparse') hw hc
  refine ⟨w, hw, hiff, ?_, hexport⟩
  rw [hiff', hiff]
  exact forall_congr' fun s => imp_congr_left hperm.mem_iff

/-- An open literal and one of two elements, in one declaration. -/
def samplePair : List (Label × Expr) :=
  [(.regular "x", .binary .unify (.list [.ident "int"] (some .top)) (.list [.top, .unary .greater (.int 1)] none)),
    (.regular "y", .str "z")]

def samplePairApart : List (Label × Expr) :=
  [(.regular "x", .list [.top, .unary .greater (.int 1)] none),
    (.regular "x", .list [.ident "int"] (some .top))]

def sampleOpen : ListLiteral := ⟨[.type .int], some .any⟩

def sampleFixed : ListLiteral := ⟨[.any, .bound .greater (.plain (.int 1))], none⟩

theorem faults_array_iff_pair :
    let text := "x: [int, ...] & [_, >1]\ny: \"z\""
    let text' := "x: [_, >1]\nx: [int, ...]"
    SchemaFile.parse text = .ok ⟨none, [], samplePair.map Decl.required⟩ ∧
      SchemaFile.parse text' = .ok ⟨none, [], samplePairApart.map Decl.required⟩ ∧
      ListFields samplePair (.regular "x") [.both (.literal sampleOpen) (.literal sampleFixed)] ∧
      ListFields samplePairApart (.regular "x") [.literal sampleFixed, .literal sampleOpen] ∧
      (Json.arr [.int 3, .int 2]).canonical = true ∧
      ∃ w, ofJson (.arr [.int 3, .int 2]) = .ok w ∧
        let filled (fields : List (Label × Expr)) :=
          ((ofFile ⟨none, [], fields.map Decl.required⟩).fill (.field (.regular "x")) w).lookup
            (.field (.regular "x"))
        (filled samplePair).faults true = [] ∧ (filled samplePairApart).faults true = [] ∧
          (filled samplePair).toJson = .ok (.arr [.int 3, .int 2]) := by
  intro text text'
  have hparse : SchemaFile.parse text = .ok ⟨none, [], samplePair.map Decl.required⟩ :=
    SchemaFile.parse_of_readsAs (by decide +kernel)
  have hparse' : SchemaFile.parse text' = .ok ⟨none, [], samplePairApart.map Decl.required⟩ :=
    SchemaFile.parse_of_readsAs (by decide +kernel)
  have h : ListFields samplePair (.regular "x")
      [.both (.literal sampleOpen) (.literal sampleFixed)] :=
    ⟨by decide, rfl, by decide +kernel⟩
  have h' : ListFields samplePairApart (.regular "x") [.literal sampleFixed, .literal sampleOpen] :=
    ⟨by decide, rfl, by decide +kernel⟩
  have hc : (Json.arr [.int 3, .int 2]).canonical = true := by decide +kernel
  have hdescribes : ∀ s ∈ [sampleOpen, sampleFixed], s.Describes [.int 3, .int 2] := by
    decide +kernel
  obtain ⟨w, hw, hiff, hiff', hexport⟩ := faults_array_iff hparse hparse' h h'
    (.swap sampleOpen sampleFixed []) hc (by decide)
  have hnone := hiff.mpr hdescribes
  exact ⟨hparse, hparse', h, h', hc, w, hw, hnone, hiff'.mpr hnone, hexport hnone⟩

end Value

end SchemaMock
