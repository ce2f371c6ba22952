import SchemaMock.Proofs.Eval.Chain
import SchemaMock.Proofs.Expr.Comparison
import SchemaMock.Proofs.Fields
import SchemaMock.Proofs.Finality

/-! # Files of references

A file declares a field as a literal for host data, and further fields each by the name of the one
before, in any order. However long the chain is, the file compiles, and all its fields are exported
as the host data.
-/

namespace SchemaMock

open Arena Eval

/-- Fields for the names: the first one is declared as the expression, and each further one by the
name before it. -/
def Expr.chain (x : Expr) : List String → List (Label × Expr)
  | [] => []
  | name :: names => (.regular name, x) :: Expr.chain (.ident name) names

namespace Expr

variable {x : Expr} {names : List String} {fields : List (Label × Expr)} {name : String} {i : Nat}

theorem labels_chain (x : Expr) (names : List String) :
    (x.chain names).map (·.1) = names.map Label.regular := by
  induction names generalizing x with
  | nil => rfl
  | cons name names ih => rw [chain, List.map_cons, ih, List.map_cons]

/-! The fields of a chain may come in any order. -/

theorem perm_labels (h : fields.Perm (x.chain names)) :
    (fields.map (·.1)).Perm (names.map Label.regular) :=
  (h.map _).trans (.of_eq (x.labels_chain names))

theorem nodup_labels (h : fields.Perm (x.chain names)) (hnames : names.Nodup) :
    (fields.map (·.1)).Nodup :=
  (perm_labels h).nodup_iff.mpr (hnames.map fun _ _ => Label.regular.inj)

theorem length_eq_of_perm_chain (h : fields.Perm (x.chain names)) :
    fields.length = names.length := by
  simpa using (perm_labels h).length_eq

theorem exists_name (h : fields.Perm (x.chain names)) (hi : i < fields.length) :
    ∃ name ∈ names, fields[i].1 = .regular name := by
  have hmem := List.mem_map_of_mem (f := (·.1)) (List.getElem_mem hi)
  rw [(perm_labels h).mem_iff, List.mem_map] at hmem
  exact hmem.imp fun _ hname => ⟨hname.1, hname.2.symm⟩

theorem exists_field (h : fields.Perm (x.chain names)) (hname : name ∈ names) :
    ∃ i, ∃ hi : i < fields.length, fields[i].1 = .regular name := by
  obtain ⟨i, hi, hlabel⟩ :=
    List.mem_iff_getElem.mp ((perm_labels h).mem_iff.mpr (List.mem_map_of_mem hname))
  exact ⟨i, by simpa using hi, by rwa [List.getElem_map] at hlabel⟩

end Expr

/-- An identifier without the sign of a definition or a hidden field is a regular name. -/
theorem Label.ofIdent_of_plain {name : String}
    (h : name.toList.head? ≠ some '#' ∧ name.toList.head? ≠ some '_') :
    Label.ofIdent name.toList = .regular name := by
  unfold ofIdent
  split
  next cs hcs => exact absurd (by rw [hcs]; rfl) h.1
  next c cs hcs => exact absurd (by rw [hcs]; rfl) h.2
  next => rw [String.ofList_toList]

namespace Arena

variable {a b : Arena} {p : Option Nat} {s : Nat} {e x : Expr} {ts : List Nat} {names : List String}
  {place : String → Nat} {fields : List (Label × Expr)}

/-- From each field of a chain the names lead to the last expression, past the fields before it. -/
theorem exists_leads_of_chain (hx : a.Leads p s e x ts) (hnodup : (names.map place ++ ts).Nodup)
    (hlink : ∀ name y, (.regular name, y) ∈ x.chain names → a.Link p s name (place name) y) :
    ∀ name y, (.regular name, y) ∈ x.chain names → ∃ us, a.Leads p s e y us ∧
      (place name :: us).Nodup ∧ us.length ≤ ts.length + names.length := by
  induction names generalizing x ts with
  | nil => exact fun name y hy => absurd hy List.not_mem_nil
  | cons first names ih =>
    intro name y hy
    rw [List.map_cons, List.cons_append] at hnodup
    have hfirst : a.Link p s first (place first) x := hlink first x List.mem_cons_self
    rcases List.mem_cons.mp hy with hy | hy
    · cases hy
      refine ⟨ts, hx, ?_, Nat.le_add_right _ _⟩
      exact hnodup.sublist ((List.sublist_append_right _ ts).cons_cons _)
    · obtain ⟨us, hus, hdistinct, hlength⟩ := ih (.step hfirst hx) (List.nodup_middle.mpr hnodup)
        (fun name y hy => hlink name y (List.mem_cons_of_mem _ hy)) name y hy
      refine ⟨us, hus, hdistinct, ?_⟩
      rw [List.length_cons] at hlength ⊢
      omega

/-- A vertex of a field that what is declared for the field is written for, and nothing else. -/
structure Untouched (a : Arena) (d : Label × Expr) (v : Nat) : Prop where
  lt : v < a.vertices.size
  vertex : a.vertex v = .fresh (some root) [.field d.1] [.of d.2 fieldScope false]

theorem Untouched.intact {own : Nat → Prop} {d : Label × Expr} {v : Nat} (h : a.Untouched d v)
    (hi : Intact own a b) (hv : ¬ own v) : b.Untouched d v :=
  ⟨Nat.lt_of_lt_of_le h.lt hi.size, (hi.vertex h.lt hv).trans h.vertex⟩

/-- From every field of a file the names lead to the last expression. -/
structure Chained (a : Arena) (e : Expr) (fields : List (Label × Expr)) : Prop where
  fills : a.fills = []
  leads {i : Nat} (hi : i < fields.length) : ∃ us, a.Leads (some root) fieldScope e fields[i].2 us ∧
    ((i + 1) :: us).Nodup ∧ us.length ≤ a.vertices.size

theorem Chained.intact {v : Nat} (h : a.Chained e fields) (hi : Intact (· = v) a b)
    (hs : (a.vertex v).stage ≠ .done) (hseeds : (b.vertex v).seeds = (a.vertex v).seeds)
    (hpaths : (b.vertex v).paths = (a.vertex v).paths)
    (hforward : (b.vertex v).forward = (a.vertex v).forward) :
    b.Chained e fields := by
  refine ⟨hi.fills.trans h.fills, fun hlt => ?_⟩
  obtain ⟨us, hus, hnodup, hlength⟩ := h.leads hlt
  exact ⟨us, hus.imp fun _ _ _ hlink => hlink.intact hi hs hseeds hpaths hforward, hnodup,
    Nat.le_trans hlength hi.size⟩

/-! ### The beginning -/

theorem Rooted.untouched (h : a.Rooted fields []) {i : Nat} (hi : i < fields.length) :
    a.Untouched fields[i] (i + 1) := by
  refine ⟨by rw [h.size]; exact Nat.succ_lt_succ hi, ?_⟩
  rw [h.part hi, h.fillsAt]
  rfl

/-- A name of a field is a link to what is declared for the field. -/
theorem Rooted.link (h : a.Rooted fields []) (hfields : (fields.map (·.1)).Nodup) {i : Nat}
    (hi : i < fields.length) {name : String} (hname : Label.ofIdent name.toList = .regular name)
    (hlabel : fields[i].1 = .regular name) :
    a.Link (some root) fieldScope name (i + 1) fields[i].2 := by
  have hv := (h.untouched hi).vertex
  have harc := h.arc? hfields hi
  rw [hlabel, ← hname] at harc
  refine ⟨.declared (.here (by rw [h.scopes]; decide) h.inner ?_) h.settlesTo harc rfl,
    by rw [hv]; rfl, by rw [hv]; rfl, ?_, h.apart (Nat.succ_ne_zero i)⟩
  · rw [List.any_map, List.any_eq_true]
    exact ⟨fields[i], List.getElem_mem hi, decide_eq_true (hlabel.trans hname.symm)⟩
  · rw [hv]
    show Path.hasDefinition (.field fields[i].1) = false
    rw [hlabel]
    rfl

def vertexOf (fields : List (Label × Expr)) (name : String) : Nat :=
  (fields.map (·.1)).idxOf (.regular name) + 1

theorem vertexOf_eq (hfields : (fields.map (·.1)).Nodup) {i : Nat} (hi : i < fields.length)
    {name : String} (hlabel : fields[i].1 = .regular name) : vertexOf fields name = i + 1 := by
  have hi' : i < (fields.map (·.1)).length := by simpa using hi
  have hat : (fields.map (·.1))[i] = .regular name := by rw [List.getElem_map, hlabel]
  rw [vertexOf, ← hat, hfields.idxOf_getElem]

theorem nodup_vertexOf (hfields : fields.Perm (e.chain names)) (hnames : names.Nodup) :
    (names.map (vertexOf fields)).Nodup := by
  have hlabels := Expr.nodup_labels hfields hnames
  refine List.Nodup.map_on (fun name hname other hother heq => ?_) hnames
  obtain ⟨i, hi, hlabel⟩ := Expr.exists_field hfields hname
  obtain ⟨k, hk, hother⟩ := Expr.exists_field hfields hother
  rw [vertexOf_eq hlabels hi hlabel, vertexOf_eq hlabels hk hother] at heq
  obtain rfl := Nat.succ.inj heq
  exact Label.regular.inj (hlabel.symm.trans hother)

/-- The evaluation of a file of a chain begins with names that lead to the expression. -/
theorem Rooted.chained (h : a.Rooted fields []) (hfields : fields.Perm (e.chain names))
    (hnodup : names.Nodup) (hnames : ∀ name ∈ names, Label.ofIdent name.toList = .regular name) :
    a.Chained e fields := by
  have hlabels := Expr.nodup_labels hfields hnodup
  have hlink (name : String) (y : Expr) (hy : (Label.regular name, y) ∈ e.chain names) :
      a.Link (some root) fieldScope name (vertexOf fields name) y := by
    obtain ⟨i, hi, hd⟩ := List.mem_iff_getElem.mp (hfields.mem_iff.mpr hy)
    obtain ⟨other, hother, hlabel⟩ := Expr.exists_name hfields hi
    obtain rfl : name = other := by
      rw [hd] at hlabel
      exact Label.regular.inj hlabel
    have hl := h.link hlabels hi (hnames name hother) hlabel
    rwa [hd, ← vertexOf_eq hlabels hi hlabel] at hl
  have hleads :=
    exists_leads_of_chain .last (by rw [List.append_nil]; exact nodup_vertexOf hfields hnodup) hlink
  refine ⟨h.entries, fun {i} hi => ?_⟩
  obtain ⟨name, hname, hlabel⟩ := Expr.exists_name hfields hi
  obtain ⟨us, hus, hdistinct, hlength⟩ := hleads name fields[i].2
    (hfields.mem_iff.mp (by rw [← hlabel]; exact List.getElem_mem hi))
  rw [vertexOf_eq hlabels hi hlabel] at hdistinct
  refine ⟨us, hus, hdistinct, ?_⟩
  rw [h.size, Expr.length_eq_of_perm_chain hfields]
  rw [List.length_nil] at hlength
  omega

end Arena

namespace Eval

variable {a b : Arena} {e : Expr} {fields : List (Label × Expr)} {i : Nat} {j : Json}

/-- A field of a chain shows the host data of the last expression. What is written for it stays. -/
theorem exists_shows_of_chained (left : Nat) (h : a.Chained e fields) (hi : i < fields.length)
    (hv : a.Untouched fields[i] (i + 1)) (he : e.Spells j) (hc : j.canonical = true) :
    ∃ b, processAt (left + 1) (i + 1) a = ((), b) ∧ Intact (· = i + 1) a b ∧
      b.Shows a.vertices.size (i + 1) j (j.toVal []) ∧
      (b.vertex (i + 1)).paths = [.field fields[i].1] ∧
      (b.vertex (i + 1)).seeds = [.of fields[i].2 fieldScope false] := by
  obtain ⟨us, hus, hnodup, hlength⟩ := h.leads hi
  rw [List.nodup_cons] at hnodup
  exact exists_shows_of_leads left hus h.fills hv.lt hv.vertex (List.cons_ne_nil _ _) hnodup.2
    hnodup.1 hlength he hc

/-- Validation finds no faults in a field of a chain, and leaves the chain. -/
theorem faultsAt_of_chained (levels left : Nat) (concrete : Bool) (h : a.Chained e fields)
    (hi : i < fields.length) (hv : a.Untouched fields[i] (i + 1)) (he : e.Spells j)
    (hc : j.canonical = true) (hdepth : j.depth ≤ left) :
    let r := faultsAt (processAt (levels + 1)) left concrete (i + 1) a
    r.2.Chained e fields ∧ r.1 = [] ∧ Intact (· = i + 1) a r.2 := by
  intro r
  have hfresh := hv.vertex
  obtain ⟨b, hrun, hab, hshows, hpaths, hseeds⟩ := exists_shows_of_chained levels h hi hv he hc
  obtain ⟨hnone, hbr⟩ :=
    faultsAt_of_shows levels left concrete (settle_of_shows hrun hshows) hshows hdepth
  have hi : Intact (· = i + 1) a r.2 := hab.trans_new (Intact.mono hbr fun _ _ hu => hu.1)
  have hr : r.2.vertex (i + 1) = b.vertex (i + 1) := hbr.vertex_of_done hshows.stage
  refine ⟨h.intact hi ?_ ?_ ?_ ?_, hnone, hi⟩
  · rw [hfresh]; exact Stage.noConfusion
  · rw [hr, hseeds, hfresh]; rfl
  · rw [hr, hpaths, hfresh]; rfl
  · rw [hr, hshows.forward, hfresh]; rfl

/-- Validation finds no faults in a file of a chain. -/
theorem faults_of_chained (concrete : Bool) (h : b.Rooted fields []) (hchain : b.Chained e fields)
    (he : e.Spells j) (hc : j.canonical = true) (hdepth : j.depth ≤ maxDepth) :
    (Eval.faults evaluate concrete root b).1 = [] := by
  let f (d : (Label × Expr) × Nat) : Eval (List Fault) :=
    faultsAt evaluate maxDepth (concrete && d.1.1.isRegular) d.2
  let R (a : Arena) (d : (Label × Expr) × Nat) (i : Nat) : Prop :=
    ∃ hi : i < fields.length, d = (fields[i], i + 1) ∧ a.Untouched fields[i] (i + 1)
  have hf (a : Arena) (d : (Label × Expr) × Nat) (i : Nat) (hI : a.Chained e fields)
      (hR : R a d i) :
      (f d a).2.Chained e fields ∧ (f d a).1 = [] ∧
      Intact (fun v => v = d.2 ∨ False) a (f d a).2 := by
    obtain ⟨hi, rfl, hv⟩ := hR
    obtain ⟨hlast, hnone, hintact⟩ :=
      faultsAt_of_chained 255 maxDepth (concrete && fields[i].1.isRegular) hI
      hi hv he hc hdepth
    rw [← Value.evaluate_eq] at hlast hnone hintact
    exact ⟨hlast, hnone, hintact.mono fun _ _ => .inl⟩
  have hstart : List.Forall₂ (R b) (fields.zipIdx 1) (List.range fields.length) := by
    refine List.forall₂_iff_get.mpr ⟨by simp, fun i hi hi' => ?_⟩
    have hlt : i < fields.length := by simpa using hi
    simp only [List.get_eq_getElem, List.getElem_range]
    exact ⟨hlt, by rw [List.getElem_zipIdx, Nat.add_comm], h.untouched hlt⟩
  have hplaces : ((fields.zipIdx 1).map (·.2)).Nodup := by
    rw [List.zipIdx_map_snd]
    exact List.nodup_range'
  obtain ⟨-, hnone, -⟩ :=
    run_mapM_of_each (f := f) (Q := fun _ fs => fs = []) (·.2) (fun _ => False) hf
    (fun a c d k i hR hi hne => hR.imp fun _ hd => ⟨hd.1, hd.2.intact hi (by rw [hd.1] at hne; simpa using hne)⟩)
    hchain hstart hplaces
  rw [faults_of_rooted h]
  exact flatten_of_forall₂ hnone

end Eval

namespace Value

variable {e : Expr} {fields : List (Label × Expr)} {names : List String} {j : Json} {text : String}
  {package : Option String} {imports : List String}

/-- A field of a chain is exported as the host data that the chain ends in. -/
theorem toJson_of_chained {v : Value} {b : Arena} {i : Nat}
    (hrun : evaluate root (ofInputs v.sources v.fills) = ((), b)) (hfills : v.fills = [])
    (h : b.Rooted fields []) (hchain : b.Chained e fields) (hlabels : (fields.map (·.1)).Nodup)
    (hi : i < fields.length) (hpath : v.path = .field fields[i].1) (he : e.Spells j)
    (hc : j.canonical = true) (hdepth : j.depth ≤ maxDepth) : v.toJson = .ok j := by
  obtain ⟨c, hprocess, -, hshows, -⟩ := exists_shows_of_chained 255 hchain hi (h.untouched hi) he hc
  have hsettle : settle evaluate (i + 1) b = (i + 1, c) := by
    rw [evaluate_eq]
    exact settle_of_forward hprocess hshows.forward
  have hquery := query_field hrun (hfills ▸ h) hlabels hi hpath hsettle hshows.stage Except.error
    fun w => (exportVertex evaluate w).run
  have hexport := (exportAt_of_shows 255 (maxDepth + 1) (settle_of_shown hshows) hshows hc
    (Nat.le_succ_of_le hdepth)).1
  rw [← evaluate_eq] at hexport
  exact toJson_of_attempt (hquery.trans hexport)

/-- A file of a chain compiles, and each of its fields is exported as the host data that the first
one is declared as. -/
theorem compile_chain
    (hparse : SchemaFile.parse text = .ok ⟨package, imports, fields.map Decl.required⟩)
    (hfields : fields.Perm (e.chain names)) (hdistinct : names.Nodup)
    (hplain : ∀ name ∈ names, name.toList.head? ≠ some '#' ∧ name.toList.head? ≠ some '_')
    (he : e.Spells j) (hc : j.canonical = true) (hdepth : j.depth ≤ maxDepth) :
    ∃ v, compile none text = .ok v ∧
      ∀ name ∈ names, (v.lookup (.field (.regular name))).toJson = .ok j := by
  let v : Value := ofFile ⟨package, imports, fields.map Decl.required⟩
  have hlabels := Expr.nodup_labels hfields hdistinct
  have haddressed : Addressed (fields.map (·.1)) [] := List.forall_mem_nil _
  obtain ⟨b, hrun, hb⟩ := exists_rooted package imports hlabels haddressed
  have hchain := hb.chained hfields hdistinct fun name hname =>
    Label.ofIdent_of_plain (hplain name hname)
  have hnone : v.faults false = [] :=
    (query_of_evaluate (v := v) rfl hrun hb.stage hb.forward (fun f => [v.locate f])
      (Eval.faults evaluate false)).trans (faults_of_chained false hb hchain he hc hdepth)
  refine ⟨v, ?_, fun name hname => ?_⟩
  · rw [compile_eq, hparse]
    show inScope none v = .ok v
    rw [inScope, hnone]
  · obtain ⟨i, hi, hlabel⟩ := Expr.exists_field hfields hname
    exact toJson_of_chained (v := v.lookup (.field (.regular name))) hrun rfl hb hchain hlabels hi
      (by rw [hlabel]; rfl) he hc hdepth

/-- An object whose fields are not in the order of their names. -/
def sampleLiteral : Expr :=
  let fields : List (Label × Expr) :=
    [(.regular "k", .list [.unary .neg (.int 1), .null] none), (.regular "f", .str "x")]
  .struct (fields.map Decl.required)

def sampleData : Json := .obj [("f", .str "x"), ("k", .arr [.int (-1), .null])]

/-- The object, a field that names it, and before both a field that names that one. -/
def sampleChain : List (Label × Expr) :=
  [(.regular "c", .ident "b"), (.regular "a", sampleLiteral), (.regular "b", .ident "a")]

theorem spells_sampleLiteral : sampleLiteral.Spells sampleData :=
  .obj (.swap _ _ []) rfl
    (.cons (.arr (.cons (.scalar (.minusInt 1 (by decide)) rfl) (.cons (.scalar (.plain .null) rfl) .nil)))
      (.cons (.scalar (.plain (.str "x")) rfl) .nil))

theorem compile_chain_object :
    let text := "c: b\na: \x7b\"k\": [-1, null], \"f\": \"x\"\x7d\nb: a"
    SchemaFile.parse text = .ok ⟨none, [], sampleChain.map Decl.required⟩ ∧
      sampleChain.Perm (sampleLiteral.chain ["a", "b", "c"]) ∧ ["a", "b", "c"].Nodup ∧
      (∀ name ∈ ["a", "b", "c"], name.toList.head? ≠ some '#' ∧ name.toList.head? ≠ some '_') ∧
      sampleLiteral.Spells sampleData ∧ sampleData.canonical = true ∧ sampleData.depth ≤ maxDepth ∧
      ∃ v, compile none text = .ok v ∧
        ∀ name ∈ ["a", "b", "c"], (v.lookup (.field (.regular name))).toJson = .ok sampleData := by
  intro text
  have hparse : SchemaFile.parse text = .ok ⟨none, [], sampleChain.map Decl.required⟩ :=
    SchemaFile.parse_of_readsAs (by decide +kernel)
  have hfields : sampleChain.Perm (sampleLiteral.chain ["a", "b", "c"]) :=
    (List.perm_append_singleton _ [_, _]).symm
  have hdistinct : ["a", "b", "c"].Nodup := by decide
  have hplain : ∀ name ∈ ["a", "b", "c"], name.toList.head? ≠ some '#' ∧
      name.toList.head? ≠ some '_' := by
    decide +kernel
  have hc : sampleData.canonical = true := by decide +kernel
  have hdepth : sampleData.depth ≤ maxDepth := by decide
  exact ⟨hparse, hfields, hdistinct, hplain, spells_sampleLiteral, hc, hdepth,
    compile_chain hparse hfields hdistinct hplain spells_sampleLiteral hc hdepth⟩

def nestedArray : Nat → Json
  | 0 => .arr []
  | n + 1 => .arr [nestedArray n]

/-- Text is read to fewer levels than host data may have: 64 arrays one inside the other are
refused. -/
theorem not_compile_nestedArray : (nestedArray 63).depth = 64 ∧ (nestedArray 63).canonical = true ∧
    (compile none ("x0: " ++ (nestedArray 63).compact)).isOk = false := by
  refine ⟨by decide +kernel, by decide +kernel, ?_⟩
  have hparse : (SchemaFile.parse ("x0: " ++ (nestedArray 63).compact)).isOk = false := by
    decide +kernel
  rw [compile]
  cases hp : SchemaFile.parse ("x0: " ++ (nestedArray 63).compact) with
  | ok file => rw [hp] at hparse; cases hparse
  | error m => rfl

end Value

end SchemaMock
