import SchemaMock.Proofs.Eval.Filling
import SchemaMock.Proofs.Eval.Merging
import SchemaMock.Proofs.ListLiteral

/-! # An array beside list literals

A vertex is declared as list literals, and an array is filled in there. When the literals allow its
length, the vertex becomes a list, and each element gets an item and the conditions for its
position. Otherwise the vertex becomes bottom. Validation finds a fault just when some literal does
not describe the array.
-/

namespace SchemaMock

open Arena Eval

namespace ListTerm

def conjunct (scope : Nat) (t : ListTerm) : Conjunct := .of t.toExpr scope false

end ListTerm

theorem Vertex.asList_append (ps qs : List ListPart) (x : Vertex) :
    x.asList (ps ++ qs) = (x.asList ps).asList qs := by
  simp [asList, List.foldl_append]

theorem Vertex.asList_nil (x : Vertex) : x.asList [] = x := by
  simp [asList]

namespace Eval

variable {process : Nat → Eval Unit} {a b c : Arena} {v scope : Nat} {ts : List ListTerm}

/-! ## Rounds of literals -/

/-- A term notes its literal, and leaves its operands. -/
theorem addConjunct_listTerm (process : Nat → Eval Unit) (v scope : Nat)
    (t : ListTerm) (a : Arena) : addConjunct process v (t.conjunct scope) a =
      (⟨t.operands.map (·.conjunct scope), if t.operands.isEmpty then [t.conjunct scope] else [], []⟩,
        a.modify v (·.asList (t.own.map (·.part scope)))) := by
  cases t with
  | any => exact congrArg (Prod.mk _) (modify_eq_self (Vertex.asList_nil _)).symm
  | both x y => exact congrArg (Prod.mk _) (modify_eq_self (Vertex.asList_nil _)).symm
  | literal s => exact addConjunct_list ⟨rfl, rfl, rfl⟩

theorem run_listTerms (process : Nat → Eval Unit) (v scope : Nat) (ts : List ListTerm) (a : Arena) :
    let r := (ts.map (·.conjunct scope)).mapM (addConjunct process v) a
    r.2 = a.modify v (·.asList ((ts.flatMap ListTerm.own).map (·.part scope))) ∧
      r.1.flatMap (·.disjunctions) = [] ∧
      r.1.flatMap (·.next) = (ts.flatMap ListTerm.operands).map (·.conjunct scope) := by
  induction ts generalizing a with
  | nil => exact ⟨(modify_eq_self (Vertex.asList_nil _)).symm, rfl, rfl⟩
  | cons t ts ih =>
    obtain ⟨hlast, hnone, hnext⟩ := ih (a.modify v (·.asList (t.own.map (·.part scope))))
    rw [List.map_cons, run_mapM_cons, addConjunct_listTerm]
    refine ⟨hlast.trans ?_, hnone, ?_⟩
    · rw [modify_modify, List.flatMap_cons, List.map_append]
      simp only [Vertex.asList_append]
    · rw [List.flatMap_cons, hnext, List.flatMap_cons, List.map_append]

/-- Rounds of terms note all literals. -/
theorem addRounds_listTerms (process : Nat → Eval Unit) (v scope : Nat) {n rounds : Nat}
    (h : ∀ t ∈ ts, t.height ≤ n) (hn : n ≤ rounds) (a : Arena) :
    ∃ kept, addRounds process v rounds (ts.map (·.conjunct scope)) a =
      ((kept, []), a.modify v (·.asList ((ListTerm.breadthFirst n ts).map (·.part scope)))) := by
  induction n generalizing rounds ts a with
  | zero =>
    have hnil : ts = [] := List.eq_nil_iff_forall_not_mem.mpr fun t ht =>
      absurd (h t ht) (Nat.not_le_of_gt t.height_pos)
    subst hnil
    exact ⟨[], (addRounds_nil rounds).trans (congrArg (Prod.mk _) (modify_eq_self (Vertex.asList_nil _)).symm)⟩
  | succ n ih =>
    obtain ⟨rounds, rfl⟩ : ∃ k, rounds = k + 1 := ⟨rounds - 1, by omega⟩
    obtain ⟨hlast, hnone, hnext⟩ := run_listTerms process v scope ts a
    obtain ⟨kept, hrest⟩ := ih (ListTerm.height_operands h) (Nat.le_of_succ_le_succ hn)
      (a.modify v (·.asList ((ts.flatMap ListTerm.own).map (·.part scope))))
    have hround : (ts.map (·.conjunct scope)).mapM (addConjunct process v) a =
        (_, a.modify v (·.asList ((ts.flatMap ListTerm.own).map (·.part scope)))) :=
        Prod.ext rfl hlast
    have hall := addRounds_of_mapM hround hnext rfl hnone hrest
    rw [modify_modify] at hall
    simp only [← Vertex.asList_append, ← List.map_append] at hall
    exact ⟨_, hall⟩

/-- An array and terms are noted as list literals. -/
theorem notes_listTerms (process : Nat → Eval Unit) (a : Arena) (v scope : Nat) {d : Conjunct}
    {p : ListPart} (hd : d.IsList p) (h : ∀ t ∈ ts, t.height ≤ maxDepth) :
    Notes process a v (d :: ts.map (·.conjunct scope))
      (p :: (ListTerm.breadthFirst maxDepth ts).map (·.part scope)) := by
  obtain ⟨rounds, hr, hle⟩ := exists_rounds_left a
  obtain ⟨kept, hrest⟩ :=
    addRounds_listTerms process v scope h (Nat.le_succ_of_le hle) (a.modify v (·.asList [p]))
  refine ⟨d :: kept, ?_⟩
  rw [hr, addRounds_cons rounds _ (addConjunct_list hd) rfl rfl, hrest, modify_modify]
  simp only [← Vertex.asList_append]
  rfl

end Eval

/-! ## Elements -/

namespace Arena

variable {a b c : Arena} {v n : Nat} {ts : List Condition} {j : Json} {items : List Json}

structure Carries (a : Arena) (v : Nat) (ts : List Condition) (j : Json) : Prop where
  lt : v < a.vertices.size
  fresh : ∃ parent paths cs, a.vertex v = .fresh parent paths cs ∧ a.Bears ts (some j) cs ∧
    a.hasFillsBelow paths = false
  height : ∀ t ∈ ts, t.height ≤ maxDepth

theorem Carries.extends {own : Nat → Prop} (h : a.Carries v ts j) (hi : Extends own a b)
    (hsame : b.vertex v = a.vertex v) : b.Carries v ts j := by
  obtain ⟨parent, paths, cs, hv, hbears, hfills⟩ := h.fresh
  exact ⟨Nat.lt_of_lt_of_le h.lt hi.size, ⟨parent, paths, cs, hsame.trans hv, hbears.intact hi Extends.not_done,
    (hi.hasFillsBelow paths).trans hfills⟩, h.height⟩

/-- The elements of a list carry the items of an array, with conditions for each position. -/
structure Itemized (a : Arena) (v n : Nat) (ts : Nat → List Condition)
    (items : List Json) : Prop where
  list : ∃ parent, a.Enumerated v parent n items.length
  element {i : Nat} (h : i < items.length) : a.Carries (n + i) (ts i) items[i]

end Arena

namespace Eval

variable {a b c : Arena} {v n : Nat} {ts : List Condition} {j : Json} {items : List Json}

theorem faultsAt_of_carries (levels left : Nat) (concrete : Bool) (h : a.Carries v ts j)
    (hdepth : j.depth ≤ left + 1) :
    let r := faultsAt (processAt (levels + 1)) (left + 1) concrete v a
    Extends (· = v) a r.2 ∧ Found (¬ ∀ t ∈ ts, Condition.admitsJson j t = true) r.1 := by
  intro r
  obtain ⟨parent, paths, cs, hv, hbears, hfills⟩ := h.fresh
  obtain ⟨b, hrun, hab, hfilled, -⟩ := exists_filled levels h.lt hv hbears h.height hfills
  obtain ⟨hinner, hfound⟩ :=
    faultsAt_of_filled levels left concrete (settle_of_filled hrun hfilled) hfilled
    h.height (fun _ => rfl) fun k hk => Option.some.inj hk ▸ hdepth
  have hall : Intact (· = v) a r.2 := hab.trans_new (Intact.mono hinner fun _ _ hu => hu.1)
  rw [Condition.ruleOut_eq_true_iff h.height] at hfound
  exact ⟨hall.extends_self (by rw [hv]; exact Stage.noConfusion), hfound⟩

theorem exportAt_of_carries (levels left : Nat) (h : a.Carries v ts j) (hdepth : j.depth ≤ left)
    (hmeets : ∀ t ∈ ts, Condition.admitsJson j t = true) :
    let r := (exportAt (processAt (levels + 1)) left v).run a
    Extends (· = v) a r.2 ∧ r.1 = .ok j := by
  intro r
  obtain ⟨parent, paths, cs, hv, hbears, hfills⟩ := h.fresh
  obtain ⟨b, hrun, hab, hfilled, -⟩ := exists_filled levels h.lt hv hbears h.height hfills
  have hrules : Condition.ruleOut ts (some j) = false := by
    rw [← Bool.not_eq_true, Condition.ruleOut_eq_true_iff h.height, not_not]
    exact hmeets
  obtain ⟨hresult, hinner⟩ :=
    exportAt_of_filled levels left (settle_of_filled hrun hfilled) hfilled h.height
    hrules (canonical_of_bears hbears j rfl) hdepth
  have hall : Intact (· = v) a r.2 := hab.trans_new (Intact.mono hinner fun _ _ hu => hu.1)
  exact ⟨hall.extends_self (by rw [hv]; exact Stage.noConfusion), hresult⟩

section

variable {conditions : Nat → List Condition}

/-- An element that has not been looked at while others were. -/
def Waiting (b c : Arena) (n : Nat) (conditions : Nat → List Condition) (items : List Json)
    (u i : Nat) : Prop :=
  u = n + i ∧ c.vertex u = b.vertex u ∧ u < c.vertices.size ∧ ∃ h : i < items.length,
    b.Carries u (conditions i) items[i]

theorem Waiting.intact {d : Arena} {u k i : Nat} (h : Waiting b c n conditions items u i)
    (hi : Intact (fun w => w = k ∨ False) c d) (hne : u ≠ k) : Waiting b d n conditions items u i :=
  ⟨h.1, (hi.vertex h.2.2.1 (by simpa using hne)).trans h.2.1, Nat.lt_of_lt_of_le h.2.2.1 hi.size,
  h.2.2.2⟩

theorem forall₂_waiting (h : b.Itemized v n conditions items) :
    List.Forall₂ (Waiting b b n conditions items) (List.range' n items.length)
      (List.range items.length) := by
  refine List.forall₂_iff_get.mpr ⟨by simp, fun i hi hi' => ?_⟩
  have hlt : i < items.length := by simpa using hi'
  simp only [List.get_eq_getElem, List.getElem_range', List.getElem_range, Nat.one_mul]
  exact ⟨rfl, rfl, (h.element hlt).lt, hlt, h.element hlt⟩

/-- Validation of a list goes through its elements. -/
theorem faultsAt_of_itemized (levels left : Nat) (concrete : Bool)
    (h : b.Itemized v n conditions items) (hdepth : ∀ j ∈ items, j.depth ≤ left + 1) :
    Found (∃ i, ∃ h : i < items.length, ¬ ∀ t ∈ conditions i, Condition.admitsJson items[i] t = true)
      (faultsAt (processAt (levels + 1)) (left + 2) concrete v b).1 := by
  obtain ⟨parent, hlist⟩ := h.list
  let f := faultsAt (processAt (levels + 1)) (left + 1) concrete
  let I (c : Arena) : Prop := Extends (fun _ => True) b c
  let wrong (i : Nat) : Prop :=
    ∃ h : i < items.length, ¬ ∀ t ∈ conditions i, Condition.admitsJson items[i] t = true
  have hf (c : Arena) (u i : Nat) (hI : I c) (hw : Waiting b c n conditions items u i) :
      I (f u c).2 ∧ Found (wrong i) (f u c).1 ∧ Intact (fun w => w = u ∨ False) c (f u c).2 := by
    obtain ⟨rfl, hsame, -, hi, hcarries⟩ := hw
    obtain ⟨hextends, hfound⟩ :=
      faultsAt_of_carries levels left concrete (hcarries.extends hI hsame)
      (hdepth _ (List.getElem_mem hi))
    refine ⟨hI.trans (hextends.mono fun _ _ _ => trivial), ?_,
      Intact.mono hextends fun w _ hw => .inl hw.1⟩
    have hwrong : wrong i ↔ ¬ ∀ t ∈ conditions i, Condition.admitsJson items[i] t = true :=
      exists_prop_of_true hi
    exact hfound.congr hwrong.symm
  obtain ⟨-, hfound, -⟩ := run_mapM_of_each (f := f) (Q := fun i fs => Found (wrong i) fs) id
    (fun _ => False) hf
    (fun c d u k i hw hi hne => hw.intact hi hne) (.refl _ b) (forall₂_waiting h)
    (by simpa using List.nodup_range')
  have hsettle : settle (processAt (levels + 1)) v b = (v, b) :=
    settle_of_forward (processAt_of_stage _ (by rw [hlist.stage]; decide)) hlist.forward
  rw [faultsAt_of_list hsettle hlist.val hlist.pending, hlist.elems]
  have hsome : (∃ i ∈ List.range items.length, wrong i) ↔ ∃ i, wrong i :=
    ⟨fun ⟨i, _, hi⟩ => ⟨i, hi⟩, fun ⟨i, hi⟩ => ⟨i, List.mem_range.mpr hi.1, hi⟩⟩
  exact (Found.flatten hfound).congr hsome

/-- The items are exported as they are if they all meet their conditions. -/
theorem exportAt_of_itemized (levels left : Nat) (h : b.Itemized v n conditions items)
    (hdepth : ∀ j ∈ items, j.depth ≤ left)
    (hmeets : ∀ i (h : i < items.length), ∀ t ∈ conditions i, Condition.admitsJson items[i] t = true) :
    ((exportAt (processAt (levels + 1)) (left + 1) v).run b).1 = .ok (.arr items) := by
  obtain ⟨parent, hlist⟩ := h.list
  let f := exportAt (processAt (levels + 1)) left
  let I (c : Arena) : Prop := Extends (fun _ => True) b c
  let R (c : Arena) (u : Nat) (j : Json) : Prop := ∃ i, Waiting b c n conditions items u i ∧
    items[i]? = some j
  have hf (c : Arena) (u : Nat) (j : Json) (hI : I c) (hR : R c u j) :
      I ((f u).run c).2 ∧ ((f u).run c).1 = .ok j ∧
        Intact (fun w => w = u ∨ False) c ((f u).run c).2 := by
    obtain ⟨i, ⟨rfl, hsame, -, hi, hcarries⟩, hj⟩ := hR
    obtain rfl : items[i] = j := Option.some.inj ((List.getElem?_eq_getElem hi).symm.trans hj)
    obtain ⟨hextends, hresult⟩ := exportAt_of_carries levels left (hcarries.extends hI hsame)
      (hdepth _ (List.getElem_mem hi)) (hmeets i hi)
    exact ⟨hI.trans (hextends.mono fun _ _ _ => trivial), hresult,
      Intact.mono hextends fun w _ hw => .inl hw.1⟩
  have hstart : List.Forall₂ (R b) (List.range' n items.length) items := by
    obtain ⟨hlength, hget⟩ := List.forall₂_iff_get.mp (forall₂_waiting h)
    refine List.forall₂_iff_get.mpr ⟨by simp, fun i hi hi' => ⟨i, ?_, List.getElem?_eq_getElem hi'⟩⟩
    simpa using hget i hi (hlength ▸ hi)
  obtain ⟨-, hresult, -⟩ := Attempt.run_mapM_of_each (f := f) id (fun _ => False) hf
    (fun c d u k j hR hi hne => hR.imp fun i hw => ⟨hw.1.intact hi hne, hw.2⟩) (.refl _ b) hstart
    (by simpa using List.nodup_range')
  have hsettle : settle (processAt (levels + 1)) v b = (v, b) :=
    settle_of_forward (processAt_of_stage _ (by rw [hlist.stage]; decide)) hlist.forward
  rw [run_exportAt_of_list hsettle hlist.val hlist.pending hlist.stage, hlist.elems,
    Attempt.run_bind_of_ok hresult]
  rfl

end

end Eval

/-! ## The list -/

namespace Arena

/-- A pending vertex that an array and terms are written for. -/
structure Poised (a : Arena) (v scope : Nat) (ts : List ListTerm) (items : List Json) : Prop where
  lt : v < a.vertices.size
  fresh : ∃ parent paths c, a.vertex v = .fresh parent paths (c :: ts.map (·.conjunct scope)) ∧
    c.Writes (.arr items) ∧ a.hasFillsBelow paths = false
  height : ∀ t ∈ ts, t.height ≤ maxDepth
  legible : ∀ s ∈ ts.flatMap ListTerm.literals, ∀ t ∈ s.conditions, t.height ≤ maxDepth ∧
    a.Clear scope t

variable {a : Arena} {v scope : Nat} {ts : List ListTerm} {items : List Json}

theorem Poised.legible_of_mem_allAt (h : a.Poised v scope ts items) {i : Nat} {t : Condition}
    (ht : t ∈ ListLiteral.allAt (ListTerm.breadthFirst maxDepth ts) i) : t.height ≤ maxDepth ∧
    a.Clear scope t := by
  obtain ⟨s, hs, hst⟩ := List.mem_filterMap.mp ht
  exact h.legible s ((ListTerm.mem_breadthFirst h.height).mp hs) t (ListLiteral.mem_conditions hst)

end Arena

namespace Eval

variable {a : Arena} {v scope : Nat} {ts : List ListTerm} {items : List Json}

/-- The length of the array is agreed on if all literals allow it. -/
theorem exists_itemized (levels : Nat) (h : a.Poised v scope ts items)
    (hlengths : ∀ s ∈ ListTerm.breadthFirst maxDepth ts, s.AllowsLength items.length) :
    ∃ b, processAt (levels + 1) v a = ((), b) ∧
      b.Itemized v a.vertices.size (ListLiteral.allAt (ListTerm.breadthFirst maxDepth ts))
        items := by
  obtain ⟨parent, paths, c, hv, hc, hfills⟩ := h.fresh
  obtain ⟨xs, hcxs, hxs⟩ := hc.isList
  let p : ListPart := ⟨xs, none, c.scope, false⟩
  let ss := ListTerm.breadthFirst maxDepth ts
  have hlength : xs.length = items.length := hxs.length_eq.symm
  have hagreed : agreedLength (p :: ss.map (·.part scope)) = .ok items.length := by
    rw [← hlength]
    refine agreedLength_of_allows rfl fun q hq => ?_
    obtain ⟨s, hs, rfl⟩ := List.mem_map.mp hq
    exact ListLiteral.allows_part.mpr (hlength ▸ hlengths s hs)
  obtain ⟨b, hrun, hab, hlist, hsize, helements⟩ := exists_enumerated_of_notes levels h.lt hv
    (notes_listTerms _ _ v scope hcxs h.height) (List.cons_ne_nil _ _) hagreed
    (by rw [fillSelectors_of_hasFillsBelow hfills]; exact fun _ hs => absurd hs List.not_mem_nil)
  refine ⟨b, hrun, ⟨parent, hlist⟩, fun {i} hi => ⟨by omega, ?_, fun t ht => (h.legible_of_mem_allAt ht).1⟩⟩
  let places := paths.map (·.child (.index i))
  have hix : i < xs.length := hlength ▸ hi
  refine ⟨some v, places, .of xs[i] c.scope false :: (ListLiteral.allAt ss i).map fun t => .of
    t.toExpr scope false, ?_, ⟨_, _, rfl, (List.forall₂_iff_get.mp hxs).2 i hi hix c.scope, ?_⟩, ?_⟩
  · have hfirst : ListPart.conjunct? p i = some (.of xs[i] c.scope false) := by
      simp [ListPart.conjunct?, p, hix]
    have hrest : (ss.map (·.part scope)).filterMap (ListPart.conjunct? · i) =
        (ListLiteral.allAt ss i).map fun t => .of t.toExpr scope false := by
      simp only [List.filterMap_map, Function.comp_def, ListLiteral.conjunct?_part,
        ListLiteral.allAt, List.map_filterMap]
    have hseeds : (p :: ss.map (·.part scope)).filterMap (ListPart.conjunct? · i) =
        .of xs[i] c.scope false :: (ListLiteral.allAt ss i).map fun t => .of t.toExpr
        scope false := by
      rw [List.filterMap_cons_some (f := (ListPart.conjunct? · i)) hfirst, hrest]
    have hnone : a.fillsAt places = [] := fillsAt_parts hfills (.index i)
    rw [helements i hi, elementVertex, hv]
    exact congrArg (Vertex.fresh (some v) places) ((congrArg (· ++ _) hnone).trans hseeds)
  · refine Conditions.intact ?_ hab Extends.not_done
    rw [Conditions, List.forall₂_map_left_iff, List.forall₂_same]
    exact fun t ht => ⟨rfl, (h.legible_of_mem_allAt ht).2⟩
  · exact (hab.hasFillsBelow _).trans (hasFillsBelow_parts hfills (.index i))

/-- Lengths clash if some literal does not allow that of the array. -/
theorem exists_clash (levels : Nat) (h : a.Poised v scope ts items)
    (hlengths : ¬ ∀ s ∈ ListTerm.breadthFirst maxDepth ts, s.AllowsLength items.length) :
    ∃ b f, processAt (levels + 1) v a = ((), b) ∧ (b.vertex v).stage = .done ∧
      (b.vertex v).forward = none ∧ (b.vertex v).val = .bottom f ∧ f.isIncomplete = false := by
  obtain ⟨parent, paths, c, hv, hc, hfills⟩ := h.fresh
  obtain ⟨xs, hcxs, hxs⟩ := hc.isList
  have hlength : xs.length = items.length := hxs.length_eq.symm
  let p : ListPart := ⟨xs, none, c.scope, false⟩
  have hclash : ¬ ∀ q ∈ (ListTerm.breadthFirst maxDepth ts).map (·.part scope),
      q.Allows p.elems.length :=
    fun hall => hlengths fun s hs =>
      hlength ▸ ListLiteral.allows_part.mp (hall _ (List.mem_map_of_mem hs))
  obtain ⟨lengths, herror⟩ := exists_agreedLength_error (p := p) rfl hclash
  obtain ⟨b, f, hrun, -, hstage, hforward, -, hval, hfinal⟩ := exists_uneven_of_notes levels h.lt hv
    (notes_listTerms _ _ v scope hcxs h.height) (List.cons_ne_nil _ _) herror
    (fillSelectors_of_hasFillsBelow hfills)
  exact ⟨b, f, hrun, hstage, hforward, hval, hfinal⟩

/-- Validation finds a fault just when some literal does not describe the array. Otherwise the array
is exported as it is. -/
theorem exists_verdict (levels left : Nat) (concrete : Bool) (h : a.Poised v scope ts items)
    (hdepth : ∀ j ∈ items, j.depth ≤ left + 1) :
    ∃ b, processAt (levels + 1) v a = ((), b) ∧ (b.vertex v).stage = .done ∧
      (b.vertex v).forward = none ∧ Found (¬ ∀ s ∈ ts.flatMap ListTerm.literals, s.Describes items)
        (faultsAt (processAt (levels + 1)) (left + 2) concrete v b).1 ∧
      ((∀ s ∈ ts.flatMap ListTerm.literals, s.Describes items) →
        ((exportAt (processAt (levels + 1)) (left + 2) v).run b).1 = .ok (.arr items)) := by
  let ss := ListTerm.breadthFirst maxDepth ts
  have hall : (∀ s ∈ ts.flatMap ListTerm.literals, s.Describes items) ↔
      ∀ s ∈ ss, s.Describes items :=
    forall_congr' fun s => imp_congr_left (ListTerm.mem_breadthFirst h.height).symm
  rw [hall, ListLiteral.forall_describes_iff]
  by_cases hlengths : ∀ s ∈ ss, s.AllowsLength items.length
  · obtain ⟨b, hrun, hitems⟩ := exists_itemized levels h hlengths
    obtain ⟨parent, hlist⟩ := hitems.list
    refine ⟨b, hrun, hlist.stage, hlist.forward, ?_, fun hmeets => ?_⟩
    · refine (faultsAt_of_itemized levels left concrete hitems hdepth).congr ?_
      constructor
      · rintro ⟨i, hi, hnot⟩ ⟨-, hmeets⟩
        exact hnot (hmeets i hi)
      · intro hno
        by_contra hnone
        exact hno ⟨hlengths, fun i hi => by_contra fun hnot => hnone ⟨i, hi, hnot⟩⟩
    · exact exportAt_of_itemized levels (left + 1) hitems hdepth hmeets.2
  · obtain ⟨b, f, hrun, hstage, hforward, hval, hfinal⟩ := exists_clash levels h hlengths
    have hsettle : settle (processAt (levels + 1)) v b = (v, b) :=
      settle_of_forward (processAt_of_stage _ (by rw [hstage]; decide)) hforward
    refine ⟨b, hrun, hstage, hforward, ?_, fun hmeets => absurd hmeets.1 hlengths⟩
    rw [faultsAt_of_isBottom hsettle hval]
    exact ⟨fun hno => absurd (not_not.mp hno).1 hlengths,
      fun _ => ⟨_, List.mem_singleton_self _, (f.isIncomplete_atPath _).trans hfinal⟩⟩

end Eval

end SchemaMock
