import SchemaMock.Proofs.Eval.Filling

/-! # Fields of conditions

A field that conditions are declared for, and perhaps faults, has a value just when the conditions
leave a scalar and there is no fault. Validation finds nothing wrong with several such fields just
when each of them has a value.
-/

namespace SchemaMock

open Arena Eval

/-! ## Structs and lists -/

namespace Val

/-- The value is either open to both structs and lists, or to neither. -/
def Impartial (v : Val) : Prop := v.kinds.struct = v.kinds.list

theorem impartial_meetAtom (s : Scalar) (c : Constraint) : (meetAtom s c).Impartial := by
  unfold meetAtom
  split
  · rfl
  · split
    · rfl
    · cases s <;> rfl

theorem Impartial.meet {v w : Val} (hv : v.Impartial) (hw : w.Impartial) :
    (v.meet w).Impartial := by
  cases v with
  | bottom f => rfl
  | atom s =>
    cases w with
    | bottom f => rfl
    | atom t =>
      rw [Val.meet]
      split
      · exact hv
      · rfl
    | constraint c => exact impartial_meetAtom s c
  | constraint c =>
    cases w with
    | bottom f => rfl
    | atom t => exact impartial_meetAtom t c
    | constraint d =>
      simp only [Val.meet]
      split
      · rfl
      · exact congrArg₂ (· && ·) hv hw

theorem Impartial.foldl {ws : List Val} {v : Val} (hv : v.Impartial) (hws : ∀ w ∈ ws, w.Impartial) :
    (ws.foldl Val.meet v).Impartial := by
  induction ws generalizing v with
  | nil => exact hv
  | cons w ws ih =>
    exact ih (hv.meet (hws w List.mem_cons_self)) fun u hu => hws u (List.mem_cons_of_mem w hu)

end Val

namespace Condition

theorem impartial_of_mem_vals {t : Condition} {w : Val} (h : w ∈ t.vals) : w.Impartial := by
  cases t with
  | type t =>
    obtain rfl := List.mem_singleton.mp h
    obtain ⟨hstruct, hlist⟩ := Constraint.kinds_of_ofTypeName? t.ofTypeName?_name
    exact hstruct.trans hlist.symm
  | bound op c =>
    obtain rfl := List.mem_singleton.mp h
    by_cases hop : op = .notEqual
    · subst hop
      rfl
    · obtain ⟨hstruct, hlist⟩ := Bound.kinds_of_ordering (b := ⟨op, c.value⟩) hop
      exact hstruct.trans hlist.symm
  | equal c =>
    obtain rfl := List.mem_singleton.mp h
    cases hc : c.value <;> simp [Val.Impartial, Val.kinds, Scalar.kinds] <;> rfl
  | any => cases h
  | both a b => cases h

theorem impartial_of_mem_breadthFirst {n : Nat} {ts : List Condition} {w : Val}
    (h : w ∈ breadthFirst n ts) : w.Impartial := by
  induction n generalizing ts with
  | zero => cases h
  | succ n ih =>
    rcases List.mem_append.mp h with h | h
    · obtain ⟨t, -, hw⟩ := List.mem_flatMap.mp h
      exact impartial_of_mem_vals hw
    · exact ih h

end Condition

namespace Arena

variable {a b : Arena} {v w : Nat} {ts : List Condition} {fs : List Fault} {own : Nat → Prop}

/-- A pending vertex that conditions and faults are declared for. -/
structure Constrained (a : Arena) (v : Nat) (ts : List Condition) (fs : List Fault) : Prop where
  lt : v < a.vertices.size
  fresh : ∃ parent paths cs,
    a.vertex v = .fresh parent paths (cs ++ fs.map fun f => ⟨.fault f, plainScope, false, none⟩) ∧
      a.Conditions cs ts ∧ a.hasFillsBelow paths = false
  height : ∀ t ∈ ts, t.height ≤ maxDepth

theorem Constrained.extends (h : a.Constrained v ts fs) (hab : Extends own a b) (hv : ¬ own v) :
    b.Constrained v ts fs := by
  obtain ⟨parent, paths, cs, hvertex, hcs, hpaths⟩ := h.fresh
  refine ⟨Nat.lt_of_lt_of_le h.lt hab.size, ⟨parent, paths, cs, ?_, ?_, ?_⟩, h.height⟩
  · rw [hab.vertex h.lt fun ho => hv ho.1, hvertex]
  · exact hcs.intact hab Extends.not_done
  · rw [hab.hasFillsBelow, hpaths]

end Arena

namespace Eval

variable {process : Nat → Eval Unit} {a b : Arena} {v left : Nat} {cs : List Conjunct}
  {ts : List Condition}
  {fs : List Fault}

theorem run_faults (process : Nat → Eval Unit) (v : Nat) (fs : List Fault)
    (scope : Nat) (a : Arena) :
    let r := (fs.map fun f => (⟨.fault f, scope, false, none⟩ : Conjunct)).mapM
      (addConjunct process v) a
    r.2 = a.modify v (·.meetAll (fs.map Val.bottom)) ∧ r.1.flatMap (·.disjunctions) = [] ∧
      r.1.flatMap (·.next) = [] := by
  induction fs generalizing a with
  | nil => exact ⟨(modify_eq_self rfl).symm, rfl, rfl⟩
  | cons f fs ih =>
    obtain ⟨hlast, hnone, hnext⟩ := ih (a.modify v (·.meet (.bottom f)))
    rw [List.map_cons, run_mapM_cons]
    refine ⟨hlast.trans ?_, hnone, hnext⟩
    rw [modify_modify]
    rfl

end Eval

/-- What narrows a vertex, where faults come after the first round of conditions. -/
def Condition.withFaults (ts : List Condition) (fs : List Fault) : List Val :=
  ts.flatMap vals ++ fs.map Val.bottom ++ breadthFirst maxDepth (ts.flatMap operands)

def Condition.remains (ts : List Condition) (fs : List Fault) :
    Val := (withFaults ts fs).foldl Val.meet .top

namespace Condition

variable {ts : List Condition} {fs : List Fault}

theorem remains_nil (hheight : ∀ t ∈ ts, t.height ≤ maxDepth) :
    remains ts [] = narrow maxDepth ts .top := by
  rw [remains, withFaults, List.map_nil, List.append_nil, narrow,
    ← breadthFirst_of_height_le hheight (Nat.le_succ maxDepth)]
  rfl

theorem isBottom_remains (ts : List Condition) (h : fs ≠ []) : (remains ts fs).isBottom = true := by
  obtain ⟨f, fs, rfl⟩ := List.exists_cons_of_ne_nil h
  rw [remains, withFaults, List.map_cons, List.foldl_append, List.foldl_append, List.foldl_cons]
  apply Val.isBottom_foldl
  apply Val.isBottom_foldl
  exact Val.isBottom_meet_bottom _ f

theorem impartial_remains (ts : List Condition) (fs : List Fault) : (remains ts fs).Impartial := by
  apply Val.Impartial.foldl (show Val.top.Impartial from rfl)
  intro w hw
  rcases List.mem_append.mp hw with hw | hw
  · rcases List.mem_append.mp hw with hw | hw
    · obtain ⟨t, -, hw⟩ := List.mem_flatMap.mp hw
      exact impartial_of_mem_vals hw
    · obtain ⟨f, -, rfl⟩ := List.mem_map.mp hw
      rfl
  · exact impartial_of_mem_breadthFirst hw

/-- A scalar is left just when there is no fault and a literal meets all conditions. -/
theorem remains_eq_atom_iff (hheight : ∀ t ∈ ts, t.height ≤ maxDepth) :
    (∃ s, remains ts fs = .atom s) ↔
      fs = [] ∧ ∃ s ∈ ts.flatMap literals, ∀ t ∈ ts, t.admits s = true := by
  by_cases hfs : fs = []
  · rw [hfs, remains_nil hheight, narrow_eq_atom_iff hheight, and_iff_right rfl]
  · have hbottom := isBottom_remains ts hfs
    constructor
    · rintro ⟨s, hs⟩
      rw [hs] at hbottom
      cases hbottom
    · exact fun h => absurd h.1 hfs

end Condition

namespace Eval

/-- Rounds of conditions, with faults in the first one, narrow the vertex and leave no
disjunction. -/
theorem addRounds_constrained (process : Nat → Eval Unit) (fs : List Fault) {rounds : Nat}
    (h : a.Conditions cs ts) (hs : (a.vertex v).stage = .processing)
    (hheight : ∀ t ∈ ts, t.height ≤ maxDepth) (hr : maxDepth ≤ rounds) :
    ∃ kept, addRounds process v (rounds + 1)
      (cs ++ fs.map fun f => ⟨.fault f, plainScope, false, none⟩) a =
        ((kept, []), a.modify v (·.meetAll (Condition.withFaults ts fs))) := by
  let faults : List Conjunct := fs.map fun f => ⟨.fault f, plainScope, false, none⟩
  let ws := ts.flatMap Condition.vals ++ fs.map Val.bottom
  obtain ⟨hb, hnone, hnext⟩ := run_conditions process h hs
  obtain ⟨he, hnone', hnext'⟩ := run_faults process v fs plainScope
    (cs.mapM (addConjunct process v) a).2
  have hlast : (faults.mapM (addConjunct process v) (cs.mapM (addConjunct process v) a).2).2 =
      a.modify v (·.meetAll ws) := by
    rw [he, hb, modify_modify]
    simp only [ws, Vertex.meetAll_append]
  have hvertex : (a.modify v (·.meetAll ws)).vertex v = (a.vertex v).meetAll ws :=
    vertex_modify _ (lt_size_of_stage (by rw [hs]; exact Stage.noConfusion))
  have hleft : (a.modify v (·.meetAll ws)).Conditions
      ((cs.mapM (addConjunct process v) a).1.flatMap (·.next)) (ts.flatMap Condition.operands) := by
    rw [← hlast, he]
    apply hnext.intact (intact_modify_self _ v _)
    rintro u rfl
    rw [hb, vertex_modify _ (lt_size_of_stage (by rw [hs]; exact Stage.noConfusion))]
    show (a.vertex u).stage ≠ .done
    rw [hs]
    exact Stage.noConfusion
  obtain ⟨kept, hrest⟩ := addRounds_conditions process hleft (by rw [hvertex]; exact hs)
    (Condition.height_operands fun t ht => Nat.le_succ_of_le (hheight t ht)) hr
  rw [modify_modify] at hrest
  simp only [← Vertex.meetAll_append] at hrest
  let ys := (cs.mapM (addConjunct process v) a).1 ++
    (faults.mapM (addConjunct process v) (cs.mapM (addConjunct process v) a).2).1
  have hround :
      (cs ++ faults).mapM (addConjunct process v) a = (ys, a.modify v (·.meetAll ws)) := by
    rw [run_mapM_append]
    exact Prod.ext rfl hlast
  have hsome : ys.flatMap (·.next) = (cs.mapM (addConjunct process v) a).1.flatMap (·.next) := by
    rw [List.flatMap_append, hnext', List.append_nil]
  have halts : ys.flatMap (·.disjunctions) = [] := by
    rw [List.flatMap_append, hnone, hnone', List.append_nil]
  exact ⟨_, addRounds_of_mapM hround hsome rfl halts hrest⟩

/-- A vertex of conditions and faults is narrowed by them. -/
theorem processAt_constrained (left : Nat) (h : a.Constrained v ts fs) :
    processAt (left + 1) v a = ((), a.modify v fun x =>
      { x.meetAll (Condition.withFaults ts fs) with stage := .done }) := by
  obtain ⟨parent, paths, cs, hv, hcs, hfills⟩ := h.fresh
  let ws := Condition.withFaults ts fs
  have hs : (a.vertex v).stage = .pending := by
    rw [hv]
    rfl
  have hstart : (a.begin v).vertex v = { a.vertex v with stage := .processing } := vertex_begin h.lt
  obtain ⟨rounds, hlimit, hr⟩ := exists_rounds_left (a.begin v)
  obtain ⟨kept, hrounds⟩ := addRounds_constrained (processAt left) fs
    (hcs.intact (intact_begin a v) fun u hu => by rw [hu, hs]; exact Stage.noConfusion)
    (congrArg Vertex.stage hstart) h.height hr
  have hend : ((a.begin v).modify v (·.meetAll ws)).vertex v =
      ({ a.vertex v with stage := .processing } : Vertex).meetAll ws := by
    rw [← hstart]
    exact vertex_modify _ (by simpa using h.lt)
  have hfinish : finish (processAt left) v ((a.begin v).modify v (·.meetAll ws)) =
      ((), (a.begin v).modify v (·.meetAll ws)) := by
    apply finish_of_plain
    · rw [hend, hv]
      rfl
    · rw [hend, hv, ((intact_begin a v).trans (intact_modify_self _ v _)).fillSelectors]
      exact fillSelectors_of_hasFillsBelow hfills
    · rw [hend, hv]
      rfl
    · rw [hend, hv]
      rfl
  have hunify :
      unifySeeds (processAt left) v (a.begin v) = ((), (a.begin v).modify v (·.meetAll ws)) := by
    rw [← hlimit, show cs ++ _ = ((a.begin v).vertex v).seeds by rw [hstart, hv]; rfl] at hrounds
    exact (unifySeeds_of_addRounds hrounds).trans hfinish
  rw [processAt_of_unifySeeds hs hunify, conclude_modify_begin]
  rfl

/-- A value that is neither a scalar nor has parts is missing where one is asked for. -/
theorem faultsAt_of_constraint {c : Constraint} {w : Nat} (hsettle : settle process v a = (w, b))
    (hval : (b.vertex w).val = .constraint c) (hpending : (b.vertex w).pending = [])
    (hkinds : (b.vertex w).val.Impartial) :
    faultsAt process (left + 1) true v a =
      ([(Fault.of (.incompleteValue (Val.constraint c).display)).atPath (b.pathText w)], b) := by
  have hstruct : c.kinds ≠ .ofStruct := by
    intro h
    rw [hval, Val.Impartial, Val.kinds, h] at hkinds
    cases hkinds
  have hlist : c.kinds ≠ .ofList := by
    intro h
    rw [hval, Val.Impartial, Val.kinds, h] at hkinds
    cases hkinds
  have hnone : ¬ ((!(b.vertex w).pending.isEmpty) = true) := by simp [hpending]
  rw [faultsAt, run_bind, hsettle]
  dsimp only
  rw [run_bind, run_bind]
  dsimp only [vertex, view]
  rw [hval]
  refine (congrFun (if_neg hnone) b).trans ?_
  exact (congrFun (if_neg hstruct) b).trans (congrFun (if_neg hlist) b)

/-- Validation finds nothing wrong with the field just when it has a scalar. -/
theorem faultsAt_of_constrained (levels left : Nat) (h : a.Constrained v ts fs) :
    let r := faultsAt (processAt (levels + 1)) (left + 1) true v a
    Extends (· = v) a r.2 ∧ (r.1 = [] ↔ ∃ s, Condition.remains ts fs = .atom s) := by
  let f (x : Vertex) : Vertex := { x.meetAll (Condition.withFaults ts fs) with stage := .done }
  obtain ⟨parent, paths, cs, hv, -, -⟩ := h.fresh
  have hb : (a.modify v f).vertex v = f (a.vertex v) := vertex_modify f h.lt
  have hsettle : settle (processAt (levels + 1)) v a = (v, a.modify v f) := by
    apply settle_of_forward (processAt_constrained levels h)
    rw [hb, hv]
    rfl
  have hval : ((a.modify v f).vertex v).val = Condition.remains ts fs := by
    rw [hb, hv]
    rfl
  have hpending : ((a.modify v f).vertex v).pending = [] := by
    rw [hb, hv]
    rfl
  have hab : Extends (· = v) a (a.modify v f) := by
    apply (intact_modify_self a v f).extends_self
    rw [hv]
    exact Stage.noConfusion
  cases hr : Condition.remains ts fs with
  | atom s =>
    rw [faultsAt_of_atom hsettle (hval.trans hr) hpending]
    exact ⟨hab, fun _ => ⟨s, rfl⟩, fun _ => rfl⟩
  | bottom g =>
    rw [faultsAt_of_isBottom hsettle (hval.trans hr)]
    refine ⟨hab, fun hnil => ?_, ?_⟩
    · cases hnil
    · rintro ⟨s, hs⟩
      cases hs
  | constraint c =>
    have hkinds := Condition.impartial_remains ts fs
    rw [← hval] at hkinds
    rw [faultsAt_of_constraint hsettle (hval.trans hr) hpending hkinds]
    refine ⟨hab, fun hnil => ?_, ?_⟩
    · cases hnil
    · rintro ⟨s, hs⟩
      cases hs

/-- Fields are validated one after the other. -/
theorem flatten_faults_eq_nil (levels left : Nat) (ks : List String) {place : String → Nat}
    (hdistinct : (ks.map place).Nodup) {ts : String → List Condition} {fs : String → List Fault}
    (h : ∀ k ∈ ks, a.Constrained (place k) (ts k) (fs k)) :
    ((ks.map place).mapM (faultsAt (processAt (levels + 1)) (left + 1) true) a).1.flatten = [] ↔
      ∀ k ∈ ks, ∃ s, Condition.remains (ts k) (fs k) = .atom s := by
  induction ks generalizing a with
  | nil => exact ⟨fun _ _ => False.elim ∘ List.not_mem_nil, fun _ => rfl⟩
  | cons k ks ih =>
    obtain ⟨hk, hks⟩ := List.nodup_cons.mp hdistinct
    obtain ⟨hab, hfaults⟩ := faultsAt_of_constrained levels left (h k List.mem_cons_self)
    have hrest := ih hks fun l hl => (h l (List.mem_cons_of_mem k hl)).extends hab fun heq =>
      hk (heq ▸ List.mem_map_of_mem hl)
    rw [List.map_cons, run_mapM_cons, List.flatten_cons, List.append_eq_nil_iff, hfaults, hrest,
      List.forall_mem_cons]

end Eval

end SchemaMock
