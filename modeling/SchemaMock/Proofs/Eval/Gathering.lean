import Mathlib.Data.List.Nodup
import SchemaMock.Proofs.Eval.Parts

/-! # Gathering declarations

The structs of a vertex declare fields for it, one after the other. Each label gets one part, which
takes the next number, and the expressions that are declared for it become the seeds of that part.
-/

namespace SchemaMock

open Arena Eval

/-- The conjuncts that are declared for each label, in the order in which the labels appear. -/
abbrev Table := List (Label × List Conjunct)

namespace Table

def labels (t : Table) : List Label := t.map (·.1)

def declare (t : Table) (l : Label) (c : Conjunct) : Table :=
  if l ∈ t.labels then t.map fun e => (e.1, if e.1 = l then e.2 ++ [c] else e.2)
  else t ++ [(l, [c])]

def declareAll (t : Table) (scope : Nat) (closed : Bool) (ds : List (Label × Expr)) : Table :=
  ds.foldl (fun t d => t.declare d.1 (.of d.2 scope closed)) t

variable {t : Table} {l : Label} {c : Conjunct}

theorem labels_declare (t : Table) (l : Label) (c : Conjunct) :
    (t.declare l c).labels = if l ∈ t.labels then t.labels else t.labels ++ [l] := by
  unfold declare
  split
  · simp only [labels, List.map_map]
    rfl
  · simp [labels]

theorem nodup_declare (h : t.labels.Nodup) (l : Label) (c : Conjunct) :
    (t.declare l c).labels.Nodup := by
  rw [labels_declare]
  split
  · exact h
  case isFalse hl =>
    rw [List.nodup_append]
    refine ⟨h, by simp, fun x hx y hy hxy => hl ?_⟩
    rw [← List.mem_singleton.mp hy, ← hxy]
    exact hx

theorem nodup_declareAll (h : t.labels.Nodup) (scope : Nat) (closed : Bool)
    (ds : List (Label × Expr)) : (t.declareAll scope closed ds).labels.Nodup := by
  induction ds generalizing t with
  | nil => exact h
  | cons d ds ih => exact ih (nodup_declare h d.1 _)

/-- What fields of distinct labels add to a table: conjuncts for the labels that it has, and entries
for the others. -/
theorem declareAll_eq (t : Table) (scope : Nat) (closed : Bool) {ds : List (Label × Expr)}
    (hds : (ds.map (·.1)).Nodup) :
    t.declareAll scope closed ds =
      (t.map fun e => (e.1, e.2 ++ (ds.filter (·.1 = e.1)).map fun d => .of d.2 scope closed)) ++
        (ds.filter (·.1 ∉ t.labels)).map fun d => (d.1, [.of d.2 scope closed]) := by
  induction ds generalizing t with
  | nil => simp [declareAll]
  | cons d ds ih =>
    rw [List.map_cons, List.nodup_cons] at hds
    have hother (e : Label × Expr) (he : e ∈ ds) : e.1 ≠ d.1 := fun h =>
      hds.1 (h ▸ List.mem_map_of_mem he)
    have hstep : t.declareAll scope closed (d :: ds) =
        (t.declare d.1 (.of d.2 scope closed)).declareAll scope closed ds := rfl
    rw [hstep, ih _ hds.2, labels_declare]
    by_cases hmem : d.1 ∈ t.labels
    · rw [declare, if_pos hmem, if_pos hmem, List.map_map,
        List.filter_cons_of_neg (by simpa using hmem)]
      refine congrArg (· ++ _) (List.map_congr_left fun e _ => ?_)
      by_cases he : d.1 = e.1
      · simp [he]
      · simp [he, Ne.symm he]
    · rw [declare, if_neg hmem, if_neg hmem, List.filter_cons_of_pos (by simpa using hmem),
        List.map_append, List.append_assoc]
      have hnew (e : Label × List Conjunct) (he : e ∈ t) : d.1 ≠ e.1 := fun h =>
        hmem (h ▸ List.mem_map_of_mem he)
      have hnone : ds.filter (·.1 = d.1) = [] := by
        rw [List.filter_eq_nil_iff]
        simpa using hother
      have hrest : ds.filter (·.1 ∉ t.labels ++ [d.1]) = ds.filter (·.1 ∉ t.labels) := by
        refine List.filter_congr fun e he => ?_
        simp [hother e he]
      rw [hrest]
      refine congr (congrArg _ (List.map_congr_left fun e he => ?_)) ?_
      · simp [hnew e he]
      · simp [hnone]

def conjuncts (t : Table) (l : Label) : List Conjunct := (t.lookup l).getD []

theorem conjuncts_cons (e : Label × List Conjunct) (t : Table) (k : Label) :
    conjuncts (e :: t) k = if k = e.1 then e.2 else t.conjuncts k := by
  obtain ⟨l, cs⟩ := e
  rw [conjuncts, List.lookup_cons]
  by_cases hk : k = l
  · simp [hk]
  · rw [beq_eq_false_iff_ne.mpr hk, if_neg hk, conjuncts]

theorem conjuncts_declare (t : Table) (l k : Label) (c : Conjunct) :
    (t.declare l c).conjuncts k = if k = l then t.conjuncts k ++ [c] else t.conjuncts k := by
  unfold declare
  split
  case isTrue hl =>
    have hall (t : Table) :
        conjuncts (t.map fun e => (e.1, if e.1 = l then e.2 ++ [c] else e.2)) k =
        if k = l ∧ k ∈ t.labels then t.conjuncts k ++ [c] else t.conjuncts k := by
      induction t with
      | nil => simp [labels]
      | cons e t ih =>
        rw [List.map_cons, conjuncts_cons, ih, conjuncts_cons, show labels (e :: t) = e.1 ::
          labels t from rfl]
        by_cases hk : k = e.1 <;> simp [hk]
    rw [hall]
    exact if_congr (and_iff_left_of_imp fun hk => hk ▸ hl) rfl rfl
  case isFalse hl =>
    induction t with
    | nil => exact conjuncts_cons (l, [c]) [] k
    | cons e t ih =>
      rw [labels, List.map_cons, List.mem_cons, not_or] at hl
      rw [List.cons_append, conjuncts_cons, ih hl.2, conjuncts_cons]
      by_cases hk : k = e.1
      · simp [hk, Ne.symm hl.1]
      · simp [hk]

theorem conjuncts_declareAll (t : Table) (scope : Nat) (closed : Bool)
    (ds : List (Label × Expr)) (l : Label) : (t.declareAll scope closed ds).conjuncts l =
      t.conjuncts l ++ (ds.filter (·.1 = l)).map fun d => .of d.2 scope closed := by
  induction ds generalizing t with
  | nil => simp [declareAll]
  | cons d ds ih =>
    rw [show t.declareAll scope closed (d :: ds) = (t.declare d.1 (.of d.2 scope closed)).declareAll
      scope closed ds
      from rfl, ih, conjuncts_declare]
    by_cases hl : d.1 = l
    · subst hl
      simp
    · simp [hl, Ne.symm hl]

theorem mem_labels_declareAll {scope : Nat} {closed : Bool} {ds : List (Label × Expr)} :
    l ∈ (t.declareAll scope closed ds).labels ↔ l ∈ t.labels ∨ l ∈ ds.map (·.1) := by
  induction ds generalizing t with
  | nil => simp [declareAll]
  | cons d ds ih =>
    rw [show t.declareAll scope closed (d :: ds) = (t.declare d.1 (.of d.2 scope closed)).declareAll
      scope closed ds
      from rfl, ih, labels_declare]
    split
    · next hmem =>
      rw [List.map_cons, List.mem_cons]
      refine ⟨Or.imp_right .inr, ?_⟩
      rintro (h | rfl | h)
      exacts [.inl h, .inl hmem, .inr h]
    · simp [or_assoc]

theorem conjuncts_getElem (h : t.labels.Nodup) {i : Nat} (hi : i < t.length) :
    t.conjuncts t[i].1 = t[i].2 := by
  induction t generalizing i with
  | nil => cases hi
  | cons e t ih =>
    rw [labels, List.map_cons, List.nodup_cons] at h
    rw [conjuncts_cons]
    cases i with
    | zero => exact if_pos rfl
    | succ i =>
      have hit : i < t.length := by simpa using hi
      have hne : t[i].1 ≠ e.1 := fun he => h.1 (he ▸ List.mem_map_of_mem (List.getElem_mem hit))
      exact (if_neg hne).trans (ih h.2 hit)

end Table

namespace Vertex

/-- The vertex is a struct with these fields, and a closed one admits no others. -/
def asStruct (closed : Bool) (labels : List Label) (x : Vertex) : Vertex :=
  { x with
    val := x.val.meet (.ofKinds .ofStruct)
    groups := if closed then x.groups ++ [⟨labels, [], false⟩] else x.groups }

def permit (group : Option Nat) (l : Label) (x : Vertex) : Vertex :=
  match group with
  | none => x
  | some g => { x with groups := x.groups.modify g fun y => { y with labels := y.labels ++ [l] } }

def permitAll (group : Option Nat) (ls : List Label) (x : Vertex) : Vertex :=
  ls.foldl (fun x l => x.permit group l) x

theorem permitAll_none (ls : List Label) (x : Vertex) : x.permitAll none ls = x := by
  induction ls generalizing x with
  | nil => rfl
  | cons l ls ih => exact ih x

theorem permitAll_last (gs : List Group) (ls : List Label) (before : List Label) (x : Vertex) :
    ({ x with groups := gs ++ [⟨before, [], false⟩] } : Vertex).permitAll (some gs.length) ls =
      { x with groups := gs ++ [⟨before ++ ls, [], false⟩] } := by
  induction ls generalizing before with
  | nil => simp [permitAll]
  | cons l ls ih =>
    have hstep :
        ({ x with groups := gs ++ [⟨before, [], false⟩] } : Vertex).permit (some gs.length) l =
        { x with groups := gs ++ [⟨before ++ [l], [], false⟩] } := by
      simp only [permit]
      congr 1
      refine List.ext_getElem (by simp) fun i hi hi' => ?_
      simp only [List.length_append, List.length_singleton] at hi'
      simp only [List.getElem_modify, List.getElem_append]
      split <;> split <;> first | rfl | omega | simp
    rw [permitAll, List.foldl_cons, hstep]
    exact (ih (before ++ [l])).trans (by simp)

end Vertex

namespace Arena

variable {a b : Arena} {u v : Nat} {t : Table}

def partVertex (a : Arena) (v : Nat) (e : Label × List Conjunct) : Vertex :=
  let paths := (a.vertex v).paths.map (·.child (.label e.1))
  .fresh (some v) paths (a.fillsAt paths ++ e.2)

/-- A vertex without parts gets those of a table. -/
def gather (a : Arena) (v : Nat) (t : Table) : Arena :=
  (a.append (t.map (a.partVertex v))).modify v fun x =>
    { x with arcs := arcsFrom a.vertices.size t.labels }

@[simp] theorem size_gather (a : Arena) (v : Nat) (t : Table) :
    (a.gather v t).vertices.size = a.vertices.size + t.length := by
  simp [gather]

theorem vertex_gather_self (t : Table) (h : v < a.vertices.size) :
    (a.gather v t).vertex v = { a.vertex v with arcs := arcsFrom a.vertices.size t.labels } := by
  rw [gather, vertex_modify _ (by simp; omega), vertex_append_of_lt _ h]

theorem vertex_gather_part (hv : v < a.vertices.size) {i : Nat} (hi : i < t.length) :
    (a.gather v t).vertex (a.vertices.size + i) = a.partVertex v t[i] := by
  rw [gather, vertex_modify_of_ne _ _ (by omega), vertex_append a (by simpa using hi)]
  simp

theorem intact_gather (a : Arena) (v : Nat) (t : Table) : Intact (· = v) a (a.gather v t) :=
  (intact_append _ a _).trans (intact_modify_self _ v _)

theorem gather_nil (h : (a.vertex v).arcs = []) : a.gather v [] = a := by
  rw [gather, List.map_nil, append_nil]
  have hsame : arcsFrom a.vertices.size (Table.labels []) = (a.vertex v).arcs := h.symm
  exact modify_eq_self (by rw [hsame])

theorem partVertex_congr (hpaths : (b.vertex v).paths = (a.vertex v).paths)
    (hfills : ∀ paths, b.fillsAt paths = a.fillsAt paths) : b.partVertex v = a.partVertex v := by
  funext e
  simp only [partVertex, hpaths, hfills]

/-- What happens to the vertex itself may happen before. -/
theorem modify_gather {f : Vertex → Vertex} (t : Table) (h : v < a.vertices.size)
    (hf : ∀ x arcs, f { x with arcs := arcs } = { f x with arcs := arcs })
    (hpaths : (f (a.vertex v)).paths = (a.vertex v).paths) :
    (a.gather v t).modify v f = (a.modify v f).gather v t := by
  have hsame : (a.modify v f).partVertex v = a.partVertex v :=
    partVertex_congr (by rw [vertex_modify f h, hpaths]) (intact_modify_self a v f).fillsAt
  rw [gather, gather, hsame, ← modify_append _ _ h, modify_modify, modify_modify, size_modify]
  exact congrArg ((a.append _).modify v) (funext fun x => hf x _)

/-! ## Labels and numbers -/

theorem lookup_arcsFrom_of_notMem {ls : List Label} {l : Label} (h : l ∉ ls) (n : Nat) :
    (arcsFrom n ls).lookup l = none := by
  induction ls generalizing n with
  | nil => rfl
  | cons k ls ih =>
    rw [List.mem_cons, not_or] at h
    rw [arcsFrom, List.lookup_cons, beq_eq_false_iff_ne.mpr h.1]
    exact ih h.2 (n + 1)

theorem lookup_arcsFrom {ls : List Label} (h : ls.Nodup) {i : Nat} (hi : i < ls.length) (n : Nat) :
    (arcsFrom n ls).lookup ls[i] = some ⟨n + i, true⟩ := by
  induction ls generalizing n i with
  | nil => cases hi
  | cons k ls ih =>
    rw [List.nodup_cons] at h
    cases i with
    | zero => simp [arcsFrom]
    | succ i =>
      have hi' : i < ls.length := by simpa using hi
      have hne : ls[i] ≠ k := fun he => h.1 (he ▸ List.getElem_mem hi')
      rw [arcsFrom, List.getElem_cons_succ, List.lookup_cons, beq_eq_false_iff_ne.mpr hne]
      simp only
      rw [ih h.2 (by simpa using hi) (n + 1)]
      congr 2
      omega

theorem arcsFrom_concat (n : Nat) (ls : List Label) (l : Label) :
    arcsFrom n (ls ++ [l]) = arcsFrom n ls ++ [(l, ⟨n + ls.length, true⟩)] := by
  induction ls generalizing n with
  | nil => rfl
  | cons k ls ih =>
    rw [List.cons_append, arcsFrom, ih, arcsFrom, List.length_cons, List.cons_append]
    simp only [Nat.add_assoc, Nat.add_comm 1]

theorem arc?_gather (h : v < a.vertices.size) (hnodup : t.labels.Nodup) {i : Nat}
    (hi : i < t.length) :
    ((a.gather v t).vertex v).arc? t[i].1 = some ⟨a.vertices.size + i, true⟩ := by
  rw [vertex_gather_self t h]
  have := lookup_arcsFrom hnodup (i := i) (by simpa [Table.labels] using hi) a.vertices.size
  simpa [Table.labels, Vertex.arc?] using this

/-- The seed of a part that is there already. -/
theorem addSeed_gather (hv : v < a.vertices.size) (hnodup : t.labels.Nodup) {i : Nat}
    (hi : i < t.length) (c : Conjunct) :
    (a.gather v t).modify (a.vertices.size + i) (fun x => { x with seeds := x.seeds ++ [c] }) =
      a.gather v (t.declare t[i].1 c) := by
  have hmem : t[i].1 ∈ t.labels := List.mem_map_of_mem (List.getElem_mem hi)
  have hlabels : (t.declare t[i].1 c).labels = t.labels := by rw [Table.labels_declare, if_pos hmem]
  have hparts : (t.map (a.partVertex v)).modify i (fun x => { x with seeds := x.seeds ++ [c] }) =
      (t.declare t[i].1 c).map (a.partVertex v) := by
    rw [Table.declare, if_pos hmem]
    refine List.ext_getElem (by simp) fun j hj hj' => ?_
    have hjt : j < t.length := by simpa using hj'
    have hinj : t[j].1 = t[i].1 ↔ i = j := by
      have hil : i < t.labels.length := by simpa [Table.labels] using hi
      have hjl : j < t.labels.length := by simpa [Table.labels] using hjt
      have hlabels : t.labels[j] = t.labels[i] ↔ j = i := hnodup.getElem_inj_iff
      simpa [Table.labels, eq_comm] using hlabels
    rw [List.getElem_modify]
    simp only [List.getElem_map, hinj]
    split
    · simp [partVertex, Vertex.fresh]
    · rfl
  rw [gather, gather, ← hparts, hlabels, modify_comm _ _ (by omega), modify_append_right]

end Arena

namespace Eval

variable {process : Nat → Eval Unit} {a : Arena} {v : Nat} {t : Table} {c : Conjunct}

/-- A field that is there and required stays as it is. -/
theorem arc_of_required {l : Label} {arc : Arc} (harc : (a.vertex v).arc? l = some arc)
    (hrequired : ∀ p ∈ (a.vertex v).arcs, p.2.required = true) :
    Eval.arc v l true a = (arc.vertex, a) := by
  have hsame : (a.vertex v).arcs.map (fun e =>
      (e.1, if e.1 = l then { e.2 with required := e.2.required || true } else e.2)) =
      (a.vertex v).arcs := by
    refine (List.map_congr_left fun e he => ?_).trans (List.map_id _)
    have hr := hrequired e he
    rw [hr]
    split <;> simp [← hr]
  rw [Eval.arc, run_bind]
  dsimp only [vertex]
  rw [harc]
  exact congrArg (Prod.mk _) (modify_eq_self (by rw [hsame]))

/-- A field joins the table. -/
theorem run_addField_gather (c : Conjunct) (scope : Nat) (d : Label × Expr)
    (hlt : v < a.vertices.size) (hnodup : t.labels.Nodup) :
    addDecl v c scope none (.required d) (a.gather v t) =
      ([], a.gather v (t.declare d.1 (.of d.2 scope c.closed))) := by
  have hself := vertex_gather_self t hlt
  by_cases hmem : d.1 ∈ t.labels
  · obtain ⟨i, hi, he⟩ := List.mem_iff_getElem.mp hmem
    replace hi : i < t.length := by simpa [Table.labels] using hi
    replace he : t[i].1 = d.1 := by simpa [Table.labels] using he
    have harc := arc?_gather hlt hnodup hi
    rw [he] at harc
    have hrun : Eval.arc v d.1 true (a.gather v t) = (a.vertices.size + i, a.gather v t) :=
      arc_of_required harc fun p hp => required_of_mem_arcsFrom (by rw [hself] at hp; exact hp)
    show addDecl v c scope none (.field d.1 false d.2) (a.gather v t) = _
    rw [addDecl, run_bind, Bool.not_false, hrun, ← he]
    exact congrArg (Prod.mk []) (addSeed_gather hlt hnodup hi _)
  · have hnone : ((a.gather v t).vertex v).arc? d.1 = none := by
      rw [hself]
      exact lookup_arcsFrom_of_notMem hmem _
    have hfield : (a.gather v t).fieldVertex v c.closed scope d =
        a.partVertex v (d.1, [.of d.2 scope c.closed]) := by
      simp only [fieldVertex, partVertex, hself, (intact_gather a v t).fillsAt]
    rw [run_addField c scope (by simp; omega) hnone, hfield, Table.declare,
      if_neg hmem, size_gather]
    refine congrArg (Prod.mk []) ?_
    rw [gather, gather, ← modify_append _ _ (by simp; omega), append_append, modify_modify]
    have hlast : arcsFrom a.vertices.size (Table.labels (t ++ [(d.1, [.of d.2 scope c.closed])])) =
        arcsFrom a.vertices.size t.labels ++ [(d.1, ⟨a.vertices.size + t.length, true⟩)] := by
      simp [Table.labels, arcsFrom_concat]
    rw [hlast, List.map_append, List.map_singleton]

/-- The labels of fields that a struct declares join its closed group. -/
theorem run_addDecl_gather (c : Conjunct) (scope : Nat) (group : Option Nat) (d : Label × Expr)
    (hlt : v < a.vertices.size) (hnodup : t.labels.Nodup) :
    addDecl v c scope group (.required d) (a.gather v t) =
      ([], (a.modify v (·.permit group d.1)).gather v (t.declare d.1 (.of d.2 scope c.closed))) := by
  have hadd := run_addField_gather c scope d hlt hnodup
  cases group with
  | none =>
    rw [hadd]
    have hsame : a.modify v (·.permit none d.1) = a := modify_eq_self rfl
    rw [hsame]
  | some g =>
    have hrun : addDecl v c scope (some g) (.required d) (a.gather v t) =
        ([], ((addDecl v c scope none (.required d) (a.gather v t)).2).modify v (·.permit (some g) d.1)) :=
      rfl
    rw [hrun, hadd]
    exact congrArg (Prod.mk []) (modify_gather _ hlt (fun _ _ => rfl) rfl)

theorem run_addDecls_gather (c : Conjunct) (scope : Nat) (group : Option Nat)
    (ds : List (Label × Expr)) (hlt : v < a.vertices.size) (hnodup : t.labels.Nodup) :
    (ds.map Decl.required).mapM (addDecl v c scope group) (a.gather v t) =
      (ds.map fun _ => [], (a.modify v (·.permitAll group (ds.map (·.1)))).gather v
        (t.declareAll scope c.closed ds)) := by
  induction ds generalizing a t with
  | nil =>
    have hsame : a.modify v (·.permitAll group []) = a := modify_eq_self rfl
    exact (congrArg (fun b => ([], b.gather v t)) hsame).symm
  | cons d ds ih =>
    rw [List.map_cons, run_mapM_cons, run_addDecl_gather c scope group d hlt hnodup]
    dsimp only
    rw [ih (by simpa using hlt) (Table.nodup_declare hnodup _ _), modify_modify]
    rfl

theorem openGroup_of_not_closed (h : c.closed = false) : openGroup v c a = (none, a) := by
  simp only [openGroup, h]
  rfl

theorem openGroup_of_closed (h : c.closed = true) (hgroup : c.group = none) :
    openGroup v c a = (some (a.vertex v).groups.length,
      a.modify v fun x => { x with groups := x.groups ++ [⟨[], [], false⟩] }) := by
  simp only [openGroup, h, hgroup]
  rfl

/-- A struct of required fields makes the vertex a struct with these fields. -/
theorem addConjunct_struct (process : Nat → Eval Unit) {ds : List (Label × Expr)}
    (hc : c.source = .expr (.struct (ds.map Decl.required))) (hgroup : c.group = none)
    (hlt : v < a.vertices.size) (hnodup : t.labels.Nodup) :
    addConjunct process v c (a.gather v t) = (.keep c,
      ((a.addScope (.struct c.scope (ds.map Decl.required) v)).2.modify v
        (·.asStruct c.closed (ds.map (·.1)))).gather v
          (t.declareAll a.scopes.size c.closed ds)) := by
  let decls := ds.map Decl.required
  let e := (a.addScope (.struct c.scope decls v)).2
  let b := e.modify v (·.meet (.ofKinds .ofStruct))
  have hltb : v < b.vertices.size := by simpa [b, e] using hlt
  have hbegin : (a.gather v t).modify v (·.meet (.ofKinds .ofStruct)) =
      (a.modify v (·.meet (.ofKinds .ofStruct))).gather v t :=
    modify_gather t hlt (fun _ _ => rfl) rfl
  have hrun : addConjunct process v c (a.gather v t) =
      (let g := openGroup v c (b.gather v t)
       let r := decls.mapM (addDecl v c a.scopes.size g.1) g.2
       (Yield.mk r.1.flatten [c] [], r.2)) := by
    rw [addConjunct_of_expr hc, show b.gather v t = (((a.gather v t).modify v
      (·.meet (.ofKinds .ofStruct))).addScope (.struct c.scope decls v)).2 by rw [hbegin]; rfl]
    rfl
  have hembedded : (ds.map fun _ => ([] : List Conjunct)).flatten = [] := by simp
  rw [hrun]
  cases hclosed : c.closed with
  | false =>
    rw [openGroup_of_not_closed hclosed]
    dsimp only
    rw [run_addDecls_gather c _ none ds hltb hnodup, hembedded, modify_modify, hclosed]
    simp only [Vertex.permitAll_none]
    rfl
  | true =>
    rw [openGroup_of_closed hclosed hgroup]
    have hself := vertex_gather_self t hltb
    have hopen :
        (b.gather v t).modify v (fun x => { x with groups := x.groups ++ [⟨[], [], false⟩] }) =
        (b.modify v fun x => { x with groups := x.groups ++ [⟨[], [], false⟩] }).gather v t :=
      modify_gather t hltb (fun _ _ => rfl) rfl
    dsimp only
    rw [hself, hopen, run_addDecls_gather c _ _ ds (by simpa using hltb) hnodup, hembedded, hclosed,
      modify_modify, modify_modify]
    have hb : b.vertex v = (e.vertex v).meet (.ofKinds .ofStruct) :=
      vertex_modify _ (by simpa [e] using hlt)
    refine congrArg (fun b : Arena => (Yield.keep c, b.gather v (t.declareAll a.scopes.size true ds)))
      (modify_congr (a := e) (v := v) ?_)
    rw [hb]
    exact Vertex.permitAll_last _ (ds.map (·.1)) [] ((e.vertex v).meet (.ofKinds .ofStruct))

/-! ## The last step -/

/-- Fills below fields that are there change nothing. -/
theorem requireFilledParts_of_fields (hval : (a.vertex v).val = .ofKinds .ofStruct)
    (hrequired : ∀ p ∈ (a.vertex v).arcs, p.2.required = true)
    (hfills : ∀ s ∈ a.fillSelectors (a.vertex v).paths,
      ∃ l arc, s = .label l ∧ (a.vertex v).arc? l = some arc) :
    requireFilledParts v a = ((), a) := by
  have hpart {s : Selector} (hs : ∃ l arc, s = .label l ∧ (a.vertex v).arc? l = some arc) :
      requirePart v s a = ((), a) := by
    obtain ⟨l, arc, rfl, harc⟩ := hs
    have hmeet : a.modify v (·.meet (.ofKinds .ofStruct)) = a := by
      refine modify_eq_self ?_
      rw [Vertex.meet, hval, show (Val.ofKinds .ofStruct).meet (.ofKinds .ofStruct) =
        .ofKinds .ofStruct
        from rfl, ← hval]
    show ((), (Eval.arc v l true (a.modify v (·.meet (.ofKinds .ofStruct)))).2) = _
    rw [hmeet, arc_of_required harc hrequired]
  exact run_forM_of_same _ fun s hs => hpart (hfills s hs)

/-- Closed structs that admit all fields change nothing. -/
theorem checkClosed_of_admitted (process : Nat → Eval Unit)
    (h : ∀ e ∈ (a.vertex v).regularArcs, ∀ g ∈ (a.vertex v).groups,
      g.labels.contains (.regular e.1) = true) : checkClosed process v a = ((), a) := by
  have hgroup {name : String} {g : Group} (hg : g.labels.contains (.regular name) = true) :
      groupAdmits process name g = pure true := by
    rw [groupAdmits, if_pos (by rw [hg, Bool.or_true])]
  have hgroups {name : String} (gs : List Group)
      (hgs : ∀ g ∈ gs, g.labels.contains (.regular name) = true) :
      gs.allM (groupAdmits process name) a = (true, a) := by
    induction gs with
    | nil => rfl
    | cons g gs ih =>
      rw [List.allM, hgroup (hgs g List.mem_cons_self)]
      exact ih fun k hk => hgs k (List.mem_cons_of_mem g hk)
  cases hg : (a.vertex v).groups.isEmpty with
  | true => exact checkClosed_of_eq_nil (List.isEmpty_iff.mp hg)
  | false =>
    show (if !(a.vertex v).groups.isEmpty then _ else _ : Eval Unit) a = _
    rw [hg]
    refine run_forM_of_same _ fun e he => ?_
    obtain ⟨name, w⟩ := e
    dsimp only
    rw [run_bind, hgroups _ (h (name, w) he)]
    rfl

/-- The last step of a struct without patterns, whose fields are all there and admitted. -/
theorem finish_of_struct (process : Nat → Eval Unit) (hval : (a.vertex v).val = .ofKinds .ofStruct)
    (hlists : (a.vertex v).lists = []) (hpatterns : (a.vertex v).patterns = [])
    (hrequired : ∀ p ∈ (a.vertex v).arcs, p.2.required = true)
    (hfills : ∀ s ∈ a.fillSelectors (a.vertex v).paths,
      ∃ l arc, s = .label l ∧ (a.vertex v).arc? l = some arc)
    (hclosed : ∀ e ∈ (a.vertex v).regularArcs, ∀ g ∈ (a.vertex v).groups,
      g.labels.contains (.regular e.1) = true) : finish process v a = ((), a) := by
  have hbuild : buildList v a = ((), a) := by
    show (if !(a.vertex v).lists.isEmpty then _ else _ : Eval Unit) a = _
    rw [hlists]
    rfl
  show (if !(a.vertex v).val.isBottom then _ else _ : Eval Unit) a = _
  rw [hval, if_pos (by decide), run_bind, hbuild, run_bind,
    requireFilledParts_of_fields hval hrequired hfills, run_bind, applyPatterns_of_eq_nil hpatterns]
  exact checkClosed_of_admitted process hclosed

end Eval

end SchemaMock
