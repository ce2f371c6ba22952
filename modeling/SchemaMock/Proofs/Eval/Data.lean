import SchemaMock.Proofs.Eval.Processing
import SchemaMock.Proofs.Eval.Spelling

/-! # Host data in an arena

A vertex that host data is written for takes the form of the data when it is processed, and its
parts are vertices that the parts of the data are written for. An export gives the data back.
-/

namespace SchemaMock

open Arena Eval

/-- The value of a vertex with host data. Objects and arrays leave room for bounds. -/
def Json.toVal (bounds : List Bound) : Json → Val
  | .null => .atom .null
  | .bool b => .atom (.bool b)
  | .int i => .atom (.int i)
  | .float x => .atom (.float x)
  | .str s => .atom (.str s)
  | .arr _ => .constraint ⟨.ofList, bounds⟩
  | .obj _ => .constraint ⟨.ofStruct, bounds⟩

/-- The conjunct is the expression of host data, in an open scope. -/
structure Conjunct.Writes (c : Conjunct) (j : Json) : Prop where
  expr : ∃ left x, Expr.encode left j = .ok x ∧ c = .of x c.scope false
  canonical : j.canonical = true

/-- The conjunct is a literal for host data, in an open scope. -/
structure Conjunct.Spells (c : Conjunct) (j : Json) : Prop where
  expr : ∃ x, Expr.Spells x j ∧ c = .of x c.scope false
  canonical : j.canonical = true

theorem Conjunct.Writes.spells {c : Conjunct} {j : Json} (h : c.Writes j) : c.Spells j := by
  obtain ⟨left, x, hx, hc⟩ := h.expr
  exact ⟨⟨x, Expr.spells_of_encode hx, hc⟩, h.canonical⟩

namespace Arena

variable {a b : Arena} {own : Nat → Prop} {n v w : Nat} {j : Json} {js : List Json} {ws : List Nat}

/-- A pending vertex that host data is spelled for, and nothing else. -/
structure Denotes (a : Arena) (v : Nat) (j : Json) : Prop where
  lt : v < a.vertices.size
  fresh : ∃ parent paths c, a.vertex v = .fresh parent paths [c] ∧ c.Spells j ∧
    a.hasFillsBelow paths = false

theorem Denotes.intact (h : a.Denotes v j) (hi : Intact own a b) (hv : ¬ own v) :
    b.Denotes v j := by
  obtain ⟨parent, paths, c, hfresh, hc, hfills⟩ := h.fresh
  exact ⟨Nat.lt_of_lt_of_le h.lt hi.size, parent, paths, c, (hi.vertex h.lt hv).trans hfresh, hc,
    (hi.hasFillsBelow paths).trans hfills⟩

/-- Vertices from `n` on, no two of them the same, that host data is written for. -/
structure Parts (a : Arena) (n : Nat) (ws : List Nat) (js : List Json) : Prop where
  denotes : List.Forall₂ a.Denotes ws js
  nodup : ws.Nodup
  le : ∀ w ∈ ws, n ≤ w

theorem Parts.intact (h : a.Parts n ws js) (hi : Intact own a b) (hws : ∀ w ∈ ws, ¬ own w) :
    b.Parts n ws js := by
  refine ⟨?_, h.nodup, h.le⟩
  have hd := h.denotes
  clear h
  induction hd with
  | nil => exact .nil
  | cons hw _ ih =>
    exact .cons (hw.intact hi (hws _ List.mem_cons_self))
      (ih fun u hu => hws u (List.mem_cons_of_mem _ hu))

theorem Parts.mono {m : Nat} (h : a.Parts n ws js) (hm : m ≤ n) : a.Parts m ws js :=
  ⟨h.denotes, h.nodup, fun w hw => Nat.le_trans hm (h.le w hw)⟩

/-- Fields for the parts of an object, in the same order. -/
structure Fields (a : Arena) (n : Nat) (arcs : List (Label × Arc)) (fields : List (String × Json)) :
    Prop where
  labels : arcs.map (·.1) = fields.map fun f => .regular f.1
  required : ∀ p ∈ arcs, p.2.required = true
  parts : a.Parts n (arcs.map (·.2.vertex)) (fields.map (·.2))

theorem Fields.mono {arcs : List (Label × Arc)} {fields : List (String × Json)} {m : Nat}
    (h : a.Fields n arcs fields) (hm : m ≤ n) : a.Fields m arcs fields :=
  ⟨h.labels, h.required, h.parts.mono hm⟩

/-- What host data leaves at a vertex before its lists are built. -/
def Laid (a : Arena) (n : Nat) (x : Vertex) : Json → Prop
  | .arr items =>
    x.arcs = [] ∧ ∃ xs s, List.Forall₂ Expr.Spells xs items ∧ x.lists = [⟨xs, none, s, false⟩]
  | .obj fields => x.lists = [] ∧ ∃ fs, fs.Perm fields ∧ a.Fields n x.arcs fs
  | _ => x.arcs = [] ∧ x.lists = []

def Composed (a : Arena) (n : Nat) (x : Vertex) : Json → Prop
  | .arr items => a.Parts n x.elems items
  | .obj fields => ∃ fs, fs.Perm fields ∧ a.Fields n x.arcs fs
  | _ => True

/-- A vertex that is done with host data. The value is bottom when something else contradicts. -/
structure Shows (a : Arena) (n v : Nat) (j : Json) (y : Val) : Prop where
  stage : (a.vertex v).stage = .done
  forward : (a.vertex v).forward = none
  pending : (a.vertex v).pending = []
  disjuncts : (a.vertex v).disjuncts = []
  val : (a.vertex v).val = y
  composed : y.isBottom = false → a.Composed n (a.vertex v) j

end Arena

namespace Json

theorem toVal_of_scalar? {bounds : List Bound} {j : Json} {s : Scalar} (h : j.scalar? = some s) :
    j.toVal bounds = .atom s := by
  cases j <;> cases h <;> rfl

theorem isBottom_toVal (bounds : List Bound) (j : Json) : (j.toVal bounds).isBottom = false := by
  cases j <;> rfl

theorem toJson_of_toVal (bounds : List Bound) {j : Json} {s : Scalar} (hc : j.canonical = true)
    (h : j.toVal bounds = .atom s) : s.toJson = .ok j := by
  cases j <;> cases h <;> first | rfl | exact if_pos hc

end Json

namespace Eval

variable {process : Nat → Eval Unit} {a : Arena} {v : Nat} {j : Json} {c : Conjunct}

/-! ## Unification -/

/-- The parts of data are fresh vertices for expressions of the parts. -/
theorem parts_of_fresh {js : List Json} {ys : List Vertex} {f : Vertex → Vertex}
    (hlt : v < a.vertices.size)
    (hys : List.Forall₂ (fun j y => ∃ parent paths c, y = .fresh parent paths [c] ∧ c.Spells j ∧
      a.hasFillsBelow paths = false) js ys) :
    ((a.append ys).modify v f).Parts a.vertices.size (List.range' a.vertices.size ys.length)
      js := by
  refine ⟨?_, List.nodup_range', fun w hw => (List.mem_range'_1.mp hw).1⟩
  obtain ⟨hlength, hget⟩ := List.forall₂_iff_get.mp hys
  refine List.forall₂_iff_get.mpr ⟨by simp [hlength], fun i hi hj => ?_⟩
  simp only [List.length_range'] at hi
  obtain ⟨parent, paths, c, hy, hc, hfills⟩ := hget i hj hi
  have hintact : Intact (· = v) a ((a.append ys).modify v f) :=
    (intact_append _ a ys).trans (intact_modify_self _ v f)
  simp only [List.get_eq_getElem, List.getElem_range', Nat.one_mul] at hy ⊢
  refine ⟨by simp; omega, parent, paths, c, ?_, hc, (hintact.hasFillsBelow paths).trans hfills⟩
  rw [vertex_modify_of_ne _ _ (by omega), vertex_append a hi, hy]

/-- The fields of an object are new fields of the vertex. -/
theorem fields_of_spells {fields : List (String × Json)} {es : List (Label × Expr)}
    {f : Vertex → Vertex} (scope : Nat) (hlt : v < a.vertices.size)
    (hfills : a.hasFillsBelow (a.vertex v).paths = false)
    (hlabels : es.map (·.1) = fields.map fun f => .regular f.1)
    (hes : List.Forall₂ (fun e f => Expr.Spells e.2 f.2) es fields)
    (hcanonical : ∀ f ∈ fields, f.2.canonical = true) :
    ((a.append (es.map (a.fieldVertex v false scope))).modify v f).Fields a.vertices.size
      (arcsFrom a.vertices.size (es.map (·.1))) fields := by
  refine ⟨?_, fun p => required_of_mem_arcsFrom, ?_⟩
  · rw [map_fst_arcsFrom, hlabels]
  · rw [map_vertex_arcsFrom, List.length_map, ← List.length_map (f := a.fieldVertex v false scope)]
    refine parts_of_fresh hlt ?_
    clear hlabels
    induction hes with
    | nil => exact .nil
    | @cons e f es fields he _ ih =>
      obtain ⟨hfirst, hrest⟩ := List.forall_mem_cons.mp hcanonical
      refine .cons ⟨some v, _, .of e.2 scope false, ?_, ⟨⟨e.2, he, rfl⟩, hfirst⟩,
        hasFillsBelow_parts hfills (.label e.1)⟩ (ih hrest)
      simp [fieldVertex, fillsAt_parts hfills]

/-- A struct of new fields. -/
theorem run_addStruct {es : List (Label × Expr)} {s : Nat} (hlt : v < a.vertices.size)
    (harcs : (a.vertex v).arcs = []) (hdistinct : (es.map (·.1)).Nodup) :
    let c : Conjunct := .of (.struct (es.map Decl.required)) s false
    let b := ((a.modify v (·.meet (.ofKinds .ofStruct))).addScope
      (.struct s (es.map Decl.required) v)).2
    addConjunct process v c a =
      (.keep c, (b.append (es.map (b.fieldVertex v false a.scopes.size))).modify v fun x =>
        { x with arcs := x.arcs ++ arcsFrom b.vertices.size (es.map (·.1)) }) := by
  intro c b
  have hb : b.vertex v = (a.vertex v).meet (.ofKinds .ofStruct) := vertex_modify _ hlt
  have hfields := run_addFields (a := b) (v := v) c a.scopes.size es (by simpa [b] using hlt)
    (fun e _ => by rw [hb]; simp [Vertex.arc?, Vertex.meet, harcs]) hdistinct
  have hrun : addConjunct process v c a =
      (let r := (es.map Decl.required).mapM (addDecl v c a.scopes.size none) b
       (⟨r.1.flatten, [c], []⟩, r.2)) := rfl
  have hembedded : (es.map fun _ => ([] : List Conjunct)).flatten = [] := by simp
  rw [hrun, hfields]
  exact congrArg (fun cs => (Yield.mk cs [c] [], _)) hembedded

variable (process) in
/-- Host data takes its form at a vertex without parts. -/
theorem exists_laid {n : Nat} (hn : n ≤ a.vertices.size) (hc : c.Spells j)
    (hlt : v < a.vertices.size) (harcs : (a.vertex v).arcs = []) (hlists : (a.vertex v).lists = [])
    (hfills : a.hasFillsBelow (a.vertex v).paths = false) :
    ∃ b, addConjunct process v c a = (.keep c, b) ∧ Intact (· = v) a b ∧
      b.vertex v = { (a.vertex v).meet (j.toVal []) with
        arcs := (b.vertex v).arcs, lists := (b.vertex v).lists } ∧
      b.Laid n (b.vertex v) j := by
  obtain ⟨x, hx, he⟩ := hc.expr
  have hcanonical := hc.canonical
  cases hx with
  | scalar k hk =>
    have hadd := addConjunct_constant process v (k := k) (c := c) (by rw [he]; rfl) a
    have hv : (a.modify v (·.meet (.atom k.value))).vertex v = (a.vertex v).meet (.atom k.value) :=
      vertex_modify _ hlt
    have harcs' : ((a.vertex v).meet (.atom k.value)).arcs = [] := harcs
    have hlists' : ((a.vertex v).meet (.atom k.value)).lists = [] := hlists
    refine ⟨_, hadd, intact_modify_self a v _, ?_, ?_⟩
    · rw [hv, Json.toVal_of_scalar? hk]
    · rw [hv]
      cases j <;> first | exact ⟨harcs', hlists'⟩ | cases hk
  | @arr xs items hxs =>
    let f (x : Vertex) : Vertex := { x with lists := x.lists ++ [⟨xs, none, c.scope, c.closed⟩] }
    have hrun : addConjunct process v c a =
        (.keep c, a.modify v fun x => f (x.meet (.ofKinds .ofList))) := by
      rw [addConjunct_of_expr (x := .list xs none) (by rw [he]; rfl)]
      exact congrArg (Prod.mk _) (modify_modify a v _ _)
    have hv : (a.modify v fun x => f (x.meet (.ofKinds .ofList))).vertex v =
        f ((a.vertex v).meet (.ofKinds .ofList)) := vertex_modify _ hlt
    have hclosed : c.closed = false := by rw [he]; rfl
    refine ⟨_, hrun, intact_modify_self a v _, ?_, ?_⟩
    · rw [hv]
      rfl
    · rw [hv]
      exact ⟨harcs, xs, c.scope, hxs, by simp [f, Vertex.meet, hlists, hclosed]⟩
  | @obj es fs fields hperm hlabels hes =>
    rw [Json.canonical, Bool.and_eq_true] at hcanonical
    have hdistinct : (es.map (·.1)).Nodup := by
      rw [hlabels]
      exact (hperm.map _).nodup_iff.mpr (Json.nodup_of_ascending hcanonical.1)
    have hfields : ∀ f ∈ fs, f.2.canonical = true := by
      intro f hf
      rw [Json.canonicalFields_eq] at hcanonical
      exact Json.canonical_of_mem hcanonical.2 (List.mem_map_of_mem (hperm.mem_iff.mp hf))
    let b := ((a.modify v (·.meet (.ofKinds .ofStruct))).addScope
      (.struct c.scope (es.map Decl.required) v)).2
    let f (x : Vertex) : Vertex :=
      { x with arcs := x.arcs ++ arcsFrom b.vertices.size (es.map (·.1)) }
    have hb : b.vertex v = (a.vertex v).meet (.ofKinds .ofStruct) := vertex_modify _ hlt
    have hltb : v < b.vertices.size := by simpa [b] using hlt
    have hab : Intact (· = v) a b :=
      (intact_modify_self a v _).trans (intact_addScope _ _ _)
    have hrun : addConjunct process v c a =
        (.keep c, (b.append (es.map (b.fieldVertex v false a.scopes.size))).modify v f) := by
      rw [he]
      exact run_addStruct hlt harcs hdistinct
    have hv : ((b.append (es.map (b.fieldVertex v false a.scopes.size))).modify v f).vertex v =
        f ((a.vertex v).meet (.ofKinds .ofStruct)) := by
      rw [← hb, ← vertex_append_of_lt (es.map (b.fieldVertex v false a.scopes.size)) hltb]
      exact vertex_modify f (by simp; omega)
    have hlaid := fields_of_spells (f := f) a.scopes.size hltb
      (by rw [hb]; exact (hab.hasFillsBelow _).trans hfills) hlabels hes hfields
    have hf :
        f ((a.vertex v).meet (.ofKinds .ofStruct)) = { (a.vertex v).meet (.ofKinds .ofStruct) with
        arcs := arcsFrom b.vertices.size (es.map (·.1)) } := by
      simp [f, Vertex.meet, harcs]
    refine ⟨_, hrun, (hab.trans (intact_append _ b _)).trans (intact_modify_self _ v f), ?_, ?_⟩
    · rw [hv, hf]
      rfl
    · rw [hv, hf]
      exact ⟨hlists, fs, hperm, hlaid.mono (by simpa [b] using hn)⟩

variable (process) in
/-- The last step at a vertex with host data builds the elements of an array. -/
theorem exists_composed {n : Nat} (hn : n ≤ a.vertices.size) (hlt : v < a.vertices.size)
    (hval : (a.vertex v).val.isBottom = false) (hlaid : a.Laid n (a.vertex v) j)
    (hpatterns : (a.vertex v).patterns = [])
    (hgroups : (a.vertex v).groups = []) (hfills : a.hasFillsBelow (a.vertex v).paths = false)
    (hcanonical : j.canonical = true) :
    ∃ b, finish process v a = ((), b) ∧ Intact (· = v) a b ∧
      b.vertex v = { a.vertex v with
        lists := (b.vertex v).lists, openList := (b.vertex v).openList, elems :=
  (b.vertex v).elems } ∧
      b.Composed n (b.vertex v) j := by
  have hselectors := fillSelectors_of_hasFillsBelow hfills
  have hplain (hlists : (a.vertex v).lists = []) (hj : a.Composed n (a.vertex v) j) :
      ∃ b, finish process v a = ((), b) ∧ Intact (· = v) a b ∧
        b.vertex v = { a.vertex v with
          lists := (b.vertex v).lists, openList := (b.vertex v).openList, elems :=
            (b.vertex v).elems } ∧
        b.Composed n (b.vertex v) j := by
    refine ⟨a, ?_, .refl _ a, rfl, hj⟩
    rw [finish_of_lists_eq_nil hval hlists hselectors, applyPatterns_of_eq_nil hpatterns]
    exact checkClosed_of_eq_nil hgroups
  cases j with
  | null => exact hplain hlaid.2 trivial
  | bool b => exact hplain hlaid.2 trivial
  | int i => exact hplain hlaid.2 trivial
  | float x => exact hplain hlaid.2 trivial
  | str s => exact hplain hlaid.2 trivial
  | obj fields => exact hplain hlaid.1 hlaid.2
  | arr items =>
    obtain ⟨-, xs, s, hxs, hlists⟩ := hlaid
    let lists := (a.vertex v).lists
    let ys := (List.range xs.length).map (a.elementVertex v lists)
    let f (x : Vertex) : Vertex :=
      { x with
        lists := []
        openList := lists.all (·.tail.isSome)
        elems := List.range' a.vertices.size xs.length }
    let b := (a.append ys).modify v f
    have hv : b.vertex v = f (a.vertex v) := by
      rw [← vertex_append_of_lt ys hlt]
      exact vertex_modify f (by simp; omega)
    have hlength : agreedLength lists = .ok xs.length := by simp [lists, hlists, agreedLength]
    have hbuild : buildList v a = ((), b) := run_buildList hlt (by simp [hlists]) hlength
    have hintact : Intact (· = v) a b := (intact_append _ a ys).trans (intact_modify_self _ v f)
    refine ⟨b, finish_of_buildList hval hbuild ?_ ?_ ?_, hintact, by rw [hv], ?_⟩
    · rw [hv, hintact.fillSelectors]
      exact hselectors
    · rw [hv]; exact hpatterns
    · rw [hv]; exact hgroups
    · have hys :
          List.Forall₂ (fun j y => ∃ parent paths c, y = .fresh parent paths [c] ∧ c.Spells j ∧
          a.hasFillsBelow paths = false) items ys := by
        obtain ⟨hlen, hget⟩ := List.forall₂_iff_get.mp hxs
        refine List.forall₂_iff_get.mpr ⟨by simp [ys, hlen], fun i hi hi' => ?_⟩
        have hix : i < xs.length := by simpa [ys] using hi'
        refine ⟨some v, _, .of xs[i] s false, ?_, ⟨⟨xs[i], hget i hix hi, rfl⟩, ?_⟩,
          hasFillsBelow_parts hfills (.index i)⟩
        · simp [ys, elementVertex, lists, hlists, fillsAt_parts hfills, ListPart.conjunct?, hix]
        · exact Json.canonical_of_mem hcanonical (List.getElem_mem hi)
      have hparts := parts_of_fresh (f := f) hlt hys
      rw [show ys.length = xs.length by simp [ys]] at hparts
      rw [hv]
      exact hparts.mono hn

end Eval

end SchemaMock
