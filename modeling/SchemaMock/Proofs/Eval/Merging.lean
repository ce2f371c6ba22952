import SchemaMock.Proofs.Condition
import SchemaMock.Proofs.Eval.Assembly
import SchemaMock.Proofs.Eval.Walk
import SchemaMock.Proofs.Json.Merge

/-! # Two pieces of host data at one vertex

A vertex that two pieces of host data are written for takes the form of their merge when it is
processed, and what is written for its parts are the pieces for the parts. Where the pieces do not
merge, it becomes bottom, or a part of it does.
-/

namespace SchemaMock

open Arena Eval

/-! ## Conjuncts that write pieces -/

namespace Conjunct

variable {c : Conjunct} {fs : List (String × Json)} {items : List Json}

/-- A declaration writes a field of an object, in whatever scope it stands. -/
def Declares (f : String × Json) (e : Label × Expr) : Prop :=
  e.1 = .regular f.1 ∧ ∀ s, (Conjunct.of e.2 s false).Writes f.2

theorem Writes.isFields (h : c.Writes (.obj fs)) :
    ∃ es, c.IsFields ⟨es, c.scope, false⟩ ∧ List.Forall₂ Declares fs es := by
  obtain ⟨left, x, hx, hc⟩ := h.expr
  have hcanonical := h.canonical
  rw [Json.canonical, Bool.and_eq_true, Json.canonicalFields_eq] at hcanonical
  cases left with
  | zero => rw [Expr.encode] at hx; cases hx
  | succ left =>
    cases hds : Expr.encodeFields left fs with
    | error d => rw [Expr.encode, hds] at hx; cases hx
    | ok ds =>
      rw [Expr.encode, hds] at hx
      cases hx
      obtain ⟨es, rfl, hes⟩ := Expr.exists_of_encodeFields hds
      refine ⟨es, ⟨?_, ?_, rfl, ?_⟩, ?_⟩
      · rw [hc]; rfl
      · rw [hc]; rfl
      · rw [hc]; rfl
      · refine List.forall₂_iff_get.mpr ⟨hes.length_eq, fun i hi hi' => ?_⟩
        obtain ⟨hl, he⟩ := (List.forall₂_iff_get.mp hes).2 i hi hi'
        exact ⟨hl, fun s => ⟨⟨left, _, he, rfl⟩,
          Json.canonical_of_mem hcanonical.2 (List.mem_map_of_mem (List.getElem_mem hi))⟩⟩

theorem Writes.isList (h : c.Writes (.arr items)) :
    ∃ xs, c.IsList ⟨xs, none, c.scope, false⟩ ∧
      List.Forall₂ (fun j x => ∀ s, (Conjunct.of x s false).Writes j) items xs := by
  obtain ⟨left, x, hx, hc⟩ := h.expr
  cases left with
  | zero => rw [Expr.encode] at hx; cases hx
  | succ left =>
    cases hxs : Expr.encodeItems left items with
    | error d => rw [Expr.encode, hxs] at hx; cases hx
    | ok xs =>
      rw [Expr.encode, hxs] at hx
      cases hx
      have hes := Expr.forall_of_encodeItems hxs
      refine ⟨xs, ⟨?_, rfl, ?_⟩, ?_⟩
      · rw [hc]; rfl
      · rw [hc]; rfl
      · refine List.forall₂_iff_get.mpr ⟨hes.length_eq, fun i hi hi' s => ?_⟩
        exact ⟨⟨left, _, (List.forall₂_iff_get.mp hes).2 i hi hi', rfl⟩,
          Json.canonical_of_mem h.canonical (List.getElem_mem hi)⟩

theorem nodup_of_declares {es : List (Label × Expr)} (h : List.Forall₂ Declares fs es)
    (hc : (Json.obj fs).canonical = true) : (es.map (·.1)).Nodup := by
  rw [Json.canonical, Bool.and_eq_true] at hc
  have hlabels : es.map (·.1) = fs.map fun f => .regular f.1 := by
    clear hc
    induction h with
    | nil => rfl
    | cons he _ ih => rw [List.map_cons, List.map_cons, he.1, ih]
  exact hlabels ▸ Json.nodup_of_ascending hc.1

end Conjunct

def Pieces.WrittenBy (cs : List Conjunct) : Pieces → Prop
  | one j => ∃ c, cs = [c] ∧ c.Writes j
  | two i j => ∃ c d, cs = [c, d] ∧ c.Writes i ∧ d.Writes j

/-! ## The parts of two objects -/

namespace Table

variable {fs gs : List (String × Json)} {es ds : List (Label × Expr)}

theorem mem_labels_iff (h : List.Forall₂ Conjunct.Declares fs es) (name : String) :
    .regular name ∈ es.map (·.1) ↔ (fs.lookup name).isSome = true := by
  induction h with
  | nil => simp
  | @cons f e fs es hfe _ ih =>
    rw [List.map_cons, List.mem_cons, ih, hfe.1, List.lookup_cons]
    by_cases hname : name = f.1
    · simp [hname]
    · rw [beq_eq_false_iff_ne.mpr hname]
      simp [hname]

/-- What the second object says of a name. -/
theorem lookup_or_filter (h : List.Forall₂ Conjunct.Declares gs ds) (hds : (ds.map (·.1)).Nodup)
    (name : String) :
    (gs.lookup name = none ∧ ds.filter (·.1 = .regular name) = []) ∨
    ∃ k d, gs.lookup name = some k ∧ ds.filter (·.1 = .regular name) = [d] ∧
      Conjunct.Declares (name, k) d := by
  induction h with
  | nil => exact .inl ⟨rfl, rfl⟩
  | @cons g d gs ds hgd hrest ih =>
    rw [List.map_cons, List.nodup_cons] at hds
    rw [List.lookup_cons]
    by_cases hname : name = g.1
    · subst hname
      have hnone : ds.filter (·.1 = .regular g.1) = [] := by
        rw [List.filter_eq_nil_iff]
        intro e he h
        exact hds.1 (hgd.1 ▸ of_decide_eq_true h ▸ List.mem_map_of_mem he)
      refine .inr ⟨g.2, d, by simp, ?_, hgd⟩
      rw [List.filter_cons_of_pos (by simp [hgd.1]), hnone]
    · rw [beq_eq_false_iff_ne.mpr hname, List.filter_cons_of_neg (by simp [hgd.1, Ne.symm hname])]
      exact ih hds.2

/-- Two objects declare, for each name, what writes the pieces for it. -/
theorem forall₂_pieces (hfs : List.Forall₂ Conjunct.Declares fs es)
    (hgs : List.Forall₂ Conjunct.Declares gs ds) (hes : (es.map (·.1)).Nodup)
    (hds : (ds.map (·.1)).Nodup) (n s s' : Nat) :
    List.Forall₂ (fun e p => e.1 = .regular p.1 ∧ p.2.WrittenBy e.2)
      (Table.declareParts [] n [⟨es, s, false⟩, ⟨ds, s', false⟩]) (Json.pieces fs gs) := by
  have hfirst : Table.declareAll [] n false es = es.map fun e => (e.1, [.of e.2 n false]) := by
    rw [declareAll_eq [] n false hes, List.map_nil, List.nil_append]
    exact congrArg (List.map _) (List.filter_eq_self.mpr fun e _ => rfl)
  have hlabels : (Table.declareAll [] n false es).labels = es.map (·.1) := by
    rw [hfirst, labels, List.map_map]
    rfl
  show List.Forall₂ _ ((Table.declareAll [] n false es).declareAll (n + 1) false ds) _
  rw [declareAll_eq _ _ _ hds, hlabels, hfirst, List.map_map, Json.pieces]
  apply List.rel_append
  · rw [List.forall₂_map_left_iff, List.forall₂_map_right_iff]
    refine hfs.flip.imp fun e f hfe => ⟨hfe.1, ?_⟩
    dsimp only [Function.comp, Json.piecesOf]
    rw [hfe.1]
    rcases lookup_or_filter hgs hds f.1 with ⟨hk, hd⟩ | ⟨k, d, hk, hd, hkd⟩
    · rw [hk, hd]
      exact ⟨_, rfl, hfe.2 n⟩
    · rw [hk, hd]
      exact ⟨_, _, rfl, hfe.2 n, hkd.2 (n + 1)⟩
  · rw [List.forall₂_map_left_iff, List.forall₂_map_right_iff]
    have hfilter : List.Forall₂ Conjunct.Declares (Json.beside fs gs)
        (ds.filter (·.1 ∉ es.map (·.1))) := by
      refine List.rel_filter (fun g d hgd => ?_) hgs
      dsimp only
      rw [hgd.1, decide_eq_true_iff, mem_labels_iff hfs]
      cases fs.lookup g.1 <;> simp
    exact hfilter.flip.imp fun d g hgd => ⟨hgd.1, _, rfl, hgd.2 _⟩

end Table

/-! ## Values that meet -/

namespace Json

variable {i j : Json}

/-- Whether both values have fields, or both have elements. -/
def alike : Json → Json → Bool
  | .obj _, .obj _ => true
  | .arr _, .arr _ => true
  | _, _ => false

/-- Scalars merge if they are the same. -/
theorem merge_of_atoms {s t : Scalar} (hi : i.canonical = true) (hs : i.toVal [] = .atom s)
    (ht : j.toVal [] = .atom t) : i.merge j = if s.same t then some i else none := by
  cases i with
  | float x =>
    cases hs
    cases j with
    | float y => cases ht; rw [merge, Scalar.same, floatSame_of_isFinite hi y]
    | _ => cases ht <;> rfl
  | _ => cases hs <;> cases j <;> cases ht <;> first | rfl | simp [merge, Scalar.same]

/-- Values that are not both scalars, objects or arrays contradict each other. -/
theorem atoms_or_clash (h : i.alike j = false) :
    (∃ s t, i.toVal [] = .atom s ∧ j.toVal [] = .atom t) ∨
    (((i.toVal []).meet (j.toVal [])).isBottom = true ∧ i.merge j = none) := by
  cases i <;> cases j <;>
    first | exact .inl ⟨_, _, rfl, rfl⟩ | exact .inr ⟨rfl, rfl⟩ | cases h

/-- The meet of such values is their merge, or a final fault if they do not merge. -/
theorem meet_toVal (hi : i.canonical = true) (h : i.alike j = false) :
    (∃ s m, (i.toVal []).meet (j.toVal []) = .atom s ∧ s.toJson = .ok m ∧ i.merge j = some m ∧
      (i.toVal []).kinds.list = false ∧ (j.toVal []).kinds.list = false) ∨
    ∃ f, (i.toVal []).meet (j.toVal []) = .bottom f ∧ f.isIncomplete = false ∧
      i.merge j = none := by
  have hfinal : ((i.toVal []).meet (j.toVal [])).Final := by
    have hopen (k : Json) : (k.toVal []).Final := fun f hf => by
      have := k.isBottom_toVal []
      rw [hf] at this
      cases this
    exact (hopen i).meet (hopen j)
  have hbottom (hb : ((i.toVal []).meet (j.toVal [])).isBottom = true) :
      ∃ f, (i.toVal []).meet (j.toVal []) = .bottom f ∧ f.isIncomplete = false := by
    cases hv : (i.toVal []).meet (j.toVal []) with
    | bottom f => exact ⟨f, rfl, hfinal f hv⟩
    | _ => rw [hv] at hb; cases hb
  rcases atoms_or_clash h with ⟨s, t, hs, ht⟩ | ⟨hb, hmerge⟩
  · have hmerge := merge_of_atoms hi hs ht
    by_cases hsame : s.same t = true
    · rw [if_pos hsame] at hmerge
      have hkinds (u : Scalar) : (Val.atom u).kinds.list = false := by cases u <;> rfl
      refine .inl ⟨s, i, ?_, toJson_of_toVal [] hi hs, hmerge, hs ▸ hkinds s, ht ▸ hkinds t⟩
      rw [hs, ht, Val.meet, if_pos hsame]
    · rw [if_neg hsame] at hmerge
      obtain ⟨f, hf, hfin⟩ := hbottom (by rw [hs, ht, Val.meet, if_neg hsame]; rfl)
      exact .inr ⟨f, hf, hfin, hmerge⟩
  · obtain ⟨f, hf, hfin⟩ := hbottom hb
    exact .inr ⟨f, hf, hfin, hmerge⟩

theorem struct_of_not_alike (h : i.alike j = false) (hj : (j.toVal []).kinds.struct = true) :
    (i.toVal []).kinds.struct = false := by
  cases j with
  | obj gs => cases i <;> first | rfl | cases h
  | _ => cases hj

end Json

/-! ## What is written for a vertex, and what it becomes -/

namespace Arena

variable {a b : Arena} {own : Nat → Prop} {left n v : Nat} {p : Pieces}

/-- A pending vertex that pieces of host data are written for, and nothing else. They are nested no
deeper than `left` levels. -/
structure Holds (a : Arena) (left v : Nat) (p : Pieces) : Prop where
  lt : v < a.vertices.size
  fresh : ∃ parent paths cs, a.vertex v = .fresh parent paths cs ∧ p.WrittenBy cs ∧
    a.hasFillsBelow paths = false
  depth : p.All (·.depth ≤ left)

theorem Holds.intact (h : a.Holds left v p) (hi : Intact own a b) (hv : ¬ own v) :
    b.Holds left v p := by
  obtain ⟨parent, paths, cs, hvertex, hcs, hfills⟩ := h.fresh
  exact ⟨Nat.lt_of_lt_of_le h.lt hi.size, ⟨parent, paths, cs, (hi.vertex h.lt hv).trans hvertex, hcs,
    (hi.hasFillsBelow paths).trans hfills⟩, h.depth⟩

theorem Holds.stage (h : a.Holds left v p) : (a.vertex v).stage = .pending := by
  obtain ⟨parent, paths, cs, hv, -⟩ := h.fresh
  rw [hv]
  rfl

theorem Holds.denotes {j : Json} (h : a.Holds left v (.one j)) : a.Denotes v j := by
  obtain ⟨parent, paths, _, hv, ⟨c, rfl, hc⟩, hfills⟩ := h.fresh
  exact ⟨h.lt, parent, paths, c, hv, hc.spells, hfills⟩

def HoldsField (a : Arena) (left : Nat) (e : Label × Nat) (p : String × Pieces) : Prop :=
  e.1 = .regular p.1 ∧ a.Holds left e.2 p.2

theorem isRegular_of_forall₂ {α : Type} {es : List (Label × Nat)} {ps : List (String × α)}
    (h : List.Forall₂ (fun e p => e.1 = .regular p.1) es ps) : ∀ e ∈ es, e.1.isRegular = true := by
  induction h with
  | nil => exact fun e he => absurd he List.not_mem_nil
  | cons he _ ih => exact List.forall_mem_cons.mpr ⟨by rw [he]; rfl, ih⟩

/-- New vertices from `n` on, no two of them the same. -/
structure Spread (n : Nat) (ws : List Nat) : Prop where
  nodup : ws.Nodup
  le : ∀ w ∈ ws, n ≤ w

theorem spread_range' (n length : Nat) : Spread n (List.range' n length) :=
  ⟨List.nodup_range', fun _ hw => (List.mem_range'_1.mp hw).1⟩

/-- The vertex is done. It is bottom, or has a scalar, fields or elements; what is written for the
parts decides what it exports. -/
inductive Merged (a : Arena) (left n v : Nat) : Option Json → Prop
  | bottom {f : Fault} : (a.vertex v).val = .bottom f → f.isIncomplete = false →
    Merged a left n v none
  | atom {s : Scalar} {j : Json} : (a.vertex v).val = .atom s → s.toJson = .ok j →
    Merged a left n v (some j)
  | struct {ps : List (String × Pieces)} : (a.vertex v).val = .ofKinds .ofStruct →
    List.Forall₂ (a.HoldsField left) (a.vertex v).fields ps →
    Spread n ((a.vertex v).fields.map (·.2)) →
    Merged a left n v ((ps.mapM Pieces.mergedField).map .ofFields)
  | list {ps : List Pieces} : (a.vertex v).val = .ofKinds .ofList →
    List.Forall₂ (a.Holds left) (a.vertex v).elems ps → Spread n (a.vertex v).elems →
    Merged a left n v ((ps.mapM Pieces.merged).map .arr)

/-- A vertex that is done, stands for itself and misses nothing. -/
structure Settled (a : Arena) (v : Nat) : Prop where
  stage : (a.vertex v).stage = .done
  forward : (a.vertex v).forward = none
  pending : (a.vertex v).pending = []

end Arena

namespace Eval

variable {process : Nat → Eval Unit} {a : Arena} {c d : Conjunct} {i j : Json} {left m n v : Nat}

/-! ## Processing -/

/-- Host data meets the value of a vertex. Only an object adds fields, and only an array a list. -/
theorem exists_met (process : Nat → Eval Unit) (hc : c.Writes j) (hlt : v < a.vertices.size)
    (harcs : (j.toVal []).kinds.struct = true → (a.vertex v).arcs = []) :
    ∃ b, addConjunct process v c a = (.keep c, b) ∧ Intact (· = v) a b ∧
      b.vertex v = { (a.vertex v).meet (j.toVal []) with
        arcs := (b.vertex v).arcs, lists := (b.vertex v).lists } ∧
      ((j.toVal []).kinds.struct = false → (b.vertex v).arcs = (a.vertex v).arcs) ∧
      ((j.toVal []).kinds.list = false → (b.vertex v).lists = (a.vertex v).lists) := by
  have hscalar {s : Scalar} (hadd : addConjunct process v c a = (.keep c, a.modify v (·.meet (.atom s))))
      (hval : j.toVal [] = .atom s) :
      ∃ b, addConjunct process v c a = (.keep c, b) ∧ Intact (· = v) a b ∧
        b.vertex v = { (a.vertex v).meet (j.toVal []) with
          arcs := (b.vertex v).arcs, lists := (b.vertex v).lists } ∧
        ((j.toVal []).kinds.struct = false → (b.vertex v).arcs = (a.vertex v).arcs) ∧
        ((j.toVal []).kinds.list = false → (b.vertex v).lists = (a.vertex v).lists) := by
    have hv : (a.modify v (·.meet (.atom s))).vertex v = (a.vertex v).meet (.atom s) :=
      vertex_modify _ hlt
    refine ⟨_, hadd, intact_modify_self a v _, ?_⟩
    rw [hv, hval]
    exact ⟨rfl, fun _ => rfl, fun _ => rfl⟩
  obtain ⟨left, x, hx, he⟩ := hc.expr
  have hadd : addConjunct process v c a = addExpr process v c x a := by
    rw [he]
    rfl
  cases left with
  | zero => rw [Expr.encode] at hx; cases hx
  | succ left =>
    cases j with
    | null => cases hx; exact hscalar hadd rfl
    | bool b => cases hx; exact hscalar hadd rfl
    | int i => cases hx; exact hscalar hadd rfl
    | float x => cases hx; exact hscalar hadd rfl
    | str s => cases hx; exact hscalar hadd rfl
    | arr items =>
      obtain ⟨xs, hlist, -⟩ := hc.isList
      have hv := vertex_modify (a := a) (·.asList [⟨xs, none, c.scope, false⟩]) hlt
      refine ⟨_, addConjunct_list hlist, intact_modify_self a v _, ?_⟩
      rw [hv]
      exact ⟨rfl, fun _ => rfl, fun h => Bool.noConfusion h⟩
    | obj fields =>
      obtain ⟨es, ⟨hsource, hgroup, -, hclosed⟩, -⟩ := hc.isFields
      have hrun := addConjunct_struct process hsource hgroup hlt (t := []) List.nodup_nil
      rw [gather_nil (harcs rfl)] at hrun
      refine ⟨_, hrun, ?_, ?_⟩
      · exact ((intact_addScope _ a _).trans (intact_modify_self _ v _)).trans (intact_gather _ v _)
      · have hlt' : v < ((a.addScope (.struct c.scope (es.map Decl.required) v)).2.modify v
            (·.asStruct c.closed (es.map (·.1)))).vertices.size := by simpa using hlt
        have hself : (a.addScope (.struct c.scope (es.map Decl.required) v)).2.vertex v =
            a.vertex v := rfl
        rw [vertex_gather_self _ hlt', vertex_modify _ (by simpa using hlt), hself, ← hclosed]
        exact ⟨rfl, fun h => Bool.noConfusion h, fun _ => rfl⟩

/-- Values that are not both objects or both arrays meet. -/
theorem exists_merged_of_not_alike (levels : Nat) (h : a.Holds left v (.two i j))
    (hne : i.alike j = false) :
    ∃ b, processAt (levels + 1) v a = ((), b) ∧ Intact (· = v) a b ∧ b.Settled v ∧
      b.Merged n m v (i.merge j) := by
  obtain ⟨parent, paths, _, hv, ⟨c, d, rfl, hc, hd⟩, hfills⟩ := h.fresh
  let s := a.begin v
  have hs : (a.vertex v).stage = .pending := h.stage
  have hstart : s.vertex v = { a.vertex v with stage := .processing } := vertex_begin h.lt
  have hlts : v < s.vertices.size := by simpa [s] using h.lt
  obtain ⟨b, hfirst, hsb, hb, harcs, hlists⟩ := exists_met (processAt levels) hc hlts
    fun _ => by rw [hstart, hv]; rfl
  have hltb : v < b.vertices.size := Nat.lt_of_lt_of_le hlts hsb.size
  obtain ⟨e, hsecond, hbe, he, -, hlists'⟩ := exists_met (processAt levels) hd hltb
    fun hj => by rw [harcs (Json.struct_of_not_alike hne hj), hstart, hv]; rfl
  have hlte : v < e.vertices.size := Nat.lt_of_lt_of_le hltb hbe.size
  have hae : Intact (· = v) a e := ((intact_begin a v).trans hsb).trans hbe
  have hrounds : addRounds (processAt levels) v (roundLimit s) (s.vertex v).seeds s =
      (([c, d], []), e) := by
    obtain ⟨rounds, hr⟩ : ∃ rounds, roundLimit s = rounds + 1 :=
      Nat.exists_eq_add_one.mpr (Nat.mul_pos (by decide) (Nat.succ_pos _))
    rw [hr, hstart, hv]
    show addRounds (processAt levels) v (rounds + 1) [c, d] s = _
    rw [addRounds_cons rounds [d] hfirst rfl rfl, addRounds_cons rounds [] hsecond rfl rfl,
      addRounds_nil]
    rfl
  have hvertex : e.vertex v = { Vertex.fresh parent paths [c, d] with
      stage := .processing
      val := (i.toVal []).meet (j.toVal [])
      arcs := (e.vertex v).arcs
      lists := (e.vertex v).lists } := by
    rw [he, hb, hstart, hv]
    simp only [Vertex.meet, Vertex.fresh, Json.top_meet_toVal]
  have hend (hfinish : finish (processAt levels) v e = ((), e))
      (hmerged : (e.conclude v).Merged n m v (i.merge j)) :
      ∃ b, processAt (levels + 1) v a = ((), b) ∧ Intact (· = v) a b ∧ b.Settled v ∧
        b.Merged n m v (i.merge j) := by
    refine ⟨e.conclude v, processAt_of_unifySeeds hs ((unifySeeds_of_addRounds hrounds).trans hfinish),
      hae.trans (intact_conclude e v), ⟨?_, ?_, ?_⟩, hmerged⟩
    · rw [vertex_conclude hlte]
    · rw [vertex_conclude hlte, hvertex]; rfl
    · rw [vertex_conclude hlte, hvertex]; rfl
  rcases Json.meet_toVal hc.canonical hne with ⟨t, k, ht, hk, hmerge, hi, hj⟩ | ⟨f, hf,
    hfinal, hmerge⟩
  · refine hend (finish_of_plain _ ?_ ?_ ?_ ?_) ?_
    · rw [hlists' hj, hlists hi, hstart, hv]; rfl
    · rw [hvertex]
      exact fillSelectors_of_hasFillsBelow ((hae.hasFillsBelow paths).trans hfills)
    · rw [hvertex]; rfl
    · rw [hvertex]; rfl
    · rw [hmerge]
      refine .atom (s := t) ?_ hk
      rw [vertex_conclude hlte, hvertex, ht]
  · refine hend (finish_of_isBottom _ ?_) ?_
    · rw [hvertex, hf]; rfl
    · rw [hmerge]
      refine .bottom (f := f) ?_ hfinal
      rw [vertex_conclude hlte, hvertex, hf]

/-- Objects become a struct with the fields of both. -/
theorem exists_merged_of_objects {fs gs : List (String × Json)} (levels : Nat)
    (h : a.Holds (left + 1) v (.two (.obj fs) (.obj gs))) :
    ∃ b, processAt (levels + 1) v a = ((), b) ∧ Intact (· = v) a b ∧ b.Settled v ∧
      b.Merged left a.vertices.size v (Json.merge (.obj fs) (.obj gs)) := by
  obtain ⟨parent, paths, _, hv, ⟨c, d, rfl, hc, hd⟩, hfills⟩ := h.fresh
  obtain ⟨es, hces, hfs⟩ := hc.isFields
  obtain ⟨ds, hdds, hgs⟩ := hd.isFields
  obtain ⟨t, ht⟩ : ∃ t, t = Table.declareParts [] a.scopes.size
    [⟨es, c.scope, false⟩, ⟨ds, d.scope, false⟩] := ⟨_, rfl⟩
  have hseeds : a.vertex v = { Vertex.fresh parent paths ([c, d] ++ []) with copied := [] } := hv
  obtain ⟨b, hrun, hb⟩ := exists_assembled levels h.lt hseeds
    (.cons hces (.cons hdds .nil)) (List.cons_ne_nil _ _) (fun _ hc => absurd hc List.not_mem_nil)
    ht
    (by rw [fillSelectors_of_hasFillsBelow hfills]; exact fun _ hs => absurd hs List.not_mem_nil)
    (by simp)
  have hpieces := Table.forall₂_pieces hfs hgs (Conjunct.nodup_of_declares hfs hc.canonical)
    (Conjunct.nodup_of_declares hgs hd.canonical) a.scopes.size c.scope d.scope
  rw [← ht] at hpieces
  have hfields :
      (b.vertex v).fields = (t.map (·.1)).zip (List.range' a.vertices.size t.length) := by
    rw [fields_of_arcsFrom (by rw [hb.self]), Table.labels, List.zipIdx_eq_zip_range',
      List.length_map]
  have hdepth := Json.all_piecesOf (P := (·.depth ≤ left)) (Json.depth_le_of_obj h.depth.1)
    (Json.depth_le_of_obj h.depth.2)
  refine ⟨b, hrun, hb.intact, ⟨?_, ?_, ?_⟩, ?_⟩
  · rw [hb.self]
  · rw [hb.self, hv]; rfl
  · rw [hb.self, hv]; rfl
  · rw [Json.merge_obj]
    refine .struct (by rw [hb.self]) ?_ ?_
    · rw [hfields]
      obtain ⟨hlength, hget⟩ := List.forall₂_iff_get.mp hpieces
      refine List.forall₂_iff_get.mpr ⟨by simpa using hlength, fun k hk hk' => ?_⟩
      have hkt : k < t.length := by omega
      obtain ⟨hlabel, hwritten⟩ := hget k hkt hk'
      simp only [List.get_eq_getElem, List.getElem_zip, List.getElem_range', Nat.one_mul,
        List.getElem_map] at hlabel hwritten ⊢
      refine ⟨hlabel, by rw [hb.size]; omega, ⟨some v, _, _, ?_, hwritten,
        (hb.intact.hasFillsBelow _).trans (hasFillsBelow_parts hfills (.label t[k].1))⟩,
        hdepth _ (List.getElem_mem _)⟩
      rw [hb.part hkt, partVertex, hv]
      simp only [Vertex.fresh, fillsAt_parts hfills, List.nil_append]
    · rw [hfields, List.map_snd_zip (by simp)]
      exact spread_range' _ _

/-- Arrays of one length become a list of that length. -/
theorem exists_merged_of_arrays {is js : List Json} (levels : Nat)
    (h : a.Holds (left + 1) v (.two (.arr is) (.arr js))) (hlength : is.length = js.length) :
    ∃ b, processAt (levels + 1) v a = ((), b) ∧ Intact (· = v) a b ∧ b.Settled v ∧
      b.Merged left a.vertices.size v (Json.merge (.arr is) (.arr js)) := by
  obtain ⟨parent, paths, _, hv, ⟨c, d, rfl, hc, hd⟩, hfills⟩ := h.fresh
  obtain ⟨xs, hcxs, his⟩ := hc.isList
  obtain ⟨ys, hdys, hjs⟩ := hd.isList
  have hxs := his.length_eq
  have hys := hjs.length_eq
  have hagreed : agreedLength [⟨xs, none, c.scope, false⟩, ⟨ys, none, d.scope, false⟩] =
      .ok is.length := by
    simp [agreedLength, ← hxs, ← hys, hlength]
  obtain ⟨b, hrun, hab, hb, hsize, helements⟩ := exists_enumerated levels h.lt hv
    (.cons hcxs (.cons hdys .nil)) (List.cons_ne_nil _ _) hagreed
    (by rw [fillSelectors_of_hasFillsBelow hfills]; exact fun _ hs => absurd hs List.not_mem_nil)
  have hintact : Intact (· = v) a b := Intact.mono hab fun _ _ hu => hu.1
  have hdepth := Json.all_zipWith (P := (·.depth ≤ left)) (Json.depth_le_of_arr h.depth.1)
    (Json.depth_le_of_arr h.depth.2)
  refine ⟨b, hrun, hintact, ⟨hb.stage, hb.forward, hb.pending⟩, ?_⟩
  rw [Json.merge_arr hlength]
  refine .list hb.val ?_ (by rw [hb.elems]; exact spread_range' _ _)
  rw [hb.elems]
  refine List.forall₂_iff_get.mpr ⟨by simp [hlength], fun k hk hk' => ?_⟩
  have hki : k < is.length := by simpa using hk
  have hkx : k < xs.length := by omega
  have hky : k < ys.length := by omega
  simp only [List.get_eq_getElem, List.getElem_range', Nat.one_mul, List.getElem_zipWith]
  refine ⟨by omega, ⟨some v, _, _, ?_, ⟨.of xs[k] c.scope false, .of ys[k] d.scope false, rfl,
    (List.forall₂_iff_get.mp his).2 k hki hkx c.scope,
    (List.forall₂_iff_get.mp hjs).2 k (by omega) hky d.scope⟩,
    (hintact.hasFillsBelow _).trans (hasFillsBelow_parts hfills (.index k))⟩, ?_⟩
  · rw [helements k hki, elementVertex, hv]
    simp [Vertex.fresh, fillsAt_parts hfills, ListPart.conjunct?, hkx, hky]
  · have := hdepth _ (List.getElem_mem (n := k) (by simpa using hk'))
    rwa [List.getElem_zipWith] at this

/-- Lists that do not agree on a length contradict each other. -/
theorem exists_uneven {parent : Option Nat} {paths : List Path} {cs : List Conjunct}
    {ps : List ListPart} {lengths : Nat × Nat} (levels : Nat) (hlt : v < a.vertices.size)
    (hv : a.vertex v = .fresh parent paths cs) (h : List.Forall₂ Conjunct.IsList cs ps)
    (hps : ps ≠ []) (hlengths : agreedLength ps = .error lengths)
    (hfills : a.hasFillsBelow paths = false) :
    ∃ b f, processAt (levels + 1) v a = ((), b) ∧ Intact (· = v) a b ∧ b.Settled v ∧
      (b.vertex v).val = .bottom f ∧ f.isIncomplete = false := by
  obtain ⟨b, f, hrun, hab, hstage, hforward, hpending, hval, hfinal⟩ :=
    exists_uneven_of_notes levels hlt hv
    (notes_of_isList _ _ v h) hps hlengths (fillSelectors_of_hasFillsBelow hfills)
  exact ⟨b, f, hrun, hab, ⟨hstage, hforward, hpending⟩, hval, hfinal⟩

/-- Arrays of different lengths contradict each other. -/
theorem exists_merged_of_lengths {is js : List Json} (levels : Nat)
    (h : a.Holds left v (.two (.arr is) (.arr js))) (hlength : is.length ≠ js.length) :
    ∃ b, processAt (levels + 1) v a = ((), b) ∧ Intact (· = v) a b ∧ b.Settled v ∧
      b.Merged n m v (Json.merge (.arr is) (.arr js)) := by
  obtain ⟨parent, paths, _, hv, ⟨c, d, rfl, hc, hd⟩, hfills⟩ := h.fresh
  obtain ⟨xs, hcxs, his⟩ := hc.isList
  obtain ⟨ys, hdys, hjs⟩ := hd.isList
  let ps : List ListPart := [⟨xs, none, c.scope, false⟩, ⟨ys, none, d.scope, false⟩]
  have hagreed : agreedLength ps = .error (xs.length, ys.length) := by
    have : ys.length ≠ xs.length := by
      rw [← his.length_eq, ← hjs.length_eq]
      exact hlength.symm
    simp [ps, agreedLength, this]
  obtain ⟨b, f, hrun, hab, hb, hval, hfinal⟩ := exists_uneven levels h.lt hv
    (.cons hcxs (.cons hdys .nil)) (List.cons_ne_nil _ _) hagreed hfills
  refine ⟨b, hrun, hab, hb, ?_⟩
  rw [Json.merge, Json.mergeItems_of_length_ne hlength]
  exact .bottom hval hfinal

theorem exists_merged (levels : Nat) (h : a.Holds (left + 1) v (.two i j)) :
    ∃ b, processAt (levels + 1) v a = ((), b) ∧ Intact (· = v) a b ∧ b.Settled v ∧
      b.Merged left a.vertices.size v (i.merge j) := by
  cases halike : i.alike j with
  | false => exact exists_merged_of_not_alike levels h halike
  | true =>
    cases i with
    | obj fs =>
      cases j with
      | obj gs => exact exists_merged_of_objects levels h
      | _ => cases halike
    | arr is =>
      cases j with
      | arr js =>
        by_cases hlength : is.length = js.length
        · exact exists_merged_of_arrays levels h hlength
        · exact exists_merged_of_lengths levels h hlength
      | _ => cases halike
    | _ => cases j <;> cases halike

/-! ## Export -/

/-- Items that are exported one by one, until one fails. -/
theorem run_mapM_toOption {ι β γ : Type} {R : Arena → ι → γ → Prop} {g : γ → Option β}
    {f : ι → Attempt β} {is : List ι} {xs : List γ} (place : ι → Nat)
    (hf : ∀ a i x, R a i x → ((f i).run a).1.toOption = g x ∧ Intact (· = place i) a ((f i).run a).2)
    (hR : ∀ a b i k x, R a i x → Intact (· = place k) a b → place i ≠ place k → R b i x)
    (h : List.Forall₂ (R a) is xs) (hn : (is.map place).Nodup) :
    ((is.mapM f).run a).1.toOption = xs.mapM g ∧
      Intact (· ∈ is.map place) a ((is.mapM f).run a).2 := by
  induction is generalizing a xs with
  | nil => cases h; exact ⟨rfl, .refl _ a⟩
  | cons i is ih =>
    obtain ⟨x, xs, hix, hrest, rfl⟩ := List.forall₂_cons_left_iff.mp h
    rw [List.map_cons, List.nodup_cons] at hn
    obtain ⟨hfirst, hi⟩ := hf a i x hix
    have hwider : Intact (· ∈ (i :: is).map place) a ((f i).run a).2 :=
      hi.mono fun u _ hu => hu ▸ List.mem_cons_self
    rw [List.mapM_cons, List.mapM_cons, Attempt.run_bind, ← hfirst]
    rcases hrun : (f i).run a with ⟨e | y, b⟩
    · rw [hrun] at hwider
      exact ⟨rfl, hwider⟩
    · rw [hrun] at hi hwider
      have hother : ∀ k ∈ is, place k ≠ place i := fun k hk he => hn.1 (he ▸ List.mem_map_of_mem hk)
      obtain ⟨hresult, his⟩ := ih (((List.forall₂_and_left _ _).mpr ⟨hother, hrest⟩).imp
        fun k x hk => hR a b k i x hk.2 hi hk.1) hn.2
      have hlast := hwider.trans (his.mono fun u _ hu => List.mem_cons_of_mem _ hu)
      dsimp only
      rw [Attempt.run_bind, ← hresult]
      rcases hend : (is.mapM f).run b with ⟨e | ys, d⟩ <;> rw [hend] at hlast <;> exact ⟨rfl, hlast⟩

theorem toOption_bind_pure {α β : Type} (m : Attempt α) (k : α → β) (a : Arena) :
    ((m >>= fun x => pure (k x)).run a).1.toOption = (m.run a).1.toOption.map k ∧
      ((m >>= fun x => pure (k x)).run a).2 = (m.run a).2 := by
  rw [Attempt.run_bind]
  rcases m.run a with ⟨e | x, b⟩ <;> exact ⟨rfl, rfl⟩

/-- The export of pieces is their merge, and fails if they do not merge. -/
theorem exportAt_of_holds (levels left : Nat) {p : Pieces} (h : a.Holds left v p) :
    ((exportAt (processAt (levels + 1)) left v).run a).1.toOption = p.merged ∧
      Intact (· = v) a ((exportAt (processAt (levels + 1)) left v).run a).2 := by
  induction left generalizing a v p with
  | zero =>
    cases p with
    | one j => exact absurd h.depth (Nat.not_le_of_gt j.depth_pos)
    | two i j => exact absurd h.depth.1 (Nat.not_le_of_gt i.depth_pos)
  | succ left ih =>
    cases p with
    | one j =>
      obtain ⟨b, hrun, hab, hs⟩ := exists_shows_of_denotes levels h.denotes
      obtain ⟨hresult, hi⟩ := exportAt_of_shows levels (left + 1) (settle_of_shows hrun hs) hs
        h.denotes.canonical h.depth
      exact ⟨by rw [hresult]; rfl, hab.trans_new (Intact.mono hi fun _ _ hu => hu.1)⟩
    | two i j =>
      obtain ⟨b, hrun, hab, hb, hmerged⟩ := exists_merged levels h
      have hsettle := settle_of_forward hrun hb.forward
      have hstays (a b : Arena) (w u : Nat) (q : Pieces) (hq : a.Holds left w q)
          (hi : Intact (· = u) a b) (hne : w ≠ u) : b.Holds left w q := hq.intact hi hne
      rw [Pieces.merged]
      generalize i.merge j = merged at hmerged
      cases hmerged with
      | bottom hval hfinal =>
        rw [run_exportAt_of_isBottom hsettle hval hb.stage]
        exact ⟨rfl, hab⟩
      | atom hval hs =>
        rw [run_exportAt_of_atom hsettle hval hb.pending hb.stage hs]
        exact ⟨rfl, hab⟩
      | @struct ps hval hfields hspread =>
        let field (e : Label × Nat) : Attempt (String × Json) := do
          return (e.1.display, ← exportAt (processAt (levels + 1)) left e.2)
        have hfield (a : Arena) (e : Label × Nat) (p : String × Pieces)
            (hp : a.HoldsField left e p) :
            ((field e).run a).1.toOption = Pieces.mergedField p ∧
            Intact (· = e.2) a ((field e).run a).2 := by
          obtain ⟨hresult, hi⟩ := ih hp.2
          obtain ⟨hfield, hlast⟩ := toOption_bind_pure (exportAt (processAt (levels + 1)) left e.2)
            (e.1.display, ·) a
          rw [hlast, hfield, hresult, hp.1]
          exact ⟨rfl, hi⟩
        obtain ⟨hresult, hi⟩ := run_mapM_toOption (R := fun a => a.HoldsField left) Prod.snd hfield
          (fun a b e k p hp hi hne => ⟨hp.1, hstays a b _ _ _ hp.2 hi hne⟩) hfields hspread.nodup
        obtain ⟨hobject, hlast⟩ :=
          toOption_bind_pure ((b.vertex v).fields.mapM field) Json.ofFields b
        rw [run_exportAt_of_struct hsettle hval hb.pending hb.stage,
          List.filter_eq_self.mpr (isRegular_of_forall₂ (hfields.imp fun _ _ he => he.1))]
        refine ⟨hobject.trans (congrArg _ hresult), ?_⟩
        rw [hlast]
        exact hab.trans_new (hi.mono fun u _ hu => hspread.le u hu)
      | @list ps hval helems hspread =>
        rw [run_exportAt_of_list hsettle hval hb.pending hb.stage]
        obtain ⟨hresult, hi⟩ := run_mapM_toOption id (fun a w p hp => ih hp) hstays helems
          (by simpa using hspread.nodup)
        obtain ⟨harray, hlast⟩ := toOption_bind_pure
          ((b.vertex v).elems.mapM (exportAt (processAt (levels + 1)) left)) Json.arr b
        refine ⟨harray.trans (congrArg _ hresult), ?_⟩
        rw [hlast]
        exact hab.trans_new (hi.mono fun u _ hu => hspread.le u (by simpa using hu))

/-! ## Validation -/

/-- Validation of several parts finds a fault for each one whose pieces do not merge. -/
theorem found_of_holds {f : Nat → Eval (List Fault)} {ws : List Nat} {ps : List Pieces}
    (hf : ∀ a w p, a.Holds left w p → Found (p.merged = none) (f w a).1 ∧ Intact (· = w) a (f w a).2)
    (h : List.Forall₂ (a.Holds left) ws ps) (hspread : Spread n ws) :
    Found (ps.mapM Pieces.merged = none) (ws.mapM f a).1.flatten ∧
    Intact (n ≤ ·) a (ws.mapM f a).2 := by
  have hcast {own : Nat → Prop} {a b : Arena} (hi : Intact (fun v => own v ∨ False) a b) :
      Intact own a b := hi.mono fun u _ hu => hu.resolve_right id
  obtain ⟨-, hfound, hi⟩ := run_mapM_of_each (Q := fun p fs => Found (p.merged = none) fs)
    (I := fun _ => True) id (fun _ => False)
    (fun a w p _ hp => ⟨trivial, (hf a w p hp).1, (hf a w p hp).2.mono fun u _ hu => .inl hu⟩)
    (fun a b w u p hp hi hne => hp.intact (hcast hi) hne) trivial h (by simpa using hspread.nodup)
  refine ⟨?_, (hcast hi).mono fun u _ hu => hspread.le u (by simpa using hu)⟩
  rw [Pieces.mapM_merged_eq_none]
  exact Found.flatten hfound

/-- Validation finds faults in pieces that do not merge, and one of them is final. -/
theorem faultsAt_of_holds (levels left : Nat) (concrete : Bool) {p : Pieces}
    (h : a.Holds left v p) :
    Found (p.merged = none) (faultsAt (processAt (levels + 1)) left concrete v a).1 ∧
      Intact (· = v) a (faultsAt (processAt (levels + 1)) left concrete v a).2 := by
  induction left generalizing a v p with
  | zero =>
    cases p with
    | one j => exact absurd h.depth (Nat.not_le_of_gt j.depth_pos)
    | two i j => exact absurd h.depth.1 (Nat.not_le_of_gt i.depth_pos)
  | succ left ih =>
    cases p with
    | one j =>
      obtain ⟨b, hrun, hab, hs⟩ := exists_shows_of_denotes levels h.denotes
      obtain ⟨hresult, hi⟩ :=
        faultsAt_of_shows levels (left + 1) concrete (settle_of_shows hrun hs) hs
        h.depth
      exact ⟨⟨fun _ => hresult, fun hno => absurd hno (Option.some_ne_none _)⟩,
        hab.trans_new (Intact.mono hi fun _ _ hu => hu.1)⟩
    | two i j =>
      obtain ⟨b, hrun, hab, hb, hmerged⟩ := exists_merged levels h
      have hsettle := settle_of_forward hrun hb.forward
      rw [Pieces.merged]
      generalize i.merge j = merged at hmerged
      cases hmerged with
      | @bottom f hval hfinal =>
        rw [faultsAt_of_isBottom hsettle hval]
        exact ⟨⟨fun hno => absurd rfl hno, fun _ => ⟨_, List.mem_singleton_self _,
          (Fault.isIncomplete_atPath f _).trans hfinal⟩⟩, hab⟩
      | atom hval hs =>
        rw [faultsAt_of_atom hsettle hval hb.pending]
        exact ⟨⟨fun _ => rfl, fun hno => absurd hno (Option.some_ne_none _)⟩, hab⟩
      | @struct ps hval hfields hspread =>
        rw [faultsAt_of_regular hsettle hval hb.pending (isRegular_of_forall₂ (hfields.imp fun _ _ he => he.1))]
        obtain ⟨hfound, hi⟩ := found_of_holds (fun a w p hp => ih hp)
          (List.forall₂_map_left_iff.mpr (List.forall₂_map_right_iff.mpr (hfields.imp fun _ _ hp => hp.2)))
          hspread
        rw [Option.map_eq_none_iff, Pieces.mapM_mergedField_eq_none]
        exact ⟨hfound, hab.trans_new hi⟩
      | @list ps hval helems hspread =>
        rw [faultsAt_of_list hsettle hval hb.pending]
        obtain ⟨hfound, hi⟩ := found_of_holds (fun a w p hp => ih hp) helems hspread
        rw [Option.map_eq_none_iff]
        exact ⟨hfound, hab.trans_new hi⟩

end Eval

end SchemaMock
