import Mathlib.Data.List.Forall2
import SchemaMock.Proofs.Eval.Parts
import SchemaMock.Proofs.Eval.Turn

/-! # Vertices of list literals

A vertex whose seeds are list literals becomes a list. Its elements are the next vertices, one for
each place of the length that the literals agree on.
-/

namespace SchemaMock

open Arena Eval

def Conjunct.IsList (c : Conjunct) (p : ListPart) : Prop :=
  c.source = .expr (.list p.elems p.tail) ∧ p.scope = c.scope ∧ p.closed = c.closed

namespace Vertex

def asList (ps : List ListPart) (x : Vertex) : Vertex :=
  { x with val := ps.foldl (fun v _ => v.meet (.ofKinds .ofList)) x.val, lists := x.lists ++ ps }

end Vertex

namespace Arena

def listed (a : Arena) (v : Nat) (ps : List ListPart) (length : Nat) : Arena :=
  (a.append ((List.range length).map (a.elementVertex v ps))).modify v fun x =>
    { x with
      stage := .done
      val := .ofKinds .ofList
      openList := ps.all (·.tail.isSome)
      elems := List.range' a.vertices.size length }

variable {a : Arena} {u v : Nat} {ps : List ListPart} {length : Nat}

@[simp] theorem size_listed (a : Arena) (v : Nat) (ps : List ListPart) (length : Nat) :
    (a.listed v ps length).vertices.size = a.vertices.size + length := by
  simp [listed]

theorem vertex_listed_self (ps : List ListPart) (length : Nat) (h : v < a.vertices.size) :
    (a.listed v ps length).vertex v = { a.vertex v with
      stage := .done
      val := .ofKinds .ofList
      openList := ps.all (·.tail.isSome)
      elems := List.range' a.vertices.size length } := by
  rw [listed, vertex_modify _ (by simp; omega), vertex_append_of_lt _ h]

theorem vertex_listed_element (hv : v < a.vertices.size) {i : Nat} (hi : i < length) :
    (a.listed v ps length).vertex (a.vertices.size + i) = a.elementVertex v ps i := by
  rw [listed, vertex_modify_of_ne _ _ (by omega), vertex_append a (by simpa using hi)]
  simp

theorem intact_listed (a : Arena) (v : Nat) (ps : List ListPart) (length : Nat) :
    Intact (· = v) a (a.listed v ps length) :=
  (intact_append _ a _).trans (intact_modify_self _ v _)

/-- A list that is done, whose elements are numbered from `n` on. -/
structure Enumerated (a : Arena) (v : Nat) (parent : Option Nat) (n length : Nat) : Prop where
  stage : (a.vertex v).stage = .done
  parent : (a.vertex v).parent = parent
  forward : (a.vertex v).forward = none
  disjuncts : (a.vertex v).disjuncts = []
  pending : (a.vertex v).pending = []
  val : (a.vertex v).val = .ofKinds .ofList
  elems : (a.vertex v).elems = List.range' n length

theorem Enumerated.intact {b : Arena} {own : Nat → Prop} {parent : Option Nat} {n : Nat}
    (h : a.Enumerated v parent n length) (hi : Intact own a b)
    (hown : ∀ u, own u → (a.vertex u).stage ≠ .done) : b.Enumerated v parent n length := by
  have hsame : b.vertex v = a.vertex v :=
    hi.vertex_eq (by rw [h.stage]; decide) fun ho => hown v ho h.stage
  refine ⟨?_, ?_, ?_, ?_, ?_, ?_, ?_⟩
  all_goals rw [hsame]
  exacts [h.stage, h.parent, h.forward, h.disjuncts, h.pending, h.val, h.elems]

end Arena

namespace Eval

variable {process : Nat → Eval Unit} {a : Arena} {v : Nat} {cs : List Conjunct} {ps : List ListPart}

/-- A list literal is noted. -/
theorem addConjunct_list {c : Conjunct} {p : ListPart} (h : c.IsList p) :
    addConjunct process v c a = (.keep c, a.modify v (·.asList [p])) := by
  obtain ⟨hc, hscope, hclosed⟩ := h
  obtain ⟨elems, tail, scope, closed⟩ := p
  dsimp only at hscope hclosed
  rw [addConjunct_of_expr hc, hscope, hclosed]
  exact congrArg (Prod.mk _) (modify_modify a v _ _)

theorem addRounds_lists {rounds : Nat} (h : List.Forall₂ Conjunct.IsList cs ps) :
    addRounds process v (rounds + 1) cs a = ((cs, []), a.modify v (·.asList ps)) := by
  induction h generalizing a with
  | nil =>
    rw [addRounds_nil]
    refine congrArg (Prod.mk _) (modify_eq_self ?_).symm
    simp [Vertex.asList]
  | @cons c p cs ps hc _ ih =>
    rw [addRounds_cons rounds cs (addConjunct_list hc) rfl rfl, ih, modify_modify]
    simp [Vertex.asList, Yield.keep]

theorem foldl_meet_ofList (hps : ps ≠ []) :
    ps.foldl (fun v _ => v.meet (.ofKinds .ofList)) Val.top = .ofKinds .ofList := by
  cases ps with
  | nil => exact absurd rfl hps
  | cons p ps =>
    clear hps
    rw [List.foldl_cons, show Val.top.meet (.ofKinds .ofList) = .ofKinds .ofList from rfl]
    induction ps with
    | nil => rfl
    | cons q ps ih => exact ih

/-- Fills at elements that are there require nothing. -/
theorem requireFilledParts_of_index
    (h : ∀ s ∈ a.fillSelectors (a.vertex v).paths, ∃ i < (a.vertex v).elems.length, s = .index i) :
    requireFilledParts v a = ((), a) := by
  refine run_forM_of_same _ fun s hs => ?_
  obtain ⟨i, hi, rfl⟩ := h s hs
  show (if (a.vertex v).elems.length ≤ i then _ else _ : Eval Unit) a = _
  rw [if_neg (Nat.not_le_of_gt hi)]
  rfl

/-- Unification of the conjuncts notes list literals, and does nothing else. -/
def Notes (process : Nat → Eval Unit) (a : Arena) (v : Nat) (cs : List Conjunct)
    (ps : List ListPart) : Prop :=
  ∃ kept, addRounds process v (roundLimit a) cs a = ((kept, []), a.modify v (·.asList ps))

theorem notes_of_isList (process : Nat → Eval Unit) (a : Arena) (v : Nat)
    (h : List.Forall₂ Conjunct.IsList cs ps) : Notes process a v cs ps := by
  obtain ⟨rounds, hr⟩ : ∃ rounds, roundLimit a = rounds + 1 :=
    Nat.exists_eq_add_one.mpr (Nat.mul_pos (by decide) (Nat.succ_pos _))
  exact ⟨cs, hr ▸ addRounds_lists h⟩

section

variable {parent : Option Nat} {paths : List Path}

/-- The vertex when its list literals have been noted. -/
theorem vertex_noted (hlt : v < a.vertices.size) (hv : a.vertex v = .fresh parent paths cs)
    (hps : ps ≠ []) :
    ((a.begin v).modify v (·.asList ps)).vertex v = { Vertex.fresh parent paths cs with
      stage := .processing, val := .ofKinds .ofList, lists := ps } := by
  have hstart : (a.begin v).vertex v = { a.vertex v with stage := .processing } := vertex_begin hlt
  have := vertex_modify (a := a.begin v) (v := v) (·.asList ps) (by simpa using hlt)
  rw [this, hstart, hv]
  simp only [Vertex.asList, Vertex.fresh, foldl_meet_ofList hps, List.nil_append]

/-- The last step comes after the list literals have been noted. -/
theorem unifySeeds_of_notes {process : Nat → Eval Unit} (hlt : v < a.vertices.size)
    (hv : a.vertex v = .fresh parent paths cs) (h : Notes process (a.begin v) v cs ps) :
    unifySeeds process v (a.begin v) = finish process v ((a.begin v).modify v (·.asList ps)) := by
  obtain ⟨kept, hrounds⟩ := h
  have hseeds : ((a.begin v).vertex v).seeds = cs := by
    rw [vertex_begin hlt, hv]
    rfl
  exact unifySeeds_of_addRounds (hseeds ▸ hrounds)

end

/-- A vertex of list literals that agree on a length becomes a list. Fills below it have to be
within the length. -/
theorem processAt_of_notes (left : Nat) {parent : Option Nat} {paths : List Path} {length : Nat}
    (hlt : v < a.vertices.size) (hv : a.vertex v = .fresh parent paths cs)
    (h : Notes (processAt left) (a.begin v) v cs ps) (hps : ps ≠ [])
    (hlength : agreedLength ps = .ok length)
    (hfills : ∀ s ∈ a.fillSelectors paths, ∃ i < length, s = .index i) :
    processAt (left + 1) v a = ((), a.listed v ps length) := by
  have hs : (a.vertex v).stage = .pending := by rw [hv]; rfl
  let b := (a.begin v).modify v (·.asList ps)
  have hltb : v < b.vertices.size := by simpa [b] using hlt
  have hb : b.vertex v = { Vertex.fresh parent paths cs with
      stage := .processing, val := .ofKinds .ofList, lists := ps } := vertex_noted hlt hv hps
  have hintact : Intact (· = v) a b := (intact_begin a v).trans (intact_modify_self _ v _)
  have helements : b.elementVertex v ps = a.elementVertex v ps := by
    funext i
    simp only [elementVertex, hb, hv, hintact.fillsAt, Vertex.fresh]
  let g (x : Vertex) : Vertex :=
    { x with
      lists := []
      openList := ps.all (·.tail.isSome)
      elems := List.range' a.vertices.size length }
  let d := (b.append ((List.range length).map (a.elementVertex v ps))).modify v g
  have hbuild : buildList v b = ((), d) := by
    have hlists : (b.vertex v).lists = ps := by rw [hb]
    rw [run_buildList hltb (by rw [hlists]; exact hps) (by rw [hlists]; exact hlength), hlists,
      helements, show b.vertices.size = a.vertices.size by simp [b]]
  have hd : d.vertex v = g (b.vertex v) := by
    rw [← vertex_append_of_lt ((List.range length).map (a.elementVertex v ps)) hltb]
    exact vertex_modify g (by simp; omega)
  have hbd : Intact (· = v) b d := (intact_append _ b _).trans (intact_modify_self _ v g)
  have hrequire : requireFilledParts v d = ((), d) := by
    refine requireFilledParts_of_index fun s hs => ?_
    have hmem : s ∈ d.fillSelectors paths := by rw [hd, hb] at hs; exact hs
    rw [(hintact.trans hbd).fillSelectors] at hmem
    rw [hd]
    simpa [g] using hfills s hmem
  have hfinish : finish (processAt left) v b = ((), d) :=
    finish_of_requireFilledParts (by rw [hb]; rfl) hbuild hrequire (by rw [hd, hb]; rfl)
      (by rw [hd, hb]; rfl)
  have hunify : unifySeeds (processAt left) v (a.begin v) = ((), d) :=
    (unifySeeds_of_notes hlt hv h).trans hfinish
  rw [processAt_of_unifySeeds hs hunify]
  let xs := (List.range length).map (a.elementVertex v ps)
  have hlast : d.conclude v = (a.append xs).modify v fun x =>
      { g (({ x with stage := .processing } : Vertex).asList ps) with stage := .done } := by
    refine Eq.trans ?_ (conclude_modify_begin (a.append xs) v fun x => g (x.asList ps))
    rw [← modify_modify, begin_append xs hlt]
    exact congrArg (fun e : Arena => (e.modify v g).conclude v)
      (modify_append xs (·.asList ps) (by simpa using hlt)).symm
  rw [hlast]
  refine congrArg (Prod.mk ()) (modify_congr ?_)
  rw [vertex_append_of_lt xs hlt, hv]
  simp only [g, Vertex.asList, Vertex.fresh, foldl_meet_ofList hps]

theorem processAt_lists (left : Nat) {parent : Option Nat} {paths : List Path} {length : Nat}
    (hlt : v < a.vertices.size) (hv : a.vertex v = .fresh parent paths cs)
    (h : List.Forall₂ Conjunct.IsList cs ps) (hps : ps ≠ [])
    (hlength : agreedLength ps = .ok length)
    (hfills : ∀ s ∈ a.fillSelectors paths, ∃ i < length, s = .index i) :
    processAt (left + 1) v a = ((), a.listed v ps length) :=
  processAt_of_notes left hlt hv (notes_of_isList _ _ v h) hps hlength hfills

/-- The list is done, and its elements are new vertices. -/
theorem exists_enumerated_of_notes (left : Nat) {parent : Option Nat} {paths : List Path}
    {length : Nat} (hlt : v < a.vertices.size) (hv : a.vertex v = .fresh parent paths cs)
    (h : Notes (processAt left) (a.begin v) v cs ps) (hps : ps ≠ [])
    (hlength : agreedLength ps = .ok length)
    (hfills : ∀ s ∈ a.fillSelectors paths, ∃ i < length, s = .index i) :
    ∃ b, processAt (left + 1) v a = ((), b) ∧ Extends (· = v) a b ∧
      b.Enumerated v parent a.vertices.size length ∧
      b.vertices.size = a.vertices.size + length ∧
      ∀ i < length, b.vertex (a.vertices.size + i) = a.elementVertex v ps i := by
  have hself := vertex_listed_self ps length hlt
  rw [hv] at hself
  refine ⟨_, processAt_of_notes left hlt hv h hps hlength hfills,
    (intact_listed a v ps length).extends_self (by rw [hv]; exact Stage.noConfusion),
    ⟨?_, ?_, ?_, ?_, ?_, ?_, ?_⟩, size_listed a v ps length,
    fun i hi => vertex_listed_element hlt hi⟩
  all_goals rw [hself]
  all_goals rfl

theorem exists_enumerated (left : Nat) {parent : Option Nat} {paths : List Path} {length : Nat}
    (hlt : v < a.vertices.size) (hv : a.vertex v = .fresh parent paths cs)
    (h : List.Forall₂ Conjunct.IsList cs ps) (hps : ps ≠ [])
    (hlength : agreedLength ps = .ok length)
    (hfills : ∀ s ∈ a.fillSelectors paths, ∃ i < length, s = .index i) :
    ∃ b, processAt (left + 1) v a = ((), b) ∧ Extends (· = v) a b ∧
      b.Enumerated v parent a.vertices.size length ∧
      b.vertices.size = a.vertices.size + length ∧
      ∀ i < length, b.vertex (a.vertices.size + i) = a.elementVertex v ps i :=
  exists_enumerated_of_notes left hlt hv (notes_of_isList _ _ v h) hps hlength hfills

/-- Lists that do not agree on a length contradict each other. -/
theorem exists_uneven_of_notes (left : Nat) {parent : Option Nat} {paths : List Path}
    {lengths : Nat × Nat} (hlt : v < a.vertices.size) (hv : a.vertex v = .fresh parent paths cs)
    (h : Notes (processAt left) (a.begin v) v cs ps) (hps : ps ≠ [])
    (hlengths : agreedLength ps = .error lengths) (hfills : a.fillSelectors paths = []) :
    ∃ b f, processAt (left + 1) v a = ((), b) ∧ Intact (· = v) a b ∧ (b.vertex v).stage = .done ∧
      (b.vertex v).forward = none ∧ (b.vertex v).pending = [] ∧ (b.vertex v).val = .bottom f ∧
      f.isIncomplete = false := by
  let e := (a.begin v).modify v (·.asList ps)
  let g (x : Vertex) : Vertex :=
    ({ x with lists := [], openList := ps.all (·.tail.isSome) } : Vertex).meet
      (.ofCause (.listLengths lengths.1 lengths.2))
  let d := e.modify v g
  have hs : (a.vertex v).stage = .pending := by rw [hv]; rfl
  have hlte : v < e.vertices.size := by simpa [e] using hlt
  have hltd : v < d.vertices.size := by simpa [d] using hlte
  have he : e.vertex v = { Vertex.fresh parent paths cs with
      stage := .processing, val := .ofKinds .ofList, lists := ps } := vertex_noted hlt hv hps
  have hd : d.vertex v = g (e.vertex v) := vertex_modify g hlte
  have had : Intact (· = v) a d :=
    ((intact_begin a v).trans (intact_modify_self _ v _)).trans (intact_modify_self e v g)
  have hbuild : buildList v e = ((), d) := by
    have hlists : (e.vertex v).lists = ps := by rw [he]
    have hempty : ps.isEmpty = false := by simpa using hps
    unfold buildList
    simp only [run_bind, vertex, hlists, hempty, hlengths, Bool.not_false, if_true]
    exact congrArg (Prod.mk ()) (modify_modify e v _ _)
  have hfinish : finish (processAt left) v e = ((), d) := by
    refine finish_of_buildList (by rw [he]; rfl) hbuild ?_ ?_ ?_
    · rw [hd, he]
      exact (had.fillSelectors paths).trans hfills
    · rw [hd, he]; rfl
    · rw [hd, he]; rfl
  refine ⟨d.conclude v, .of (.listLengths lengths.1 lengths.2),
    processAt_of_unifySeeds hs ((unifySeeds_of_notes hlt hv h).trans hfinish),
    had.trans (intact_conclude d v), ?_, ?_, ?_, ?_, rfl⟩
  · rw [vertex_conclude hltd]
  · rw [vertex_conclude hltd, hd, he]; rfl
  · rw [vertex_conclude hltd, hd, he]; rfl
  · rw [vertex_conclude hltd, hd, he]; rfl

end Eval

end SchemaMock
