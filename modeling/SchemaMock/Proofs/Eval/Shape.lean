import SchemaMock.Proofs.Eval.Merging
import SchemaMock.Proofs.Eval.Selection

/-! # Host data behind its shape

The shape of host data is written for a vertex, and then the data itself. What the shape says is
true of the data, so that the vertex takes the form of the data: leaves have their types, null is
the default of its choice, lists and empty objects are open, and other objects have the same fields.
The types of leaves are names, which stand for types as long as no field is called like one.
-/

namespace SchemaMock

open Arena Eval

/-! ## Shapes -/

namespace Expr

variable {left : Nat} {j : Json} {x : Expr}

def shapeTypes : List String := ["bool", "int", "number", "string"]

theorem ofIdent_of_mem_shapeTypes :
    ∀ name ∈ shapeTypes, Label.ofIdent name.toList = .regular name := by
  decide

/-- The expression is what a shape says about host data. -/
inductive Suits : Expr → Json → Prop
  | any (j : Json) : Suits .top j
  | type {j : Json} (t : TypeName) (known : t.name ∈ shapeTypes)
    (keeps : (Val.top.meet (.constraint t.constraint)).meet (j.toVal []) = j.toVal []) :
    Suits (.ident t.name) j
  | null : Suits (.binary .disjoin (.marked .null) .top) .null
  | list (items : List Json) : Suits (.list [] (some .top)) (.arr items)
  | empty : Suits (.struct [.ellipsis]) (.obj [])
  | fields {fs : List (String × Json)} {es : List (Label × Expr)}
    (labels : es.map (·.1) = fs.map fun f => .regular f.1)
    (each : List.Forall₂ Suits (es.map (·.2)) (fs.map (·.2))) :
    Suits (.struct (es.map Decl.required)) (.obj fs)

theorem exists_of_shapeFields {fs : List (String × Json)} {ds : List Decl}
    (h : shapeFields left fs = .ok ds) : ∃ es : List (Label × Expr), ds = es.map Decl.required ∧
      es.map (·.1) = fs.map (fun f => .regular f.1) ∧
      List.Forall₂ (fun x j => shape left j = .ok x) (es.map (·.2)) (fs.map (·.2)) := by
  induction fs generalizing ds with
  | nil => cases h; exact ⟨[], rfl, rfl, .nil⟩
  | cons f fs ih =>
    rw [shapeFields] at h
    obtain ⟨x, hx, h⟩ := Except.exists_of_bind_eq_ok h
    obtain ⟨rest, hrest, h⟩ := Except.exists_of_bind_eq_ok h
    cases h
    obtain ⟨es, rfl, hlabels, hes⟩ := ih hrest
    exact ⟨(.regular f.1, x) :: es, rfl, congrArg (Label.regular f.1 :: ·) hlabels, .cons hx hes⟩

theorem suits_of_shape (h : shape left j = .ok x) : Suits x j := by
  induction left generalizing j x with
  | zero => rw [shape] at h; cases h
  | succ left ih =>
    cases j with
    | null => cases h; exact .null
    | bool b => cases h; exact .type ⟨"bool", rfl⟩ (by decide) rfl
    | int i => cases h; exact .type .int (by decide) rfl
    | float y => cases h; exact .type ⟨"number", rfl⟩ (by decide) rfl
    | str s => cases h; exact .type .string (by decide) rfl
    | arr items => cases h; exact .list items
    | obj fs =>
      cases fs with
      | nil => cases h; exact .empty
      | cons f fs =>
        cases hds : shapeFields left (f :: fs) with
        | error c => rw [shape, hds] at h; cases h
        | ok ds =>
          rw [shape, hds] at h
          cases h
          obtain ⟨es, rfl, hlabels, hes⟩ := exists_of_shapeFields hds
          exact .fields hlabels (hes.imp fun _ _ he => ih he)

/-- Host data that is not nested too deeply has a shape. -/
theorem exists_shape (h : j.depth ≤ left) : ∃ x, shape left j = .ok x := by
  induction left generalizing j with
  | zero => exact absurd h (Nat.not_le_of_gt j.depth_pos)
  | succ left ih =>
    have hfields {fs : List (String × Json)} (hfs : ∀ f ∈ fs, f.2.depth ≤ left) :
        ∃ ds, shapeFields left fs = .ok ds := by
      induction fs with
      | nil => exact ⟨[], rfl⟩
      | cons f fs ihs =>
        rw [List.forall_mem_cons] at hfs
        obtain ⟨x, hx⟩ := ih hfs.1
        obtain ⟨ds, hds⟩ := ihs hfs.2
        refine ⟨.field (.regular f.1) false x :: ds, ?_⟩
        rw [shapeFields, hx, hds]
        rfl
    cases j with
    | obj fs =>
      cases fs with
      | nil => exact ⟨_, rfl⟩
      | cons f fs =>
        obtain ⟨ds, hds⟩ := hfields (Json.depth_le_of_obj h)
        exact ⟨.struct ds, by rw [shape, hds]; rfl⟩
    | _ => exact ⟨_, rfl⟩

end Expr

namespace Json

variable {j : Json}

/-- No field inside the data is called like a type that shapes are written with. -/
def Unambiguous (j : Json) : Prop :=
  ∀ n fs, Inside (.obj fs) n j → ∀ f ∈ fs, f.1 ∉ Expr.shapeTypes

theorem unambiguous_arr {items : List Json} : (arr items).Unambiguous ↔ ∀ k ∈ items,
    k.Unambiguous := by
  constructor
  · exact fun h k hk n fs hfs => h (n + 1) fs (.item hk hfs)
  · intro h n fs hfs
    cases hfs with
    | item hk hfs => exact h _ hk _ fs hfs

theorem unambiguous_obj {fs : List (String × Json)} :
    (obj fs).Unambiguous ↔ ∀ f ∈ fs, f.1 ∉ Expr.shapeTypes ∧ f.2.Unambiguous := by
  constructor
  · exact fun h f hf => ⟨h 0 fs .self f hf, fun n gs hgs => h (n + 1) gs (.field hf hgs)⟩
  · intro h n gs hgs
    cases hgs with
    | self => exact fun f hf => (h f hf).1
    | field hf hgs => exact (h _ hf).2 _ gs hgs

theorem unambiguous_of_depth (h : j.depth ≤ 1) : j.Unambiguous := by
  cases j with
  | arr items =>
    exact unambiguous_arr.mpr fun k hk =>
      absurd (depth_le_of_arr h k hk) (Nat.not_le_of_gt k.depth_pos)
  | obj fs =>
    exact unambiguous_obj.mpr fun f hf =>
      absurd (depth_le_of_obj h f hf) (Nat.not_le_of_gt f.2.depth_pos)
  | _ =>
    intro n fs hfs
    cases hfs

end Json

namespace Table

variable {fs : List (String × Json)} {es ds : List (Label × Expr)}

/-- A struct of shapes and the object behind it declare, for each field, its shape and then its
value. -/
theorem forall₂_shaped (hlabels : es.map (·.1) = fs.map fun f => .regular f.1)
    (hes : List.Forall₂ (fun e f => Expr.Suits e.2 f.2) es fs)
    (hds : List.Forall₂ Conjunct.Declares fs ds) (hdistinct : (ds.map (·.1)).Nodup) (n s s' : Nat) :
    List.Forall₂ (fun e f => e.1 = .regular f.1 ∧
        ∃ x d, e.2 = [.of x n false, d] ∧ Expr.Suits x f.2 ∧ d.Writes f.2)
      (Table.declareParts [] n [⟨es, s, false⟩, ⟨ds, s', false⟩]) fs := by
  have hsame : es.map (·.1) = ds.map (·.1) := by
    rw [hlabels, ← List.forall₂_eq_eq_eq, List.forall₂_map_left_iff, List.forall₂_map_right_iff]
    exact hds.imp fun _ _ hd => hd.1.symm
  have hfirst : Table.declareAll [] n false es = es.map fun e => (e.1, [.of e.2 n false]) := by
    rw [declareAll_eq [] n false (hsame ▸ hdistinct), List.map_nil, List.nil_append]
    exact congrArg (List.map _) (List.filter_eq_self.mpr fun e _ => rfl)
  have hall : (Table.declareAll [] n false es).labels = ds.map (·.1) := by
    rw [hfirst, labels, List.map_map, ← hsame]
    rfl
  have hnone : ds.filter (·.1 ∉ ds.map (·.1)) = [] := by
    rw [List.filter_eq_nil_iff]
    intro d hd h
    exact of_decide_eq_true h (List.mem_map_of_mem hd)
  have hinj : (fs.map fun f => Label.regular f.1).Nodup := by
    rw [← hlabels, hsame]
    exact hdistinct
  have hnames : List.Forall₂ (fun e f => e.1 = .regular f.1) es fs := by
    rwa [← List.forall₂_eq_eq_eq, List.forall₂_map_left_iff, List.forall₂_map_right_iff] at hlabels
  show List.Forall₂ _ ((Table.declareAll [] n false es).declareAll (n + 1) false ds) fs
  rw [declareAll_eq _ _ _ hdistinct, hall, hnone, hfirst, List.map_map, List.map_nil,
    List.append_nil, List.forall₂_map_left_iff]
  refine List.forall₂_iff_get.mpr ⟨hes.length_eq, fun i hi hi' => ?_⟩
  have hf : fs[i] ∈ fs := List.getElem_mem hi'
  have hlabel : es[i].1 = .regular fs[i].1 := (List.forall₂_iff_get.mp hnames).2 i hi hi'
  refine ⟨hlabel, ?_⟩
  dsimp only [Function.comp, List.get_eq_getElem]
  rw [hlabel]
  rcases lookup_or_filter hds hdistinct fs[i].1 with ⟨hno, -⟩ | ⟨k, d, hk, hd, hwrites⟩
  · have hsome := (mem_labels_iff hds fs[i].1).mp (by
      rw [← hsame, hlabels]
      exact List.mem_map_of_mem hf)
    rw [hno] at hsome
    cases hsome
  · have hfield : (fs[i].1, k) = fs[i] :=
      List.inj_on_of_nodup_map hinj (Json.mem_of_lookup hk) hf rfl
    obtain rfl : k = fs[i].2 := congrArg Prod.snd hfield
    rw [hd]
    exact ⟨_, _, rfl, (List.forall₂_iff_get.mp hes).2 i hi hi', hwrites.2 (n + 1)⟩

end Table

/-! ## Vertices of data behind its shape -/

namespace Arena

variable {a b : Arena} {own : Nat → Prop} {left n s t v w : Nat} {j : Json}

def Typed (a : Arena) (s : Nat) : Prop :=
  ∀ name ∈ Expr.shapeTypes, a.Outside (.regular name) s ∧ a.Rootless (.regular name)

theorem Typed.intact (h : a.Typed s) (hi : Intact own a b)
    (hown : ∀ u, own u → (a.vertex u).stage ≠ .done) :
    b.Typed s :=
  fun name hn => ⟨(h name hn).1.intact hi, (h name hn).2.intact hi hown⟩

/-- A struct that declares none of the type names leaves them to what is around it. -/
theorem Typed.within {p : Nat} {es : List (Label × Expr)} (h : a.Typed p) (hs : s < a.scopes.size)
    (hscope : a.scope s = .struct p (es.map Decl.required) v) (hp : p < s)
    (hes : ∀ name ∈ Expr.shapeTypes, .regular name ∉ es.map (·.1)) : a.Typed s :=
  fun name hn => ⟨.within hs hscope (Decl.any_declares_required es (hes name hn)) hp (h name hn).1,
    (h name hn).2⟩

/-- No struct around a scope of the vertex declares a type name of shapes, and neither does the
root. If the vertex is the root itself, it has no fields yet. -/
def Reads (a : Arena) (v s : Nat) : Prop :=
  ∀ name ∈ Expr.shapeTypes, a.Outside (.regular name) s ∧ (v = root ∨ a.Rootless (.regular name))

theorem Typed.reads (h : a.Typed s) (v : Nat) : a.Reads v s :=
  fun name hn => ⟨(h name hn).1, .inr (h name hn).2⟩

/-- A pending vertex that the shape of host data is written for, and then the data. It is nested no
deeper than `left` levels. -/
structure Shaped (a : Arena) (left s v : Nat) (j : Json) : Prop where
  lt : v < a.vertices.size
  fresh : ∃ parent paths x d, a.vertex v = .fresh parent paths [.of x s false, d] ∧ Expr.Suits x j ∧
    d.Writes j ∧ a.hasFillsBelow paths = false
  depth : j.depth ≤ left
  unambiguous : j.Unambiguous

theorem Shaped.intact (h : a.Shaped left s v j) (hi : Intact own a b) (hv : ¬ own v) :
    b.Shaped left s v j := by
  obtain ⟨parent, paths, x, d, hvertex, hx, hd, hfills⟩ := h.fresh
  exact ⟨Nat.lt_of_lt_of_le h.lt hi.size, ⟨parent, paths, x, d, (hi.vertex h.lt hv).trans hvertex, hx, hd,
    (hi.hasFillsBelow paths).trans hfills⟩, h.depth, h.unambiguous⟩

theorem Shaped.stage (h : a.Shaped left s v j) : (a.vertex v).stage = .pending := by
  obtain ⟨parent, paths, x, d, hv, -⟩ := h.fresh
  rw [hv]
  rfl

theorem Shaped.canonical (h : a.Shaped left s v j) : j.canonical = true := by
  obtain ⟨parent, paths, x, d, -, -, hd, -⟩ := h.fresh
  exact hd.canonical

/-- Type names stand for types still when a pending vertex has been processed. -/
theorem Shaped.typed (h : a.Shaped left s v j) (ht : a.Typed t) (hi : Intact (· = v) a b) :
    b.Typed t := by
  apply ht.intact hi
  rw [forall_eq, h.stage]
  exact Stage.noConfusion

/-- The vertex is done with the data. Parts of lists and structs have shapes of their own. -/
inductive Fitted (a : Arena) (left n w : Nat) : Json → Prop
  | shows {j : Json} : a.Shows n w j (j.toVal []) → Fitted a left n w j
  | null : a.Plain w (.atom .null) → Fitted a left n w .null
  | list {items : List Json} (s : Nat) :
  a.Settled w → (a.vertex w).val = .ofKinds .ofList → a.Typed s →
    List.Forall₂ (a.Shaped left s) (a.vertex w).elems items → Spread n (a.vertex w).elems →
    Fitted a left n w (.arr items)
  | struct {fs : List (String × Json)} (s : Nat) :
  a.Settled w → (a.vertex w).val = .ofKinds .ofStruct →
    a.Typed s → List.Forall₂ (fun e f => e.1 = .regular f.1 ∧ a.Shaped left s e.2 f.2)
      (a.vertex w).fields fs →
    Spread n ((a.vertex w).fields.map (·.2)) → Fitted a left n w (.obj fs)

theorem Fitted.stage (h : a.Fitted left n w j) : (a.vertex w).stage = .done := by
  cases h with
  | shows h => exact h.stage
  | null h => exact h.stage
  | list s h => exact h.stage
  | struct s h => exact h.stage

theorem Fitted.forward (h : a.Fitted left n w j) : (a.vertex w).forward = none := by
  cases h with
  | shows h => exact h.forward
  | null h => exact h.forward
  | list s h => exact h.forward
  | struct s h => exact h.forward

end Arena

namespace Eval

variable {process : Nat → Eval Unit} {a b : Arena} {c d : Conjunct} {j : Json}
  {left levels n s v w : Nat}

/-! ## Processing -/

/-- A type name stands for its type while the vertex is being processed. -/
theorem lookupName_begin {t : TypeName} (known : t.name ∈ Expr.shapeTypes) (h : a.Shaped left s v j)
    (hs : a.Reads v s) :
    (a.begin v).lookupName t.name s = .ok (.val (.constraint t.constraint)) := by
  have hlabel := Expr.ofIdent_of_mem_shapeTypes t.name known
  obtain ⟨houtside, hroot⟩ := hs t.name known
  refine lookupName_of_arc? (hlabel ▸ houtside.intact (intact_begin a v)) ?_ t.ofTypeName?_name
  rw [hlabel]
  rcases hroot with rfl | hroot
  · obtain ⟨parent, paths, x, d, hv, -⟩ := h.fresh
    have hstart : (a.begin root).vertex root = { a.vertex root with stage := .processing } :=
      vertex_begin h.lt
    rw [follow_of_forward_eq_none (by rw [hstart, hv]; rfl), hstart, hv]
    rfl
  · refine (hroot.intact (intact_begin a v) ?_).arc?
    rw [forall_eq, h.stage]
    exact Stage.noConfusion

theorem addConjunct_type {t : TypeName} (hc : c.source = .expr (.ident t.name))
    (h : a.lookupName t.name c.scope = .ok (.val (.constraint t.constraint))) :
    addConjunct process v c a = (.keep c, a.modify v (·.meet (.constraint t.constraint))) := by
  have hresolve : (resolve process c.scope (.ident t.name)).run a =
      (.ok (.val (.constraint t.constraint)), a) := by
    show (Attempt.ofExcept (a.lookupName t.name c.scope)).run a = _
    rw [h]
    rfl
  rw [addConjunct_of_expr hc]
  exact addReference_of_val hresolve

/-- Host data takes its form behind a conjunct that meets the value with what the data keeps. -/
theorem exists_shows_behind {parent : Option Nat} {paths : List Path} {y : Val} (levels : Nat)
    (hlt : v < a.vertices.size) (hv : a.vertex v = .fresh parent paths [c, d]) (hd : d.Writes j)
    (hfills : a.hasFillsBelow paths = false)
    (hfirst : addConjunct (processAt levels) v c (a.begin v) = (.keep c, b))
    (hab : Intact (· = v) (a.begin v) b) (hb : b.vertex v = ((a.begin v).vertex v).meet y)
    (hkeeps : (Val.top.meet y).meet (j.toVal []) = j.toVal []) :
    ∃ e, processAt (levels + 1) v a = ((), e) ∧ Intact (· = v) a e ∧
      e.Shows a.vertices.size v j (j.toVal []) := by
  have hs : (a.vertex v).stage = .pending := by rw [hv]; rfl
  have hstart : (a.begin v).vertex v = { a.vertex v with stage := .processing } := vertex_begin hlt
  have has := intact_begin a v
  have hbv : b.vertex v =
      { Vertex.fresh parent paths [c, d] with stage := .processing, val := Val.top.meet y } := by
    rw [hb, hstart, hv]
    rfl
  have hltb : v < b.vertices.size := Nat.lt_of_lt_of_le hlt (has.trans hab).size
  obtain ⟨e, hsecond, hbe, he, hlaid⟩ :=
    exists_laid (processAt levels) (has.trans hab).size hd.spells hltb
    (by rw [hbv]; rfl) (by rw [hbv]; rfl) (by rw [hbv, (has.trans hab).hasFillsBelow]; exact hfills)
  have hae := (has.trans hab).trans hbe
  have hev : e.vertex v = { Vertex.fresh parent paths [c, d] with
      stage := .processing, val := j.toVal [], arcs := (e.vertex v).arcs, lists :=
        (e.vertex v).lists } := by
    rw [he, hbv]
    simp only [Vertex.meet, hkeeps]
  have hrounds :
      addRounds (processAt levels) v (roundLimit (a.begin v)) ((a.begin v).vertex v).seeds
      (a.begin v) = (([c, d], []), e) := by
    obtain ⟨rounds, hr⟩ : ∃ rounds, roundLimit (a.begin v) = rounds + 1 :=
      Nat.exists_eq_add_one.mpr (Nat.mul_pos (by decide) (Nat.succ_pos _))
    rw [hr, hstart, hv]
    show addRounds (processAt levels) v (rounds + 1) [c, d] (a.begin v) = _
    rw [addRounds_cons rounds [d] hfirst rfl rfl, addRounds_cons rounds [] hsecond rfl rfl,
      addRounds_nil]
    rfl
  obtain ⟨f, hrun, hef, hshows, -⟩ := exists_shows_of_rounds hs hrounds hae.size (by rw [hev]) hlaid
    (by rw [hev]; rfl) (by rw [hae.hasFillsBelow, hev]; exact hfills) hd.canonical
  rw [show (e.vertex v).val = j.toVal [] by rw [hev]] at hshows
  exact ⟨f, hrun, hae.trans hef, hshows⟩

/-- Null behind a choice that has null as its default. -/
theorem exists_null {parent : Option Nat} {paths : List Path} (levels : Nat)
    (hlt : v < a.vertices.size) (hv : a.vertex v = .fresh parent paths [c, d])
    (hc : c.source = .expr (.binary .disjoin (.marked .null) .top)) (hd : d.source = .expr .null)
    (hfills : a.hasFillsBelow paths = false) :
    ∃ b w, settle (processAt (levels + 2)) v a = (w, b) ∧ Intact (· = v) a b ∧
      b.Plain w (.atom .null) := by
  let t : Condition := .equal (.plain .null)
  let o : Offer := ⟨[d], [t], c, [⟨t, true⟩, ⟨.any, false⟩]⟩
  let s := a.begin v
  let b := s.modify v (·.meetAll t.vals)
  have hs : (a.vertex v).stage = .pending := by rw [hv]; rfl
  have hstart : s.vertex v = { a.vertex v with stage := .processing } := vertex_begin hlt
  have hab : Intact (· = v) a b := (intact_begin a v).trans (intact_modify_self s v _)
  have hb : b.vertex v =
      { Vertex.fresh parent paths [c, d] with stage := .processing, val := .atom .null } := by
    have hmodified : b.vertex v = (s.vertex v).meetAll t.vals :=
      vertex_modify _ (by simpa [s] using hlt)
    rw [hmodified, hstart, hv]
    rfl
  have hclear (e : Arena) (i : Nat) {u : Condition} (hu : u.names = []) : e.Clear i u :=
    fun name hn => by
    rw [hu] at hn
    cases hn
  have hrounds : addRounds (processAt (levels + 1)) v (roundLimit s) (s.vertex v).seeds s =
      (([d], [o.disjuncts.map o.alternative]), b) := by
    obtain ⟨rounds, hr⟩ : ∃ rounds, roundLimit s = rounds + 1 :=
      Nat.exists_eq_add_one.mpr (Nat.mul_pos (by decide) (Nat.succ_pos _))
    have hround : [c, d].mapM (addConjunct (processAt (levels + 1)) v) s =
        ([⟨[], [], [o.disjuncts.map o.alternative]⟩, .keep d], b) := by
      rw [run_mapM_cons, addConjunct_choice _ hc rfl]
      dsimp only
      rw [run_mapM_cons, addConjunct_condition _ v (t := t) hd (hclear s _ rfl)]
      rfl
    rw [hr, hstart, hv]
    exact addRounds_of_mapM hround rfl rfl rfl (addRounds_nil rounds)
  have hposes : b.Poses o v := by
    refine ⟨by rw [hb], by rw [hb]; rfl, .cons ⟨hd, hclear b _ rfl⟩ .nil, ?_, ?_, ?_⟩
    · exact List.forall_mem_cons.mpr ⟨hclear b _ rfl, List.forall_mem_singleton.mpr (hclear b _ rfl)⟩
    · have hheight : t.height ≤ maxDepth := by decide
      exact List.forall_mem_cons.mpr ⟨List.forall_mem_cons.mpr ⟨hheight, List.forall_mem_singleton.mpr hheight⟩,
        List.forall_mem_singleton.mpr (List.forall_mem_cons.mpr
          ⟨hheight, List.forall_mem_singleton.mpr (by decide : Condition.any.height ≤ maxDepth)⟩)⟩
    · rw [hab.hasFillsBelow, hb]
      exact hfills
  obtain ⟨e, hdecide, hbe, hdecided⟩ :=
    exists_decision levels hposes (by decide : 2 ≤ maxCombinations)
    (by rw [hb]; rfl) (by rw [hb]; rfl)
  have hunify := unifySeeds_of_disjunctions hrounds (List.cons_ne_nil _ _) (by rw [hb]; rfl)
  have hrun := processAt_of_unifySeeds hs (hunify.trans hdecide)
  have hval : o.val ⟨t, true⟩ = .atom .null :=
    Condition.narrow_flat (List.forall_mem_cons.mpr ⟨rfl, List.forall_mem_singleton.mpr rfl⟩)
      (by decide : 0 < maxDepth) .top
  have hcandidates : o.candidates = [⟨t, true⟩] := by
    have hsurvives : o.survives ⟨t, true⟩ = true := by rw [Offer.survives, hval]; rfl
    rw [Offer.candidates]
    cases hany : o.survives ⟨.any, false⟩ <;> simp [o, Disjunct.preferred, hsurvives, hany]
  cases hdecided with
  | refused hnone => rw [hcandidates] at hnone; cases hnone
  | undecided several => rw [hcandidates] at several; exact absurd several (Nat.lt_irrefl 1)
  | @settled d w first one settles stand =>
    rw [hcandidates] at first
    obtain rfl := Option.some.inj first
    have hplain := plain_stand stand
    rw [hval] at hplain
    exact ⟨e.conclude v, w, settle_of_settlesTo hrun settles,
      (hab.trans hbe).trans (intact_conclude e v), hplain⟩

/-- Where a vertex reads type names, they stand for types when it is done without such fields. -/
theorem typed_of_reads (h : a.Reads v s) (hv : (a.vertex v).stage = .pending)
    (hi : Intact (· = v) a b) (hb : b.Settled v)
    (harcs : ∀ name ∈ Expr.shapeTypes, (b.vertex v).arc? (.regular name) = none) :
    b.Typed s := by
  intro name hname
  obtain ⟨houtside, hroot⟩ := h name hname
  refine ⟨houtside.intact hi, ?_⟩
  rcases hroot with rfl | hroot
  · exact ⟨root, .here hb.stage hb.forward, harcs name hname⟩
  · apply hroot.intact hi
    rw [forall_eq, hv]
    exact Stage.noConfusion

/-- An array behind an open list. -/
theorem exists_fitted_list {parent : Option Nat} {paths : List Path} {items : List Json}
    (levels : Nat) (hlt : v < a.vertices.size)
    (hv : a.vertex v = .fresh parent paths [.of (.list [] (some .top)) s false, d])
    (hd : d.Writes (.arr items)) (hfills : a.hasFillsBelow paths = false) (hs : a.Reads v s)
    (hdepth : (Json.arr items).depth ≤ left + 1) (hj : (Json.arr items).Unambiguous) :
    ∃ b, processAt (levels + 1) v a = ((), b) ∧ Intact (· = v) a b ∧
      b.Fitted left a.vertices.size v (.arr items) := by
  obtain ⟨ys, hys, hitems⟩ := hd.isList
  let ps : List ListPart := [⟨[], some .top, s, false⟩, ⟨ys, none, d.scope, false⟩]
  let b := a.listed v ps ys.length
  have hlength : agreedLength ps = .ok ys.length := by simp [ps, agreedLength]
  have hrun : processAt (levels + 1) v a = ((), b) :=
    processAt_lists levels hlt hv (.cons ⟨rfl, rfl, rfl⟩ (.cons hys .nil))
      (List.cons_ne_nil _ _) hlength
      (by rw [fillSelectors_of_hasFillsBelow hfills]; exact fun _ hs => absurd hs List.not_mem_nil)
  have hab : Intact (· = v) a b := intact_listed a v ps ys.length
  have hb : b.vertex v = _ := vertex_listed_self ps ys.length hlt
  have hpending : (a.vertex v).stage = .pending := by rw [hv]; rfl
  have hsettled : b.Settled v := by
    refine ⟨by rw [hb], ?_, ?_⟩
    all_goals rw [hb, hv]; rfl
  refine ⟨b, hrun, hab, .list s hsettled (by rw [hb]) (typed_of_reads hs hpending hab hsettled ?_) ?_ ?_⟩
  · intro name _
    rw [hb, hv]
    rfl
  · rw [hb]
    refine List.forall₂_iff_get.mpr ⟨by simp [hitems.length_eq], fun k hk hk' => ?_⟩
    have hky : k < ys.length := by simpa using hk
    simp only [List.get_eq_getElem, List.getElem_range', Nat.one_mul]
    have hmem : items[k] ∈ items := List.getElem_mem hk'
    refine ⟨by simp [b]; omega, ⟨some v, _, .top, .of ys[k] d.scope false, ?_, .any _,
      (List.forall₂_iff_get.mp hitems).2 k hk' hky d.scope,
      (hab.hasFillsBelow _).trans (hasFillsBelow_parts hfills (.index k))⟩,
      Json.depth_le_of_arr hdepth _ hmem, Json.unambiguous_arr.mp hj _ hmem⟩
    rw [vertex_listed_element hlt hky, elementVertex, hv]
    simp [Vertex.fresh, fillsAt_parts hfills, ListPart.conjunct?, hky, ps]
  · rw [hb]
    exact spread_range' _ _

/-- An object behind a struct of shapes. -/
theorem exists_fitted_struct {parent : Option Nat} {paths : List Path} {fs : List (String × Json)}
    {es : List (Label × Expr)} (levels : Nat) (hlt : v < a.vertices.size)
    (hv : a.vertex v = .fresh parent paths [.of (.struct (es.map Decl.required)) s false, d])
    (hlabels : es.map (·.1) = fs.map fun f => .regular f.1)
    (hes : List.Forall₂ (fun e f => Expr.Suits e.2 f.2) es fs) (hd : d.Writes (.obj fs))
    (hfills : a.hasFillsBelow paths = false) (hs : a.Reads v s)
    (hdepth : (Json.obj fs).depth ≤ left + 1) (hj : (Json.obj fs).Unambiguous) :
    ∃ b, processAt (levels + 1) v a = ((), b) ∧ Intact (· = v) a b ∧
      b.Fitted left a.vertices.size v (.obj fs) := by
  let n := a.scopes.size
  obtain ⟨ds, hdds, hgs⟩ := hd.isFields
  obtain ⟨t, ht⟩ : ∃ t, t = Table.declareParts [] n [⟨es, s, false⟩, ⟨ds, d.scope, false⟩] :=
    ⟨_, rfl⟩
  have hparts :=
    Table.forall₂_shaped hlabels hes hgs (Conjunct.nodup_of_declares hgs hd.canonical) n s d.scope
  rw [← ht] at hparts
  have hseeds : a.vertex v =
      { Vertex.fresh parent paths ([.of (.struct (es.map Decl.required)) s false, d] ++ []) with copied := [] } := hv
  obtain ⟨b, hrun, hb⟩ :=
    exists_assembled levels hlt hseeds (.cons ⟨rfl, rfl, rfl, rfl⟩ (.cons hdds .nil))
    (List.cons_ne_nil _ _) (fun _ hc => absurd hc List.not_mem_nil) ht
    (by rw [fillSelectors_of_hasFillsBelow hfills]; exact fun _ hs => absurd hs List.not_mem_nil)
    (by simp)
  have hpending : (a.vertex v).stage = .pending := by rw [hv]; rfl
  have hsettled : b.Settled v := by
    refine ⟨by rw [hb.self], ?_, ?_⟩
    all_goals rw [hb.self, hv]; rfl
  have hfields :
      (b.vertex v).fields = (t.map (·.1)).zip (List.range' a.vertices.size t.length) := by
    rw [fields_of_arcsFrom (by rw [hb.self]), Table.labels, List.zipIdx_eq_zip_range',
      List.length_map]
  have hother {name : String} (hname : name ∈ Expr.shapeTypes) :
      Label.regular name ∉ fs.map fun f => Label.regular f.1 := by
    intro hl
    obtain ⟨f, hf, hl⟩ := List.mem_map.mp hl
    exact (Json.unambiguous_obj.mp hj f hf).1 (Label.regular.inj hl ▸ hname)
  have htable : t.labels = fs.map fun f => .regular f.1 := by
    rw [Table.labels, ← List.forall₂_eq_eq_eq, List.forall₂_map_left_iff,
      List.forall₂_map_right_iff]
    exact hparts.imp fun _ _ he => he.1
  have htyped : b.Typed s := by
    refine typed_of_reads hs hpending hb.intact hsettled fun name hname => ?_
    rw [Vertex.arc?, hb.self]
    exact lookup_arcsFrom_of_notMem (htable ▸ hother hname) _
  have hscope : b.scope n = .struct s (es.map Decl.required) v := hb.scope (i := 0) Nat.two_pos
  refine ⟨b, hrun, hb.intact, .struct n hsettled (by rw [hb.self]) (htyped.within ?_ hscope ?_ ?_) ?_ ?_⟩
  · rw [hb.scopes]
    exact Nat.lt_add_of_pos_right Nat.two_pos
  · exact (hs "bool" (by decide)).1.lt_size
  · intro name hname
    exact hlabels ▸ hother hname
  · rw [hfields]
    obtain ⟨hlength, hget⟩ := List.forall₂_iff_get.mp hparts
    refine List.forall₂_iff_get.mpr ⟨by simpa using hlength, fun k hk hk' => ?_⟩
    have hkt : k < t.length := by omega
    obtain ⟨hlabel, x, e, hseeds, hx, he⟩ := hget k hkt hk'
    simp only [List.get_eq_getElem, List.getElem_zip, List.getElem_range', Nat.one_mul,
      List.getElem_map] at hlabel hseeds hx he ⊢
    have hmem : fs[k] ∈ fs := List.getElem_mem hk'
    refine ⟨hlabel, by rw [hb.size]; omega, ⟨some v, _, x, e, ?_, hx, he,
      (hb.intact.hasFillsBelow _).trans (hasFillsBelow_parts hfills (.label t[k].1))⟩,
      Json.depth_le_of_obj hdepth _ hmem, (Json.unambiguous_obj.mp hj _ hmem).2⟩
    rw [hb.part hkt, partVertex, hv, hseeds]
    simp only [Vertex.fresh, fillsAt_parts hfills, List.nil_append]
  · rw [hfields, List.map_snd_zip (by simp)]
    exact spread_range' _ _

theorem exists_fitted (levels : Nat) (h : a.Shaped (left + 1) s v j) (hs : a.Reads v s) :
    ∃ b w, settle (processAt (levels + 2)) v a = (w, b) ∧ Intact (· = v) a b ∧
      b.Fitted left a.vertices.size w j := by
  obtain ⟨parent, paths, x, d, hv, hx, hd, hfills⟩ := h.fresh
  have hown {b : Arena} (hrun : processAt (levels + 2) v a = ((), b)) (hab : Intact (· = v) a b)
      (hb : b.Fitted left a.vertices.size v j) :
      ∃ b w, settle (processAt (levels + 2)) v a = (w, b) ∧
        Intact (· = v) a b ∧ b.Fitted left a.vertices.size w j :=
    ⟨b, v, settle_of_forward hrun hb.forward, hab, hb⟩
  have hlts : v < (a.begin v).vertices.size := by simpa using h.lt
  cases hx with
  | any =>
    have hself : (a.begin v).vertex v = ((a.begin v).vertex v).meet .top := by
      rw [vertex_begin h.lt, hv]
      rfl
    obtain ⟨b, hrun, hab, hb⟩ :=
      exists_shows_behind (levels + 1) h.lt hv hd hfills rfl (.refl _ _) hself
      j.top_meet_toVal
    exact hown hrun hab (.shows hb)
  | type t known keeps =>
    obtain ⟨b, hrun, hab, hb⟩ := exists_shows_behind (levels + 1) h.lt hv hd hfills
      (addConjunct_type rfl (lookupName_begin known h hs)) (intact_modify_self _ v _)
      (vertex_modify _ hlts) keeps
    exact hown hrun hab (.shows hb)
  | null =>
    have hnull : d.source = .expr .null := by
      obtain ⟨left, x, hx, hd⟩ := hd.expr
      cases left with
      | zero => cases hx
      | succ left => cases hx; rw [hd]; rfl
    obtain ⟨b, w, hsettle, hab, hb⟩ := exists_null levels h.lt hv rfl hnull hfills
    exact ⟨b, w, hsettle, hab, .null hb⟩
  | list items =>
    obtain ⟨b, hrun, hab, hb⟩ :=
      exists_fitted_list (levels + 1) h.lt hv hd hfills hs h.depth h.unambiguous
    exact hown hrun hab hb
  | empty =>
    let b := ((a.begin v).modify v (·.meet (.ofKinds .ofStruct))).addScope (.struct s [.ellipsis] v)
    obtain ⟨e, hrun, hae, he⟩ :=
      exists_shows_behind (b := b.2) (y := .ofKinds .ofStruct) (levels + 1) h.lt hv hd
      hfills rfl ((intact_modify_self _ v _).trans (intact_addScope _ _ _))
        (vertex_modify _ hlts) rfl
    exact hown hrun hae (.shows he)
  | fields hlabels hes =>
    rw [List.forall₂_map_left_iff, List.forall₂_map_right_iff] at hes
    obtain ⟨b, hrun, hab, hb⟩ := exists_fitted_struct (levels + 1) h.lt hv hlabels hes hd hfills hs
      h.depth h.unambiguous
    exact hown hrun hab hb

/-! ## Walking -/

theorem settle_of_fitted (levels : Nat) (h : b.Fitted left n w j) :
    settle (processAt levels) w b = (w, b) :=
  settle_of_forward (processAt_of_stage levels (by rw [h.stage]; decide)) h.forward

/-- Export gives the data back. -/
theorem exportAt_of_shaped (levels left : Nat) (h : a.Shaped left s v j) (hs : a.Reads v s) :
    ((exportAt (processAt (levels + 2)) left v).run a).1 = .ok j ∧
      Intact (· = v) a ((exportAt (processAt (levels + 2)) left v).run a).2 := by
  induction left generalizing a s v j with
  | zero => exact absurd h.depth (Nat.not_le_of_gt j.depth_pos)
  | succ left ih =>
    obtain ⟨b, w, hsettle, hab, hb⟩ := exists_fitted levels h hs
    have hagain := settle_of_fitted (levels + 2) hb
    rw [run_exportAt_of_settle (hsettle.trans hagain.symm)]
    have hpart (s : Nat) (a : Arena) (w : Nat) (k : Json) (ht : a.Typed s)
        (hk : a.Shaped left s w k) :
        ((exportAt (processAt (levels + 2)) left w).run a).2.Typed s ∧
          ((exportAt (processAt (levels + 2)) left w).run a).1 = .ok k ∧
          Intact (fun u => u = w ∨ False) a
            ((exportAt (processAt (levels + 2)) left w).run a).2 := by
      obtain ⟨hresult, hi⟩ := ih hk (ht.reads w)
      exact ⟨hk.typed ht hi, hresult, hi.mono fun u _ hu => .inl hu⟩
    have hstays (s : Nat) (a b : Arena) (w u : Nat) (k : Json) (hk : a.Shaped left s w k)
        (hi : Intact (fun v => v = u ∨ False) a b) (hne : w ≠ u) : b.Shaped left s w k :=
      hk.intact hi (by simpa using hne)
    cases hb with
    | shows hb =>
      obtain ⟨hresult, hi⟩ :=
        exportAt_of_shows (levels + 1) (left + 1) hagain hb h.canonical h.depth
      exact ⟨hresult, hab.trans_new (Intact.mono hi fun _ _ hu => hu.1)⟩
    | null hb =>
      rw [run_exportAt_of_atom hagain hb.val hb.pending hb.stage rfl]
      exact ⟨rfl, hab⟩
    | list s hb hval htyped helems hspread =>
      obtain ⟨-, hresult, hi⟩ :=
        Attempt.run_mapM_of_each id (fun _ => False) (hpart s) (hstays s) htyped helems
        (by simpa using hspread.nodup)
      rw [run_exportAt_of_list hagain hval hb.pending hb.stage, Attempt.run_bind_of_ok hresult]
      exact ⟨rfl, hab.trans_new (hi.mono fun u _ hu => hspread.le u (by simpa using hu))⟩
    | struct s hb hval htyped hfields hspread =>
      let R (a : Arena) (e : Label × Nat) (f : String × Json) : Prop :=
        e.1 = .regular f.1 ∧ a.Shaped left s e.2 f.2
      obtain ⟨-, hresult, hi⟩ := Attempt.run_mapM_of_each (R := R) Prod.snd (fun _ => False)
        (f := fun e => do return (e.1.display, ← exportAt (processAt (levels + 2)) left e.2))
        (fun a e f ht he => by
          obtain ⟨hlast, hk, hi⟩ := hpart s a e.2 f.2 ht he.2
          rw [Attempt.run_bind_of_ok hk, he.1]
          exact ⟨hlast, rfl, hi⟩)
        (fun a b e k f he hi hne => ⟨he.1, hstays s a b _ _ _ he.2 hi hne⟩) htyped
        hfields hspread.nodup
      have hregular := isRegular_of_forall₂ (hfields.imp fun _ _ he => he.1)
      have hcanonical := h.canonical
      rw [Json.canonical, Bool.and_eq_true] at hcanonical
      rw [run_exportAt_of_struct hagain hval hb.pending hb.stage, List.filter_eq_self.mpr hregular]
      have hrun := Attempt.run_bind_of_ok hresult fun fields => pure (Json.ofFields fields)
      refine ⟨(congrArg Prod.fst hrun).trans (congrArg Except.ok (Json.ofFields_of_ascending hcanonical.1)), ?_⟩
      rw [show (_ : _ × Arena).2 = _ from congrArg Prod.snd hrun]
      exact hab.trans_new (hi.mono fun u _ hu => hspread.le u (by simpa using hu))

/-- Validation finds nothing wrong, wherever a value is asked for. -/
theorem faultsAt_of_shaped (levels left : Nat) (concrete : Bool) (h : a.Shaped left s v j)
    (hs : a.Reads v s) : (faultsAt (processAt (levels + 2)) left concrete v a).1 = [] ∧
      Intact (· = v) a (faultsAt (processAt (levels + 2)) left concrete v a).2 := by
  induction left generalizing a s v j with
  | zero => exact absurd h.depth (Nat.not_le_of_gt j.depth_pos)
  | succ left ih =>
    obtain ⟨b, w, hsettle, hab, hb⟩ := exists_fitted levels h hs
    have hagain := settle_of_fitted (levels + 2) hb
    rw [faultsAt_of_settle concrete (hsettle.trans hagain.symm)]
    have hparts {s : Nat} {ws : List Nat} {ks : List Json} (htyped : b.Typed s)
        (hall : List.Forall₂ (b.Shaped left s) ws ks) (hspread : Spread a.vertices.size ws) :
        (ws.mapM (faultsAt (processAt (levels + 2)) left concrete) b).1.flatten = [] ∧
          Intact (· = v) a (ws.mapM (faultsAt (processAt (levels + 2)) left concrete) b).2 := by
      obtain ⟨-, hnone, hi⟩ := run_mapM_of_each (I := (·.Typed s)) (R := (·.Shaped left s))
        (Q := fun _ fs => fs = []) id (fun _ => False)
        (fun a w k ht hk => by
          obtain ⟨hresult, hi⟩ := ih hk (ht.reads w)
          exact ⟨hk.typed ht hi, hresult, hi.mono fun u _ hu => .inl hu⟩)
        (fun a b w u k hk hi hne => hk.intact hi (by simpa using hne)) htyped hall
        (by simpa using hspread.nodup)
      exact ⟨flatten_of_forall₂ hnone,
        hab.trans_new (hi.mono fun u _ hu => hspread.le u (by simpa using hu))⟩
    cases hb with
    | shows hb =>
      obtain ⟨hresult, hi⟩ := faultsAt_of_shows (levels + 1) (left + 1) concrete hagain hb h.depth
      exact ⟨hresult, hab.trans_new (Intact.mono hi fun _ _ hu => hu.1)⟩
    | null hb =>
      rw [faultsAt_of_atom hagain hb.val hb.pending]
      exact ⟨rfl, hab⟩
    | list s hb hval htyped helems hspread =>
      rw [faultsAt_of_list hagain hval hb.pending]
      exact hparts htyped helems hspread
    | @struct fs s hb hval htyped hfields hspread =>
      have hvalues :
          List.Forall₂ (b.Shaped left s) ((b.vertex w).fields.map (·.2)) (fs.map (·.2)) := by
        rw [List.forall₂_map_left_iff, List.forall₂_map_right_iff]
        exact hfields.imp fun _ _ he => he.2
      rw [faultsAt_of_regular hagain hval hb.pending (isRegular_of_forall₂ (hfields.imp fun _ _ he => he.1))]
      exact hparts htyped hvalues hspread

end Eval

end SchemaMock
