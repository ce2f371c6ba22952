import SchemaMock.Proofs.Eval.Alternatives
import SchemaMock.Proofs.Eval.Candidates

/-! # Selecting an alternative

Each alternative of a disjunction is tried at a vertex of its own, the next one, together with the
conditions that are kept in any case. A candidate takes the place of the vertex when it is the only
one, or when all of them are exported as the same data. Without candidates the vertex is bottom, and
otherwise it is left open.
-/

namespace SchemaMock

open Arena Eval

/-! ## Trying -/

namespace Arena

variable {a b : Arena} {o : Offer} {v : Nat}

/-- A vertex at which the disjunction is decided. -/
structure Poses (a : Arena) (o : Offer) (v : Nat) : Prop where
  stage : (a.vertex v).stage = .processing
  forward : (a.vertex v).forward = none
  kept : a.Conditions o.kept o.conditions
  clear : ∀ d ∈ o.disjuncts, a.Clear o.conjunct.scope d.condition
  heights : ∀ d ∈ o.disjuncts, ∀ t ∈ o.conditions ++ [d.condition], t.height ≤ maxDepth
  fills : a.hasFillsBelow (a.vertex v).paths = false

theorem Poses.lt (h : a.Poses o v) : v < a.vertices.size :=
  lt_size_of_stage (by rw [h.stage]; decide)

theorem Poses.intact (h : a.Poses o v) (hi : Intact (fun _ => False) a b) : b.Poses o v := by
  have hsame : b.vertex v = a.vertex v := hi.vertex h.lt not_false
  refine ⟨?_, ?_, h.kept.intact hi nofun, fun d hd => (h.clear d hd).intact hi nofun, h.heights, ?_⟩
  · rw [hsame]; exact h.stage
  · rw [hsame]; exact h.forward
  · rw [hsame, hi.hasFillsBelow]; exact h.fills

theorem Poses.withhold (h : a.Poses o v) (paths : List Path) : (a.withhold paths).Poses o v := by
  have hg : Grown none a (a.withhold paths) := grown_of_eq none rfl rfl
  exact ⟨h.stage, h.forward, h.kept.grown hg nofun, fun d hd => (h.clear d hd).grown hg nofun,
    h.heights, h.fills⟩

theorem Poses.conditions (h : a.Poses o v) {d : Disjunct} (hd : d ∈ o.disjuncts) :
    a.Conditions (o.seeds d) (o.conditions ++ [d.condition]) :=
  List.rel_append h.kept (.cons ⟨rfl, h.clear d hd⟩ .nil)

end Arena

namespace Eval

variable {a b : Arena} {o : Offer} {v left : Nat}

/-- Every alternative is tried at a stand-in of its own. -/
theorem exists_tryChoices (left : Nat) (h : a.Poses o v) {ds : List Disjunct}
    (hds : ds ⊆ o.disjuncts) :
    ∃ failures, tryChoices (processAt (left + 1)) v o.kept [o.disjuncts.map o.alternative]
        (ds.map fun d => [o.alternative d]) a =
      (((o.placed a.vertices.size ds).map o.survivor, failures),
        a.append (ds.map (o.stand (a.vertex v)))) ∧
      ∀ f ∈ failures, f.isIncomplete = false := by
  induction ds generalizing a with
  | nil => exact ⟨[], by rw [List.map_nil, List.map_nil, append_nil]; rfl, List.forall_mem_nil _⟩
  | cons d ds ih =>
    have hd : d ∈ o.disjuncts := hds List.mem_cons_self
    let b := a.append [o.stand (a.vertex v) d]
    have hab : Intact (fun _ => False) a b := intact_append _ a _
    have hbv : b.vertex v = a.vertex v := hab.vertex h.lt not_false
    have hsize : b.vertices.size = a.vertices.size + 1 := size_append a _
    obtain ⟨found, htry, hempty, hfound⟩ :=
      exists_tryChoice left h.stage h.forward (h.conditions hd)
      (h.heights d hd) h.fills
    obtain ⟨failures, hrest, hfailures⟩ :=
      ih (h.intact hab) fun e he => hds (List.mem_cons_of_mem d he)
    rw [hbv, hsize, append_append] at hrest
    have hdefault : isDefaultChoice [o.disjuncts.map o.alternative] [o.alternative d] =
        o.isDefault d := by
      simp [isDefaultChoice, Offer.isDefault, Offer.alternative, Function.comp_def]
    refine ⟨found ++ failures, ?_, fun f hf => (List.mem_append.mp hf).elim (hfound f) (hfailures f)⟩
    rw [List.map_cons, run_tryChoices]
    have hseeds : o.kept ++ [o.alternative d].map (·.conjunct) = o.seeds d := rfl
    have hfirst : tryChoice (processAt (left + 1)) v (o.seeds d) a =
        ((a.vertices.size, found), b) := htry
    dsimp only
    rw [hseeds, hfirst]
    dsimp only
    rw [hrest, hempty, hdefault]
    have hsurvives : (!(Condition.narrow maxDepth (o.conditions ++ [d.condition]) .top).isBottom) =
      o.survives d := rfl
    rw [hsurvives]
    cases hs : o.survives d with
    | true => simp [Offer.placed, List.zipIdx_cons, hs, Offer.survivor]
    | false => simp [Offer.placed, List.zipIdx_cons, hs]

/-! ## Deciding -/

/-- Conditions without operands narrow the vertex, and stay. -/
theorem run_flat (process : Nat → Eval Unit) {cs : List Conjunct} {ts : List Condition}
    (h : a.Conditions cs ts) (hs : (a.vertex v).stage = .processing)
    (hflat : ∀ t ∈ ts, t.operands = []) :
    cs.mapM (addConjunct process v) a =
      (cs.map .keep, a.modify v (·.meetAll (ts.flatMap Condition.vals))) := by
  induction cs generalizing a ts with
  | nil => cases h; exact congrArg (Prod.mk _) (modify_eq_self rfl).symm
  | cons c cs ih =>
    obtain ⟨t, ts, ⟨hc, ht⟩, hcs, rfl⟩ := List.forall₂_cons_left_iff.mp h
    rw [List.forall_mem_cons] at hflat
    let b := a.modify v (·.meetAll t.vals)
    have hlt : v < a.vertices.size := lt_size_of_stage (by rw [hs]; decide)
    have hb : b.vertex v = (a.vertex v).meetAll t.vals := vertex_modify _ hlt
    have hadd : addConjunct process v c a = (.keep c, b) := by
      rw [addConjunct_condition process v hc ht, hflat.1]
      rfl
    have hrest : b.Conditions cs ts := Conditions.grown hcs (grown_meetAll a v t.vals) (by
      rintro u ⟨⟩
      rw [hs]
      decide)
    rw [run_mapM_cons, hadd]
    dsimp only
    rw [ih hrest (by rw [hb]; exact hs) hflat.2, modify_modify, List.flatMap_cons]
    simp only [Vertex.meetAll_append]
    rfl

theorem addConjunct_choice (process : Nat → Eval Unit) {c : Conjunct} {x : Expr}
    (hc : c.source = .expr x) (hx : x.isChoice = true) :
    addConjunct process v c a = (⟨[], [], [c.alternatives x]⟩, a) := by
  rw [addConjunct_of_expr hc]
  cases x with
  | marked y => rfl
  | binary op l r => cases op <;> first | rfl | cases hx
  | _ => cases hx

end Eval

namespace Arena

/-- A vertex with a disjunction that is yet to be processed. -/
structure Offered (a : Arena) (o : Offer) (v : Nat) : Prop where
  lt : v < a.vertices.size
  fresh : ∃ parent paths, a.vertex v = .fresh parent paths (o.kept ++ [o.conjunct]) ∧
    a.hasFillsBelow paths = false
  choice : ∃ x, o.conjunct.source = .expr x ∧ x.isChoice = true ∧ x.Offers o.disjuncts
  kept : a.Conditions o.kept o.conditions
  flat : ∀ t ∈ o.conditions, t.operands = []
  consistent : ((o.conditions.flatMap Condition.vals).foldl Val.meet .top).isBottom = false
  clear : ∀ d ∈ o.disjuncts, a.Clear o.conjunct.scope d.condition
  heights : ∀ d ∈ o.disjuncts, ∀ t ∈ o.conditions ++ [d.condition], t.height ≤ maxDepth
  count : o.disjuncts.length ≤ maxCombinations

theorem Offered.stage {a : Arena} {o : Offer} {v : Nat} (h : a.Offered o v) :
    (a.vertex v).stage = .pending := by
  obtain ⟨parent, paths, hv, -⟩ := h.fresh
  rw [hv]
  rfl

end Arena

namespace Eval

variable {a b : Arena} {o : Offer} {v left : Nat}

/-- The rounds of a vertex end with a disjunction to be decided. -/
theorem exists_posed (left : Nat) (h : a.Offered o v) :
    ∃ b, addRounds (processAt left) v (roundLimit (a.begin v))
      ((a.begin v).vertex v).seeds (a.begin v) =
        ((o.kept, [o.disjuncts.map o.alternative]), b) ∧ Intact (· = v) a b ∧ b.Poses o v ∧
      b.vertex v = { a.vertex v with
        stage := .processing, val :=
  (o.conditions.flatMap Condition.vals).foldl Val.meet .top } := by
  obtain ⟨parent, paths, hv, hfills⟩ := h.fresh
  obtain ⟨x, hc, hx, hoffers⟩ := h.choice
  have hs := h.stage
  let s := a.begin v
  let ws := o.conditions.flatMap Condition.vals
  let b := s.modify v (·.meetAll ws)
  have hstart : s.vertex v = { a.vertex v with stage := .processing } := vertex_begin h.lt
  have hlts : v < s.vertices.size := by simpa [s] using h.lt
  have hg : Grown (some v) s b := grown_meetAll s v ws
  have hown : ∀ u, some v = some u → (s.vertex u).stage ≠ .done := by
    rintro u ⟨⟩
    rw [hstart]
    exact Stage.noConfusion
  have hbegin {c : Nat} {t : Condition} (h : a.Clear c t) : b.Clear c t :=
    (h.grown (grown_begin hs) nofun).grown hg hown
  have hb : b.vertex v = { a.vertex v with
      stage := .processing, val := ws.foldl Val.meet .top } := by
    have hmodified : b.vertex v = (s.vertex v).meetAll ws := vertex_modify _ hlts
    rw [hmodified, hstart, hv]
    rfl
  have hab : Intact (· = v) a b := (intact_begin a v).trans (intact_modify_self s v _)
  refine ⟨b, ?_, hab, ⟨?_, ?_, ?_, fun d hd => hbegin (h.clear d hd), h.heights, ?_⟩, hb⟩
  · obtain ⟨rounds, hr⟩ : ∃ rounds, roundLimit s = rounds + 1 :=
      Nat.exists_eq_add_one.mpr (Nat.mul_pos (by decide) (Nat.succ_pos _))
    have hseeds : (s.vertex v).seeds = o.kept ++ [o.conjunct] := by rw [hstart, hv]; rfl
    have halternatives : o.conjunct.alternatives x = o.disjuncts.map o.alternative := by
      rw [Conjunct.alternatives, hoffers, List.map_map]
      rfl
    have hround : (o.kept ++ [o.conjunct]).mapM (addConjunct (processAt left) v) s =
        (o.kept.map .keep ++ [⟨[], [], [o.disjuncts.map o.alternative]⟩], b) := by
      rw [run_mapM_append, run_flat (processAt left) (h.kept.grown (grown_begin hs) nofun) (by rw [hstart])
        h.flat]
      dsimp only
      rw [run_mapM_cons, addConjunct_choice _ hc hx, halternatives]
      rfl
    have hkeeps (cs : List Conjunct) : (cs.map Yield.keep).flatMap (·.kept) = cs := by
      induction cs with
      | nil => rfl
      | cons c cs ih => exact congrArg (c :: ·) ih
    let ys := o.kept.map Yield.keep ++ [⟨[], [], [o.disjuncts.map o.alternative]⟩]
    have hnext : ys.flatMap (·.next) = [] := by simp [ys, Yield.keep]
    have hkept : ys.flatMap (·.kept) = o.kept := by simp [ys, hkeeps]
    have hdisjunctions : ys.flatMap (·.disjunctions) = [o.disjuncts.map o.alternative] := by
      simp [ys, Yield.keep]
    rw [hr, hseeds, addRounds_of_mapM hround hnext hkept hdisjunctions (addRounds_nil rounds)]
    simp
  · rw [hb]
  · rw [hb, hv]; rfl
  · exact (h.kept.grown (grown_begin hs) nofun).grown hg hown
  · rw [hb, hv, hab.hasFillsBelow]
    exact hfills

end Eval

namespace Arena

/-- A vertex that is done, and waits for a decision between alternatives. -/
structure Undecided (a : Arena) (v : Nat) : Prop where
  stage : (a.vertex v).stage = .done
  forward : (a.vertex v).forward = none
  val : (a.vertex v).val.isBottom = false
  pending : ∃ f, (a.vertex v).pending = [f] ∧ f.isIncomplete = true

/-- What has become of a vertex with a disjunction, which was `x` before. -/
inductive Decided (b : Arena) (o : Offer) (x : Vertex) (v : Nat) : Prop
  /-- No alternative is left. -/
  | refused {f : Fault} (hnone : o.candidates = []) (stage : (b.vertex v).stage = .done)
    (forward : (b.vertex v).forward = none) (val : (b.vertex v).val = .bottom f)
    (kind : f.kind = .disjunction) (final : f.isIncomplete = false)
  /-- A candidate takes the place of the vertex. -/
  | settled {d : Disjunct} {w : Nat} (first : o.candidates.head? = some d)
    (one : o.candidates = [d] ∨ o.outcome.isSome = true) (settles : b.SettlesTo v w)
    (stand : b.vertex w = o.stand x d)
  /-- Several candidates are left. -/
  | undecided (several : 1 < o.candidates.length) (differ : o.outcome = none)
    (undecided : b.Undecided v)

end Arena

namespace Eval

variable {a b : Arena} {o : Offer} {v left : Nat}

theorem intact_forwarding (a : Arena) (v : Nat) (w : Option Nat) :
    Intact (· = v) a (a.forwarding v w) :=
  intact_modify_self a v _

/-- The stand-ins are there under their numbers. -/
theorem vertex_placed (a : Arena) (o : Offer) (x : Vertex) {q : Disjunct × Nat}
    (h : q ∈ o.placed a.vertices.size o.disjuncts) :
    a.vertices.size ≤ q.2 ∧ (a.append (o.disjuncts.map (o.stand x))).vertex q.2 =
      o.stand x q.1 := by
  obtain ⟨d, k⟩ := q
  obtain ⟨hle, hget⟩ := List.mem_zipIdx_iff_le_and_getElem?_sub.mp (List.mem_of_mem_filter h)
  obtain ⟨hlt, hd⟩ := List.getElem?_eq_some_iff.mp hget
  have hstands : k - a.vertices.size < (o.disjuncts.map (o.stand x)).length := by simpa using hlt
  have hvertex := vertex_append a hstands
  rw [Nat.add_sub_cancel' hle] at hvertex
  refine ⟨hle, hvertex.trans ?_⟩
  rw [List.getElem_map, hd]

/-- The alternatives have failed. -/
theorem decided_refused {failures : List Fault} (hlt : v < a.vertices.size)
    (hforward : (a.vertex v).forward = none) (hval : (a.vertex v).val.isBottom = false) (x : Vertex)
    (hnone : o.candidates = []) (hfailures : ∀ f ∈ failures, f.isIncomplete = false) :
    ((a.modify v (·.meet (.bottom ⟨.noAlternative, "", failures⟩))).conclude v).Decided o x v := by
  let f : Fault := ⟨.noAlternative, "", failures⟩
  have hmeet : (a.vertex v).val.meet (.bottom f) = .bottom f := by
    cases hv : (a.vertex v).val with
    | bottom g => rw [hv] at hval; cases hval
    | _ => rfl
  have hlast : ((a.modify v (·.meet (.bottom f))).conclude v).vertex v =
      { a.vertex v with stage := .done, val := (a.vertex v).val.meet (.bottom f) } := by
    rw [vertex_conclude (by simpa using hlt), vertex_modify _ hlt]
    rfl
  refine .refused hnone ?_ ?_ ((congrArg Vertex.val hlast).trans hmeet) rfl
    (Fault.isIncomplete_noAlternative hfailures)
  · rw [hlast]
  · rw [hlast]
    exact hforward

/-- An alternative takes the place of the vertex. -/
theorem decided_settled {d : Disjunct} {w : Nat} {x : Vertex}
    (hlt : v < a.vertices.size) (hw : v < w) (hstand : a.vertex w = o.stand x d)
    (first : o.candidates.head? = some d) (one : o.candidates = [d] ∨ o.outcome.isSome = true) :
    ((a.forwarding v (some w)).conclude v).Decided o x v := by
  have hltf : v < (a.forwarding v (some w)).vertices.size := by simpa [forwarding] using hlt
  have hlast : ((a.forwarding v (some w)).conclude v).vertex v =
      { a.vertex v with stage := .done, forward := some w } := by
    rw [vertex_conclude hltf, forwarding, vertex_modify _ hlt]
  have hother : ((a.forwarding v (some w)).conclude v).vertex w = o.stand x d := by
    rw [← hstand]
    have hne : w ≠ v := Nat.ne_of_gt hw
    exact (vertex_modify_of_ne _ _ hne).trans (vertex_modify_of_ne _ _ hne)
  refine .settled first one (.there ?_ ?_ hw (.here ?_ ?_)) hother
  · rw [hlast]
  · rw [hlast]
  · rw [hother]; rfl
  · rw [hother]; rfl

/-- The vertex is left open. -/
theorem decided_undecided {survivors : List Survivor} (hlt : v < a.vertices.size)
    (hforward : (a.vertex v).forward = none) (hpending : (a.vertex v).pending = []) (x : Vertex)
    (several : 1 < o.candidates.length) (differ : o.outcome = none) :
    ((leaveOpen v survivors a).2.conclude v).Decided o x v := by
  rw [run_leaveOpen]
  dsimp only
  have hlast {g : Vertex → Vertex} : ((a.modify v g).conclude v).vertex v =
      { g (a.vertex v) with stage := .done } := by
    rw [vertex_conclude (by simpa using hlt), vertex_modify _ hlt]
  refine .undecided several differ ⟨?_, ?_, ?_, ?_⟩
  · rw [hlast]
  · rw [hlast]; exact hforward
  · rw [hlast]; rfl
  · rw [hlast, hpending]
    exact ⟨_, rfl, rfl⟩

/-- The decision, when the rounds have ended. -/
theorem exists_decision (left : Nat) (h : a.Poses o v)
    (hcount : o.disjuncts.length ≤ maxCombinations) (hpending : (a.vertex v).pending = [])
    (hval : (a.vertex v).val.isBottom = false) :
    ∃ b, decideChoice (processAt (left + 1)) v o.kept [o.disjuncts.map o.alternative] a = ((), b) ∧
      Intact (· = v) a b ∧ Arena.Decided (b.conclude v) o (a.vertex v) v := by
  let x := a.vertex v
  let n := a.vertices.size
  let e := a.append (o.disjuncts.map (o.stand x))
  have hlt : v < a.vertices.size := h.lt
  have hae : Intact (· = v) a e := intact_append _ a _
  have hlte : v < e.vertices.size := Nat.lt_of_lt_of_le hlt hae.size
  have hev : e.vertex v = x := vertex_append_of_lt _ hlt
  obtain ⟨failures, htries, hfailures⟩ : ∃ failures,
      tryChoices (processAt (left + 1)) v o.kept [o.disjuncts.map o.alternative]
        (o.disjuncts.map fun d => [o.alternative d]) (a.withhold x.paths) =
      (((o.placed n o.disjuncts).map o.survivor, failures),
        (a.withhold x.paths).append (o.disjuncts.map (o.stand x))) ∧
      ∀ f ∈ failures, f.isIncomplete = false :=
    exists_tryChoices left (h.withhold x.paths) (List.Subset.refl o.disjuncts)
  have hcomb : combinations [o.disjuncts.map o.alternative] =
      some (o.disjuncts.map fun d => [o.alternative d]) := by
    rw [combinations_single (by simpa using hcount), List.map_map]
    rfl
  have hplaced : ∀ q ∈ o.placed n o.disjuncts, e.vertex q.2 = o.stand x q.1 :=
    fun q hq => (vertex_placed a o x hq).2
  have hforward : (e.vertex v).forward = none := by rw [hev]; exact h.forward
  have hcandidates := Offer.map_fst_chosen (o := o) n
  have hback : ({ (a.withhold x.paths).append (o.disjuncts.map (o.stand x)) with
      withheld := a.withheld } : Arena) = e := rfl
  rw [decideChoice_of_tries hcomb htries hback, run_narrow hplaced]
  by_cases hnone : o.placed n o.disjuncts = []
  · have hno : o.candidates = [] := by
      rw [Offer.candidates, ← Offer.map_fst_placed n, hnone]
      rfl
    rw [hnone]
    refine ⟨_, rfl, hae.trans (intact_modify_self e v _), ?_⟩
    exact decided_refused hlte hforward (by rw [hev]; exact hval) x hno hfailures
  · rw [if_neg (by simpa using hnone)]
    have hsome : o.chosen n ≠ [] := by
      intro hno
      rw [hno] at hcandidates
      have hfilter := Disjunct.preferred_eq_nil.mp hcandidates.symm
      rw [← Offer.map_fst_placed n, List.map_eq_nil_iff] at hfilter
      exact hnone hfilter
    obtain ⟨q, rest, hq⟩ := List.exists_cons_of_ne_nil hsome
    have hmem : q ∈ o.placed n o.disjuncts :=
      mem_placed_of_mem_chosen (hq ▸ List.mem_cons_self)
    have hfirst : o.candidates.head? = some q.1 := by rw [← hcandidates, hq]; rfl
    have hsettle (one : o.candidates = [q.1] ∨ o.outcome.isSome = true) :
        ∃ b, forwardTo (processAt (left + 1)) v (o.survivor q) e = ((), b) ∧ Intact (· = v) a b ∧
          (b.conclude v).Decided o x v := by
      have hle : v < q.2 := Nat.lt_of_lt_of_le hlt (vertex_placed a o x hmem).1
      refine ⟨e.forwarding v (some q.2), forwardTo_of_done ?_ (Nat.ne_of_gt hle) ?_,
        hae.trans (intact_forwarding e v _), decided_settled hlte hle (hplaced q hmem) hfirst one⟩
      · rw [hev, hae.hasFillsBelow]
        exact h.fills
      · rw [show e.vertex (o.survivor q).vertex = o.stand x q.1 from hplaced q hmem]
        exact Stage.noConfusion
    rw [hq] at hcandidates ⊢
    cases rest with
    | nil => exact hsettle (.inl hcandidates.symm)
    | cons r rest =>
      have hlength : 1 < (q :: r :: rest).length := by simp
      cases houtcome : o.outcome with
      | some j =>
        have hone : o.outcome.isSome = true := by rw [houtcome]; rfl
        rw [← houtcome, if_pos ⟨hlength, hone⟩]
        exact hsettle (.inr hone)
      | none =>
        rw [if_neg fun hno => Bool.false_ne_true hno.2]
        refine ⟨(leaveOpen v ((q :: r :: rest).map o.survivor) e).2, rfl, hae.trans ?_, ?_⟩
        · rw [run_leaveOpen]
          exact intact_modify_self e v _
        · refine decided_undecided hlte hforward (by rw [hev]; exact hpending) x ?_ houtcome
          rw [← hcandidates]
          simp

/-- Processing decides the disjunction of a vertex. -/
theorem exists_decided (left : Nat) (h : a.Offered o v) :
    ∃ b, processAt (left + 2) v a = ((), b) ∧ Intact (· = v) a b ∧ b.Decided o (a.vertex v) v := by
  obtain ⟨b, hrounds, hab, hposes, hb⟩ := exists_posed (left + 1) h
  obtain ⟨parent, paths, hv, -⟩ := h.fresh
  have hval : (b.vertex v).val.isBottom = false := by rw [hb]; exact h.consistent
  obtain ⟨e, hdecide, hbe, hdecided⟩ := exists_decision left hposes h.count
    (by rw [hb, hv]; rfl) hval
  have hunify := unifySeeds_of_disjunctions hrounds (List.cons_ne_nil _ _) hval
  refine ⟨e.conclude v, processAt_of_unifySeeds h.stage (hunify.trans hdecide),
    (hab.trans hbe).trans (intact_conclude e v), ?_⟩
  rw [hb] at hdecided
  cases hdecided with
  | refused hnone stage forward val kind final => exact .refused hnone stage forward val kind final
  | settled first one settles stand => exact .settled first one settles stand
  | undecided several differ hu => exact .undecided several differ hu

/-- A condition beside another one that is the default settles as the default does. -/
theorem exists_settles_default (left : Nat) {parent : Option Nat} {paths : List Path} {c : Conjunct}
    {t u : Condition} (hlt : v < a.vertices.size) (hv : a.vertex v = .fresh parent paths [c])
    (hc : c.source = .expr (.binary .disjoin t.toExpr (.marked u.toExpr)))
    (ht : a.Clear c.scope t) (hu : a.Clear c.scope u)
    (hheight : t.height ≤ maxDepth ∧ u.height ≤ maxDepth) (hfills : a.hasFillsBelow paths = false)
    (hval : (Condition.narrow maxDepth [u] .top).isBottom = false) :
    ∃ b w, processAt (left + 2) v a = ((), b) ∧ Intact (· = v) a b ∧ b.SettlesTo v w ∧
      b.vertex w = { (a.vertex v).standIn [{ c with source := .expr u.toExpr }] with
        val := Condition.narrow maxDepth [u] .top, stage := .done } := by
  let o : Offer := ⟨[], [], c, [⟨t, false⟩, ⟨u, true⟩]⟩
  have hoffers : (Expr.binary .disjoin t.toExpr (.marked u.toExpr)).Offers o.disjuncts := by
    simp [Expr.Offers, Expr.alternatives, alternatives_toExpr, o]
  have hclear : ∀ d ∈ o.disjuncts, a.Clear c.scope d.condition :=
    List.forall_mem_cons.mpr ⟨ht, List.forall_mem_singleton.mpr hu⟩
  have hheights : ∀ d ∈ o.disjuncts, ∀ s ∈ [d.condition], s.height ≤ maxDepth := by
    simpa [o] using hheight
  have hoffered : a.Offered o v := ⟨hlt, ⟨parent, paths, hv, hfills⟩, ⟨_, hc, rfl, hoffers⟩, .nil,
    List.forall_mem_nil _, rfl, hclear, hheights, (by decide : 2 ≤ maxCombinations)⟩
  have hcandidates : o.candidates = [⟨u, true⟩] := by
    have hu : o.survives ⟨u, true⟩ = true := by
      simpa [Offer.survives, Offer.val, o] using hval
    rw [Offer.candidates]
    cases ht : o.survives ⟨t, false⟩ <;> simp [o, Disjunct.preferred, hu, ht]
  obtain ⟨b, hrun, hab, hdecided⟩ := exists_decided left hoffered
  cases hdecided with
  | refused hnone => rw [hcandidates] at hnone; cases hnone
  | undecided several => rw [hcandidates] at several; exact absurd several (Nat.lt_irrefl 1)
  | @settled d w first one settles stand =>
    rw [hcandidates] at first
    obtain rfl := Option.some.inj first
    exact ⟨b, w, hrun, hab, settles, stand⟩

end Eval

/-! ## What a decision comes to -/

namespace Offer

variable {o : Offer}

theorem mem_candidates {d : Disjunct} (h : d ∈ o.candidates) :
    d ∈ o.disjuncts ∧ o.survives d = true := by
  unfold candidates Disjunct.preferred at h
  split at h
  · exact List.mem_filter.mp (List.mem_of_mem_filter h)
  · exact List.mem_filter.mp h

theorem candidates_eq_nil_iff : o.candidates = [] ↔ ∀ d ∈ o.disjuncts, o.survives d = false := by
  rw [candidates, Disjunct.preferred_eq_nil, List.filter_eq_nil_iff]
  simp

/-- All candidates are exported as the first one where they agree. -/
theorem outcome_eq {d : Disjunct} (first : o.candidates.head? = some d)
    (one : o.candidates = [d] ∨ o.outcome.isSome = true) : o.outcome = (o.val d).json? := by
  have hcons : ∃ rest, o.candidates = d :: rest := List.head?_eq_some_iff.mp first
  obtain ⟨rest, hrest⟩ := hcons
  rw [outcome, hrest, List.map_cons] at one ⊢
  cases hd : (o.val d).json? with
  | none =>
    rw [hd] at one
    rfl
  | some j =>
    rcases one with hone | hone
    · obtain rfl := (List.cons.inj hone).2
      rfl
    · rw [hd, Json.agreed] at hone
      rw [Json.agreed]
      split at hone
      · rw [if_pos ‹_›]
      · cases hone

end Offer

namespace Arena

/-- What the vertex that a disjunction has settled to shows. -/
inductive Rests (b : Arena) (o : Offer) (w : Nat) : Prop
  | refused {f : Fault} (hnone : o.candidates = []) (stage : (b.vertex w).stage = .done)
    (forward : (b.vertex w).forward = none) (val : (b.vertex w).val = .bottom f)
    (kind : f.kind = .disjunction) (final : f.isIncomplete = false)
  | plain {d : Disjunct} (candidate : d ∈ o.candidates) (outcome : o.outcome = (o.val d).json?)
    (plain : b.Plain w (o.val d))
  | undecided (some : o.candidates ≠ []) (differ : o.outcome = none) (undecided : b.Undecided w)

variable {b : Arena} {o : Offer} {w : Nat}

theorem Rests.stage (h : b.Rests o w) : (b.vertex w).stage = .done := by
  cases h with
  | refused _ stage => exact stage
  | plain _ _ plain => exact plain.stage
  | undecided _ _ undecided => exact undecided.stage

theorem Rests.forward (h : b.Rests o w) : (b.vertex w).forward = none := by
  cases h with
  | refused _ _ forward => exact forward
  | plain _ _ plain => exact plain.forward
  | undecided _ _ undecided => exact undecided.forward

end Arena

namespace Eval

variable {a b c : Arena} {o : Offer} {x : Vertex} {u v w left levels : Nat}
  {process : Nat → Eval Unit}

theorem exists_rests (hrun : process v a = ((), b)) (h : b.Decided o x v) :
    ∃ w, settle process v a = (w, b) ∧ b.Rests o w := by
  cases h with
  | refused hnone stage forward val kind final =>
    exact ⟨v, settle_of_forward hrun forward, .refused hnone stage forward val kind final⟩
  | @settled d w first one settles stand =>
    have hmem : d ∈ o.candidates := List.mem_of_mem_head? first
    exact ⟨w, settle_of_settlesTo hrun settles, .plain hmem (Offer.outcome_eq first one) (plain_stand stand)⟩
  | undecided several differ undecided =>
    refine ⟨v, settle_of_forward hrun undecided.forward, .undecided ?_ differ undecided⟩
    exact List.ne_nil_of_length_pos (Nat.lt_of_succ_lt several)

theorem faultsAt_of_undecided (hsettle : settle process u a = (w, b)) (h : b.Undecided w) :
    faultsAt process (left + 1) false u a = ([], b) := by
  obtain ⟨f, hf, -⟩ := h.pending
  rw [faultsAt, run_bind, hsettle]
  dsimp only
  rw [run_bind, run_bind]
  dsimp only [vertex, view]
  have hval := h.val
  cases hv : (b.vertex w).val with
  | bottom g => rw [hv] at hval; cases hval
  | _ =>
    have hsome : (!(b.vertex w).pending.isEmpty) = true := by simp [hf]
    exact congrFun (if_pos hsome) b

theorem run_exportAt_of_undecided {f : Fault} (hsettle : settle process u a = (w, b))
    (h : b.Undecided w) (hf : (b.vertex w).pending = [f]) :
    (exportAt process (left + 1) u).run a = (.error (f.atPath (b.pathText w)), b) := by
  have hval := h.val
  have hobstacle : b.obstacle? w = some (f.atPath (b.pathText w)) := by
    simp only [obstacle?, h.stage, hf]
    cases hv : (b.vertex w).val with
    | bottom g => rw [hv] at hval; cases hval
    | _ => rfl
  rw [exportAt, Attempt.run_bind, Attempt.run_perform, hsettle]
  dsimp only
  rw [Attempt.run_bind, Attempt.run_perform]
  dsimp only [view]
  rw [hobstacle]
  rfl

/-- Validation finds the one fault of a disjunction without candidates, and none if there are some,
as long as no value is asked for or they agree on one. -/
theorem exists_faults_of_rests (process : Nat → Eval Unit) (h : b.Rests o w) (concrete : Bool)
    (hconcrete : concrete = true → o.candidates ≠ [] → o.outcome.isSome = true) : ∃ fs : List Fault,
      (o.candidates ≠ [] → fs = []) ∧
      (o.candidates = [] → ∃ f, fs = [f] ∧ f.kind = .disjunction ∧ f.isIncomplete = false) ∧
      ∀ left u a, settle process u a = (w, b) →
        (faultsAt process (left + 1) concrete u a).1 = fs := by
  cases h with
  | @refused f hnone stage forward val kind final =>
    refine ⟨[f.atPath (b.pathText w)], fun hno => absurd hnone hno, fun _ => ⟨_, rfl, ?_, ?_⟩,
      fun left u a hsettle => ?_⟩
    · rw [Fault.kind_atPath]
      exact kind
    · rw [Fault.isIncomplete_atPath]
      exact final
    · rw [faultsAt_of_isBottom hsettle val]
  | @plain d candidate outcome plain =>
    have hne : o.candidates ≠ [] := List.ne_nil_of_mem candidate
    refine ⟨[], fun _ => rfl, fun hno => absurd hno hne, fun left u a hsettle => ?_⟩
    cases concrete with
    | false =>
      have hval : (b.vertex w).val.isBottom = false := by
        rw [plain.val]
        simpa [Offer.survives] using (Offer.mem_candidates candidate).2
      rw [faultsAt_of_plain hsettle hval plain.pending plain.arcs plain.elems]
    | true =>
      have hsome := hconcrete rfl hne
      rw [outcome] at hsome
      cases hv : o.val d with
      | atom s => rw [faultsAt_of_atom hsettle (plain.val.trans hv) plain.pending]
      | _ => rw [hv] at hsome; cases hsome
  | undecided some differ undecided =>
    refine ⟨[], fun _ => rfl, fun hno => absurd hno some, fun left u a hsettle => ?_⟩
    cases concrete with
    | false => rw [faultsAt_of_undecided hsettle undecided]
    | true =>
      have hsome := hconcrete rfl some
      rw [differ] at hsome
      cases hsome

/-- What the candidates agree on is exported. Where they do not agree, that is an incomplete
fault. -/
theorem exists_exportAt_of_rests (left : Nat) (hsettle : settle process u a = (w, b))
    (h : b.Rests o w) :
    ∃ r, (exportAt process (left + 1) u).run a = (r, b) ∧ r.toOption = o.outcome ∧
      (o.candidates ≠ [] → (∀ d ∈ o.candidates, ∀ s, o.val d = .atom s → ∃ j, s.toJson = .ok j) →
        ∀ f, r = .error f → f.isIncomplete = true) := by
  cases h with
  | @refused f hnone stage forward val kind final =>
    refine ⟨_, run_exportAt_of_isBottom hsettle val stage, ?_, fun hno => absurd hnone hno⟩
    rw [Offer.outcome, hnone]
    rfl
  | @plain d candidate outcome plain =>
    have hval : (o.val d).isBottom = false := by
      simpa [Offer.survives] using (Offer.mem_candidates candidate).2
    obtain ⟨r, hrun, hr, hopen⟩ :=
      exists_exportAt_of_plain left hsettle plain (Condition.even_narrow _ _) hval
    refine ⟨r, hrun, hr.trans outcome.symm, fun _ hatoms f hf => ?_⟩
    subst hf
    cases hv : o.val d with
    | bottom g => rw [hv] at hval; cases hval
    | atom s =>
      obtain ⟨j, hj⟩ := hatoms d candidate s hv
      rw [hv, Val.json?, hj] at hr
      cases hr
    | constraint k =>
      obtain ⟨g, hg, hincomplete⟩ := hopen ⟨k, hv⟩
      exact Except.error.inj hg ▸ hincomplete
  | undecided some differ undecided =>
    obtain ⟨f, hf, hincomplete⟩ := undecided.pending
    refine ⟨.error (f.atPath (b.pathText w)), run_exportAt_of_undecided hsettle undecided hf, ?_,
      ?_⟩
    · rw [differ]
      rfl
    · rintro - - g hg
      obtain rfl := Except.error.inj hg
      rw [Fault.isIncomplete_atPath]
      exact hincomplete

end Eval

end SchemaMock
