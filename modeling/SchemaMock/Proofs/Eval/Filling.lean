import SchemaMock.Proofs.Eval.Narrowing
import SchemaMock.Proofs.Eval.Reference

/-! # Filling in host data

A vertex with conditions may get host data through a fill, or by a reference to such a vertex. It
then shows the data if that meets the conditions, and is bottom otherwise. Without data the
conditions alone narrow it.
-/

namespace SchemaMock

open Arena Eval

/-- The value that conditions narrow: host data, or everything. -/
def Json.initial : Option Json → Val
  | none => .top
  | some j => j.toVal []

/-- Whether the conditions rule out the data, or contradict each other where there is none. -/
def Condition.ruleOut (ts : List Condition) (arg : Option Json) : Bool :=
  (narrow maxDepth ts (Json.initial arg)).isBottom

/-- Host data is ruled out when it does not meet all conditions. -/
theorem Condition.ruleOut_eq_true_iff {ts : List Condition} (h : ∀ t ∈ ts, t.height ≤ maxDepth)
    (j : Json) : ruleOut ts (some j) = true ↔ ¬ ∀ t ∈ ts, admitsJson j t = true := by
  rw [ruleOut, Json.initial]
  rcases narrow_toVal (j := j) h [] with ⟨hall, bounds, hkept⟩ | ⟨⟨t, ht, hnot⟩, hlost⟩
  · rw [hkept, j.isBottom_toVal]
    simpa using hall
  · refine ⟨fun _ hall => ?_, fun _ => hlost⟩
    rw [hall t ht] at hnot
    cases hnot

namespace Arena

variable {a b : Arena} {n v : Nat} {arg : Option Json} {cs : List Conjunct} {ts : List Condition}

def Bears (a : Arena) (ts : List Condition) (arg : Option Json) (cs : List Conjunct) : Prop :=
  match arg with
  | none => a.Conditions cs ts
  | some j => ∃ c rest, cs = c :: rest ∧ c.Writes j ∧ a.Conditions rest ts

theorem Bears.intact {own : Nat → Prop} (h : a.Bears ts arg cs) (hi : Intact own a b)
    (hown : ∀ u, own u → (a.vertex u).stage ≠ .done) : b.Bears ts arg cs := by
  cases arg with
  | none => exact Conditions.intact h hi hown
  | some j =>
    obtain ⟨c, rest, rfl, hc, hrest⟩ := h
    exact ⟨c, rest, rfl, hc, hrest.intact hi hown⟩

/-- Conditions and data stay what they are where a reference takes them. -/
theorem Bears.through {c : Conjunct} {y : Vertex} (h : a.Bears ts arg cs)
    (hclosed : c.closed = false) (hgroup : c.group = none)
    (hy : (y.paths.head?.map Path.hasDefinition).getD false = false) :
    a.Bears ts arg (cs.map (c.through y)) := by
  have hconditions {cs : List Conjunct} (h : a.Conditions cs ts) :
      a.Conditions (cs.map (c.through y)) ts := by
    rw [Conditions, List.forall₂_map_left_iff]
    exact List.Forall₂.imp (fun _ _ hd => hd) h
  cases arg with
  | none => exact hconditions h
  | some j =>
    obtain ⟨d, rest, rfl, hd, hrest⟩ := h
    refine ⟨c.through y d, rest.map (c.through y), rfl, ⟨?_, hd.canonical⟩, hconditions hrest⟩
    obtain ⟨left, x, hx, he⟩ := hd.expr
    refine ⟨left, x, hx, ?_⟩
    rw [he]
    simp only [Conjunct.through, Conjunct.of, hclosed, hgroup, hy]
    rfl

/-- What is left of the conjuncts before the last step. -/
def LaidBy (a : Arena) (n : Nat) (x : Vertex) : Option Json → Prop
  | none => x.arcs = [] ∧ x.lists = []
  | some j => a.Laid n x j

/-- A vertex that is done, and has no parts. -/
structure Plain (a : Arena) (v : Nat) (y : Val) : Prop where
  stage : (a.vertex v).stage = .done
  forward : (a.vertex v).forward = none
  pending : (a.vertex v).pending = []
  arcs : (a.vertex v).arcs = []
  elems : (a.vertex v).elems = []
  val : (a.vertex v).val = y

/-- A vertex that is done with host data, if there is any, and conditions. -/
def Filled (a : Arena) (n v : Nat) (ts : List Condition) : Option Json → Prop
  | none => a.Plain v (Condition.narrow maxDepth ts .top)
  | some j => a.Shows n v j (Condition.narrow maxDepth ts (j.toVal []))

theorem Filled.forward (h : a.Filled n v ts arg) : (a.vertex v).forward = none := by
  cases arg with
  | none => exact Plain.forward h
  | some j => exact Shows.forward h

theorem Filled.stage (h : a.Filled n v ts arg) : (a.vertex v).stage = .done := by
  cases arg with
  | none => exact Plain.stage h
  | some j => exact Shows.stage h

theorem Filled.val (h : a.Filled n v ts arg) :
    (a.vertex v).val = Condition.narrow maxDepth ts (Json.initial arg) := by
  cases arg with
  | none => exact Plain.val h
  | some j => exact Shows.val h

end Arena

namespace Eval

variable {a : Arena} {v n left : Nat} {arg : Option Json} {c : Conjunct} {cs : List Conjunct}
  {ts : List Condition}

/-! ## Processing -/

/-- Rounds of data and conditions. -/
theorem exists_rounds_of_bears {rounds : Nat} (process : Nat → Eval Unit) (h : a.Bears ts arg cs)
    (hn : n ≤ a.vertices.size) (hs : (a.vertex v).stage = .processing)
    (harcs : (a.vertex v).arcs = []) (hlists : (a.vertex v).lists = [])
    (hval : (a.vertex v).val = .top) (hfills : a.hasFillsBelow (a.vertex v).paths = false)
    (hheight : ∀ t ∈ ts, t.height ≤ maxDepth) (hr : maxDepth ≤ rounds) :
    ∃ kept d, addRounds process v rounds cs a = ((kept, []), d) ∧ Intact (· = v) a d ∧
      d.vertex v = { a.vertex v with
        val := Condition.narrow maxDepth ts (Json.initial arg)
        arcs := (d.vertex v).arcs, lists := (d.vertex v).lists } ∧
      d.LaidBy n (d.vertex v) arg := by
  have hlt : v < a.vertices.size := lt_size_of_stage (by rw [hs]; decide)
  have hown : ∀ u, u = v → (a.vertex u).stage ≠ .done := by
    rintro u rfl
    rw [hs]
    decide
  cases arg with
  | none =>
    obtain ⟨kept, hrun⟩ := addRounds_conditions process h hs hheight hr
    let f (x : Vertex) : Vertex := x.meetAll (Condition.breadthFirst maxDepth ts)
    have hv : (a.modify v f).vertex v = f (a.vertex v) := vertex_modify f hlt
    refine ⟨kept, a.modify v f, hrun, intact_modify_self a v f, ?_, ?_⟩
    · rw [hv]
      simp only [f, Vertex.meetAll, hval]
      rfl
    · rw [hv]
      exact ⟨harcs, hlists⟩
  | some j =>
    obtain ⟨c, rest, rfl, hc, hrest⟩ := h
    obtain ⟨rounds, rfl⟩ : ∃ k, rounds = k + 1 :=
      Nat.exists_eq_add_one.mpr (Nat.lt_of_lt_of_le (by decide) hr)
    obtain ⟨kept, d, hrun, had, hd, hlaid⟩ :=
      exists_rounds rest (Condition.narrow maxDepth ts) hn hc.spells hs
      harcs hlists hfills fun b hb hsb =>
        addRounds_conditions process (hrest.intact hb hown) hsb hheight hr
    refine ⟨kept, d, hrun, had, hd.trans ?_, hlaid⟩
    rw [hval, j.top_meet_toVal]
    rfl

/-- A vertex that has taken data and conditions ends up filled. -/
theorem exists_filled_of_rounds {kept : List Conjunct} {d : Arena}
    (hs : (a.vertex v).stage = .pending)
    (hrounds : addRounds (processAt left) v (roundLimit (a.begin v)) ((a.begin v).vertex v).seeds
      (a.begin v) = ((kept, []), d))
    (hn : n ≤ d.vertices.size) (hsd : (d.vertex v).stage = .processing)
    (hlaid : d.LaidBy n (d.vertex v) arg)
    (hrest : d.vertex v = { Vertex.fresh (d.vertex v).parent (d.vertex v).paths (d.vertex v).seeds with
      stage := .processing
      val := Condition.narrow maxDepth ts (Json.initial arg)
      arcs := (d.vertex v).arcs, lists := (d.vertex v).lists, copied := (d.vertex v).copied })
    (hfills : d.hasFillsBelow (d.vertex v).paths = false)
    (hc : ∀ j, arg = some j → j.canonical = true) :
    ∃ b, processAt (left + 1) v a = ((), b) ∧ Intact (· = v) d b ∧ b.Filled n v ts arg ∧
      (b.vertex v).paths = (d.vertex v).paths ∧ (b.vertex v).seeds = (d.vertex v).seeds := by
  have hlt : v < d.vertices.size := lt_size_of_stage (by rw [hsd]; decide)
  have hval : (d.vertex v).val = Condition.narrow maxDepth ts (Json.initial arg) := by rw [hrest]
  cases arg with
  | none =>
    obtain ⟨harcs, hlists⟩ := hlaid
    have hfinish : finish (processAt left) v d = ((), d) :=
      finish_of_plain _ hlists (fillSelectors_of_hasFillsBelow hfills) (by rw [hrest]; rfl)
        (by rw [hrest]; rfl)
    have hrun := processAt_of_unifySeeds hs ((unifySeeds_of_addRounds hrounds).trans hfinish)
    have hlast : (d.conclude v).vertex v = { d.vertex v with stage := .done } := vertex_conclude hlt
    refine ⟨d.conclude v, hrun, intact_conclude d v, ⟨?_, ?_, ?_, ?_, ?_, ?_⟩, ?_, ?_⟩
    · rw [hlast]
    · rw [hlast, hrest]; rfl
    · rw [hlast, hrest]; rfl
    · rw [hlast]; exact harcs
    · rw [hlast, hrest]; rfl
    · rw [hlast]; exact hval
    · rw [hlast]
    · rw [hlast]
  | some j =>
    obtain ⟨b, hrun, hdb, hshows, hpaths, hseeds⟩ := exists_shows_of_rounds hs hrounds hn hsd hlaid
      (hrest.trans (by rw [hval])) hfills (hc j rfl)
    rw [hval] at hshows
    exact ⟨b, hrun, hdb, hshows, hpaths, hseeds⟩

theorem addExpr_of_isReference {process : Nat → Eval Unit} {x : Expr} (h : x.isReference = true) :
    addExpr process v c x = addReference process v x c := by
  cases x with
  | ident name => rfl
  | select base label => rfl
  | index base position => rfl
  | _ => cases h

/-- There are rounds for conditions after the first one. -/
theorem exists_rounds_left (a : Arena) : ∃ rounds, roundLimit a = rounds + 1 ∧
    maxDepth ≤ rounds := by
  have hlt : maxDepth < roundLimit a :=
    Nat.lt_of_lt_of_le (by decide : maxDepth < 1 <<< 40)
      (Nat.le_mul_of_pos_right _ (Nat.succ_pos _))
  exact ⟨roundLimit a - 1, by omega, by omega⟩

theorem canonical_of_bears (h : a.Bears ts arg cs) : ∀ j, arg = some j → j.canonical = true := by
  rintro j rfl
  obtain ⟨c, rest, -, hc, -⟩ := h
  exact hc.canonical

theorem exists_filled (left : Nat) {parent : Option Nat} {paths : List Path}
    (hlt : v < a.vertices.size) (hv : a.vertex v = .fresh parent paths cs) (h : a.Bears ts arg cs)
    (hheight : ∀ t ∈ ts, t.height ≤ maxDepth) (hfills : a.hasFillsBelow paths = false) :
    ∃ b, processAt (left + 1) v a = ((), b) ∧ Intact (· = v) a b ∧
      b.Filled a.vertices.size v ts arg ∧ (b.vertex v).paths = paths ∧ (b.vertex v).seeds = cs := by
  have hs : (a.vertex v).stage = .pending := by rw [hv]; rfl
  have hown : ∀ u, u = v → (a.vertex u).stage ≠ .done := by
    rintro u rfl
    rw [hs]
    decide
  have hstart : (a.begin v).vertex v = { a.vertex v with stage := .processing } := vertex_begin hlt
  have has := intact_begin a v
  obtain ⟨kept, d, hrounds, hsd, hd, hlaid⟩ := exists_rounds_of_bears (processAt left)
    (h.intact has hown) has.size (by rw [hstart]) (by rw [hstart, hv]; rfl)
    (by rw [hstart, hv]; rfl)
    (by rw [hstart, hv]; rfl) (by rw [hstart, hv, has.hasFillsBelow]; exact hfills) hheight
    (maxDepth_le_roundLimit (a.begin v))
  rw [hstart, hv] at hd
  obtain ⟨b, hrun, hdb, hfilled, hpaths, hseeds⟩ := exists_filled_of_rounds hs
    (by rw [hstart, hv]; exact hrounds) (Nat.le_trans has.size hsd.size) (by rw [hd]) hlaid
    (by rw [hd]; rfl) (by rw [(has.trans hsd).hasFillsBelow, hd]; exact hfills)
    (canonical_of_bears h)
  refine ⟨b, hrun, (has.trans hsd).trans hdb, hfilled, hpaths.trans ?_, hseeds.trans ?_⟩
  · rw [hd]; rfl
  · rw [hd]; rfl

/-- A vertex that refers to one for data and conditions is filled too. -/
theorem exists_filled_of_reference (left : Nat) {parent : Option Nat} {paths : List Path}
    {own : Nat → Prop} {x : Expr} {d : Conjunct} {t : Nat} {b : Arena} (hlt : v < a.vertices.size)
    (hv : a.vertex v = .fresh parent paths [c, d]) (hreference : x.isReference = true)
    (hc : c = .of x c.scope false) (hd : d.source = .expr .top)
    (hr : (resolve (processAt left) c.scope x).run (a.begin v) = (.ok (.vertex t), b))
    (hab : Intact own (a.begin v) b) (hown : ¬ own v) (hne : t ≠ v)
    (ht : (b.vertex t).forward = none) (happart : b.Apart t parent)
    (h : b.Bears ts arg (b.vertex t).seeds)
    (hdefinition : ((b.vertex t).paths.head?.map Path.hasDefinition).getD false = false)
    (hheight : ∀ t ∈ ts, t.height ≤ maxDepth)
    (hfills : b.hasFillsBelow (paths ++ b.furtherPaths v (b.vertex t).paths) = false) :
    ∃ e, processAt (left + 1) v a = ((), e) ∧ Intact (fun u => u = v ∨ own u) a e ∧
      Intact (· = v) b e ∧ e.Filled b.vertices.size v ts arg := by
  let s := a.begin v
  let g (x : Vertex) : Vertex :=
    { x with copied := x.copied ++ [t], paths := x.paths ++ b.furtherPaths v (b.vertex t).paths }
  let seeds := (b.vertex t).seeds.map (c.through (b.vertex t))
  have hs : (a.vertex v).stage = .pending := by rw [hv]; rfl
  have hstart : s.vertex v = { a.vertex v with stage := .processing } := vertex_begin hlt
  have has : Intact (· = v) a s := intact_begin a v
  have hlts : v < s.vertices.size := by simpa [s] using hlt
  have hltb : v < b.vertices.size := Nat.lt_of_lt_of_le hlts hab.size
  have hbv : b.vertex v = { Vertex.fresh parent paths [c, d] with stage := .processing } := by
    rw [hab.vertex hlts hown, hstart, hv]
  have hbg : (b.modify v g).vertex v = g (b.vertex v) := vertex_modify g hltb
  have hbgi : Intact (· = v) b (b.modify v g) := intact_modify_self b v g
  have hcopy : copyTarget v t c b = (seeds, b.modify v g) :=
    run_copyTarget c (by rw [hbv]; exact List.not_mem_nil) hltb (by rw [hbv]; rfl) hne
  have hfirst : addConjunct (processAt left) v c s = (⟨seeds, [], []⟩, b.modify v g) := by
    have hsource : c.source = .expr x := by rw [hc]; rfl
    rw [addConjunct_of_expr hsource, addExpr_of_isReference hreference,
      addReference_of_target hr hne ht (by rw [hbv]; rfl) (by rw [hbv]; exact happart), hcopy]
  have hsecond : addConjunct (processAt left) v d (b.modify v g) = (.keep d, b.modify v g) := by
    rw [addConjunct_of_expr hd]
    rfl
  obtain ⟨rounds, hrounds, hle⟩ : ∃ rounds, roundLimit s = rounds + 1 ∧ maxDepth ≤ rounds :=
    exists_rounds_left s
  have hseeds : (b.modify v g).Bears ts arg seeds := by
    have hclosed : c.closed = false ∧ c.group = none := by rw [hc]; exact ⟨rfl, rfl⟩
    refine (h.through hclosed.1 hclosed.2 hdefinition).intact hbgi ?_
    rintro u rfl
    rw [hbv]
    exact Stage.noConfusion
  obtain ⟨kept, e, hrest, hbe, he, hlaid⟩ := exists_rounds_of_bears (n := b.vertices.size)
    (processAt left) hseeds hbgi.size (by rw [hbg, hbv]) (by rw [hbg, hbv]; rfl)
    (by rw [hbg, hbv]; rfl) (by rw [hbg, hbv]; rfl)
    (by rw [hbg, hbv, hbgi.hasFillsBelow]; exact hfills) hheight hle
  rw [hbg, hbv] at he
  have hall : addRounds (processAt left) v (roundLimit s) (s.vertex v).seeds s =
      ((d :: kept, []), e) := by
    have hsv : (s.vertex v).seeds = [c, d] := by rw [hstart, hv]; rfl
    rw [hrounds, hsv, addRounds_succ, run_mapM_cons, hfirst]
    dsimp only
    rw [run_mapM_cons, hsecond]
    show ((d :: (addRounds (processAt left) v rounds (seeds ++ []) (b.modify v g)).1.1,
      (addRounds (processAt left) v rounds (seeds ++ []) (b.modify v g)).1.2),
      (addRounds (processAt left) v rounds (seeds ++ []) (b.modify v g)).2) = _
    rw [List.append_nil, hrest]
  obtain ⟨f, hrun, hef, hfilled, -⟩ := exists_filled_of_rounds (n := b.vertices.size) hs hall
    (Nat.le_trans hbgi.size hbe.size) (by rw [he]) hlaid (by rw [he]; rfl)
    (by rw [(hbgi.trans hbe).hasFillsBelow, he]; exact hfills) (canonical_of_bears h)
  have hself : ∀ u < a.vertices.size, u = v → u = v ∨ own u := fun _ _ hu => .inl hu
  refine ⟨f, hrun, ?_, (hbgi.trans hbe).trans hef, hfilled⟩
  refine ((has.mono hself).trans (hab.mono fun u _ hu => .inr hu)).trans ?_
  exact ((hbgi.trans hbe).trans hef).mono fun u _ hu => .inl hu

/-! ## Walking -/

theorem settle_of_filled {process : Nat → Eval Unit} {b : Arena} (hrun : process v a = ((), b))
    (h : b.Filled n v ts arg) : settle process v a = (v, b) := settle_of_forward hrun h.forward

/-- Validation finds one final fault where the conditions are not met, and none otherwise. Where a
value is asked for there has to be data. -/
theorem faultsAt_of_filled (levels left : Nat) (concrete : Bool) {b : Arena}
    (hsettle : settle (processAt (levels + 1)) v a = (v, b)) (h : b.Filled n v ts arg)
    (hheight : ∀ t ∈ ts, t.height ≤ maxDepth) (hconcrete : concrete = true → arg.isSome = true)
    (hdepth : ∀ j, arg = some j → j.depth ≤ left + 1) :
    let r := faultsAt (processAt (levels + 1)) (left + 1) concrete v a
    Extends (n ≤ ·) b r.2 ∧ Found (Condition.ruleOut ts arg = true) r.1 := by
  intro r
  cases hval : Condition.ruleOut ts arg with
  | true =>
    obtain ⟨f, hf⟩ : ∃ f, (b.vertex v).val = .bottom f := by
      rw [Condition.ruleOut, ← h.val] at hval
      cases hy : (b.vertex v).val with
      | bottom f => exact ⟨f, rfl⟩
      | _ => rw [hy] at hval; cases hval
    have hrun : r = ([f.atPath (b.pathText v)], b) := faultsAt_of_isBottom hsettle hf
    have hfinal : f.isIncomplete = false := by
      refine Condition.final_narrow (v := Json.initial arg) ?_ maxDepth ts f (h.val.symm.trans hf)
      intro g hg
      have hno : (Json.initial arg).isBottom = false := by
        cases arg with
        | none => rfl
        | some j => exact j.isBottom_toVal []
      rw [hg] at hno
      cases hno
    rw [hrun]
    exact ⟨.refl _ b, fun hno => absurd rfl hno,
      fun _ => ⟨_, List.mem_singleton_self _, (f.isIncomplete_atPath _).trans hfinal⟩⟩
  | false =>
    have hr : r.1 = [] ∧ Extends (n ≤ ·) b r.2 := by
      cases arg with
      | none =>
        have hplain : b.Plain v (Condition.narrow maxDepth ts .top) := h
        have hc : concrete = false := by
          cases concrete with
          | true => exact absurd (hconcrete rfl) nofun
          | false => rfl
        have hrun : r = ([], b) := by
          simp only [r, hc]
          exact faultsAt_of_plain hsettle (by rw [hplain.val]; exact hval)
            hplain.pending hplain.arcs
            hplain.elems
        rw [hrun]
        exact ⟨rfl, Extends.refl _ b⟩
      | some j =>
        have hshows : b.Shows n v j (Condition.narrow maxDepth ts (j.toVal [])) := h
        rcases Condition.narrow_toVal (j := j) hheight [] with ⟨-, bounds, hb⟩ | ⟨-, hb⟩
        · rw [hb] at hshows
          exact faultsAt_of_shows levels (left + 1) concrete hsettle hshows (hdepth j rfl)
        · rw [Condition.ruleOut, Json.initial, hb] at hval
          cases hval
    exact ⟨hr.2, fun _ => hr.1, fun h => absurd h Bool.false_ne_true⟩

/-- Data that meets the conditions is exported as it is. -/
theorem exportAt_of_filled (levels left : Nat) {b : Arena} {j : Json}
    (hsettle : settle (processAt (levels + 1)) v a = (v, b)) (h : b.Filled n v ts (some j))
    (hheight : ∀ t ∈ ts, t.height ≤ maxDepth) (hmeets : Condition.ruleOut ts (some j) = false)
    (hc : j.canonical = true) (hdepth : j.depth ≤ left) :
    ((exportAt (processAt (levels + 1)) left v).run a).1 = .ok j ∧
      Extends (n ≤ ·) b ((exportAt (processAt (levels + 1)) left v).run a).2 := by
  have hshows : b.Shows n v j (Condition.narrow maxDepth ts (j.toVal [])) := h
  rcases Condition.narrow_toVal (j := j) hheight [] with ⟨-, bounds, hb⟩ | ⟨-, hb⟩
  · rw [hb] at hshows
    exact exportAt_of_shows levels left hsettle hshows hc hdepth
  · rw [Condition.ruleOut, Json.initial, hb] at hmeets
    cases hmeets

end Eval

end SchemaMock
