import SchemaMock.Proofs.Echo.Arguments

/-! # The results of a function

Each element of the list of results refers to an argument, and takes over the conditions and the
data of that argument. So it has a fault exactly where the argument has one, and exports the data.
-/

namespace SchemaMock

open Arena Eval

namespace Echo

def resultPaths (e : Echo) (i : Nat) : List Path := e.returnsPaths.map (·.child (.index i))

/-- Whether a position is one that lists can be indexed by. -/
def Indexes (i : Nat) : Prop := i < (1 <<< 64 : Nat)

structure Result (e : Echo) (a : Arena) (i v : Nat) (t : Condition) : Prop where
  lt : v < a.vertices.size
  after : e.first + 2 < v
  ready : a.Ready v (.fresh (some (e.first + 1)) (e.resultPaths i) (e.seedsAt (argument i)))
    (Indexes i ∧ e.args[i]? = none) t

/-- The list of the results is done, and its elements are numbered from `m` on. The arguments may
have been looked at before, or not. -/
structure Echoed (e : Echo) (a : Arena) (m : Nat) : Prop where
  stands : e.Stands a
  args : e.Untouched a ∨ ∃ n, e.Stocked a n ∧
    (n + e.conditions.length ≤ m ∨ m + e.conditions.length ≤ n)
  list : a.Enumerated (e.first + 1) (some e.vertex) m e.conditions.length
  size : m + e.conditions.length ≤ a.vertices.size
  result {i : Nat} (h : i < e.conditions.length) : e.Result a i (m + i) e.conditions[i]

variable {e : Echo} {a b : Arena} {own : Nat → Prop} {i m n v : Nat} {t : Condition}

theorem Result.extends (h : e.Result a i v t) (hi : Extends own a b) (hv : ¬ own v) :
    e.Result b i v t :=
  ⟨Nat.lt_of_lt_of_le h.lt hi.size, h.after,
    h.ready.congr (Intact.vertex hi h.lt fun ho => hv ho.1)⟩

/-- The results stay where only one of them is looked at, and what it needs. -/
theorem Echoed.extends (h : e.Echoed a m) (hi : Extends own a b)
    (hargs : e.Untouched b ∨ ∃ n, e.Stocked b n ∧
      (n + e.conditions.length ≤ m ∨ m + e.conditions.length ≤ n))
    (hchanged : ∀ i (hlt : i < e.conditions.length), own (m + i) →
      e.Result b i (m + i) e.conditions[i]) : e.Echoed b m where
  stands := h.stands.extends hi
  args := hargs
  list := h.list.intact hi Extends.not_done
  size := Nat.le_trans h.size hi.size
  result {i} hlt := by
    by_cases ho : own (m + i)
    · exact hchanged i hlt ho
    · exact (h.result hlt).extends hi ho

/-! ## One result -/

/-- The name of the arguments refers to their list. -/
theorem resolve_args (process : Nat → Eval Unit) (h : e.Stands a) :
    (resolve process e.scope (.ident Mock.argsName)).run a = (.ok (.vertex e.first), a) := by
  show (Attempt.ofExcept (a.lookupName Mock.argsName e.scope)).run a = _
  rw [h.refers.lookupName]
  rfl

/-- A reference to an argument looks it up in the list. -/
theorem resolve_argument (process : Nat → Eval Unit) (h : e.Stands a) (i : Nat) :
    (resolve process e.scope (argument i)).run a =
      (do return .vertex (← select process e.first (← Attempt.ofExcept (positionOf (.int i)))) :
        Attempt Resolved).run a := by
  rw [argument, resolve, Attempt.run_bind, resolve_args process h]
  dsimp only
  rw [Attempt.run_bind, evalScalar]
  rfl

/-- An argument is found by its position. -/
theorem exists_resolve_argument (left : Nat) {P : Nat → Prop} (h : e.Stands a)
    (hs : e.Untouched a ∨ ∃ n, e.Stocked a n ∧ P n) (hnew : P a.vertices.size)
    (hi : i < e.conditions.length) (hindex : Indexes i) :
    ∃ b n, (resolve (processAt (left + 1)) e.scope (argument i)).run a =
      (.ok (.vertex (n + i)), b) ∧ Extends (· = e.first) a b ∧ e.Stocked b n ∧ P n := by
  obtain ⟨b, n, hsettle, hab, hstocked, hp⟩ := exists_settle_args (P := fun _ => P) left h hs
    fun _ _ _ => hnew
  have hposition : positionOf (.int i) = .ok (.index i) := by
    have hbound : (0 : Int) ≤ i ∧ (i : Int) < (1 <<< 64 : Nat) :=
      ⟨by omega, by exact_mod_cast hindex⟩
    simp only [positionOf, if_pos hbound]
    rfl
  have harrive := arrive_of_settle hsettle hstocked.list.stage
  have hselect : (select (processAt (left + 1)) e.first (.index i)).run a = (.ok (n + i), b) := by
    refine run_select_of_part harrive hstocked.list.disjuncts ?_
    show (b.vertex e.first).elems[i]? = _
    rw [hstocked.list.elems]
    simp [hi]
  refine ⟨b, n, ?_, hab, hstocked, hp⟩
  rw [resolve_argument _ h, hposition, Attempt.run_bind]
  show (select (processAt (left + 1)) e.first (.index i) >>= _ : Attempt Resolved).run a = _
  rw [Attempt.run_bind, hselect]
  rfl

theorem heights_pair (e : Echo) (hi : i < e.conditions.length) :
    ∀ t ∈ [e.conditions[i], .any], t.height ≤ maxDepth := by
  simp only [List.mem_cons, List.not_mem_nil, or_false, forall_eq_or_imp, forall_eq]
  exact ⟨e.heights _ (List.getElem_mem hi), by decide⟩

/-- The results are there after one of them has been looked at. -/
theorem Echoed.after {k : Nat} (h : e.Echoed a m) (hi : i < e.conditions.length)
    (hk : a.vertices.size ≤ k) (hab : Extends (fun u => u = m + i ∨ u = e.first) a b)
    (hfilled : b.Filled n (m + i) [e.conditions[i], .any] e.args[i]?)
    (hargs : e.Untouched b ∨ ∃ n, e.Stocked b n ∧ n + e.conditions.length ≤ k ∧
      (n + e.conditions.length ≤ m ∨ m + e.conditions.length ≤ n))
    {c : Arena} (hbc : Extends (k ≤ ·) b c) :
    Extends (fun u => u = m + i ∨ u = e.first) a c ∧ e.Echoed c m := by
  have hresult := h.result hi
  have hlt := hresult.lt
  have hafter := hresult.after
  have hac : Extends (fun u => u = m + i ∨ u = e.first) a c :=
    hab.trans_new (hbc.mono fun u _ hu => Nat.le_trans hk hu)
  refine ⟨hac, h.extends hac ?_ fun j hj hown => ?_⟩
  · refine hargs.imp (fun hu => hu.extends hbc (by omega)) fun ⟨n, hs, hn, hdistinct⟩ => ⟨n,
      ?_, hdistinct⟩
    exact hs.extends hbc fun j hj hown => by omega
  · obtain rfl : j = i := by
      have := (h.result hj).after
      omega
    have hsame : c.vertex (m + j) = b.vertex (m + j) :=
      Intact.vertex hbc (Nat.lt_of_lt_of_le hlt hab.size) fun hu => by have := hu.1; omega
    refine ⟨Nat.lt_of_lt_of_le hlt hac.size, hafter, .inr ⟨by rw [hsame]; exact hfilled.stage, ?_⟩⟩
    rintro ⟨-, hnone⟩
    rw [hnone] at hfilled
    exact Plain.congr hfilled hsame

/-- A result takes over the data and the conditions of its argument. -/
theorem exists_result (left : Nat) (h : e.Echoed a m) (hi : i < e.conditions.length)
    (hindex : Indexes i) (hpending : e.args[i]? ≠ none → (a.vertex (m + i)).stage = .pending) :
    ∃ b k, processAt (left + 2) (m + i) a = ((), b) ∧
      b.Filled k (m + i) [e.conditions[i], .any] e.args[i]? ∧
      ∀ c, Extends (k ≤ ·) b c →
        Extends (fun u => u = m + i ∨ u = e.first) a c ∧ e.Echoed c m := by
  have hresult := h.result hi
  have hargs : e.Untouched a ∨ ∃ n, e.Stocked a n ∧ n + e.conditions.length ≤ a.vertices.size ∧
      (n + e.conditions.length ≤ m ∨ m + e.conditions.length ≤ n) := by
    exact h.args.imp_right fun ⟨n, hs, hdistinct⟩ => ⟨n, hs, hs.le_size hi, hdistinct⟩
  rcases hresult.ready with hv | ⟨hs, hplain⟩
  · let c := a.begin (m + i)
    have hac : Extends (· = m + i) a c :=
      (intact_begin a (m + i)).extends_self (by rw [hv]; exact Stage.noConfusion)
    have hne : e.first ≠ m + i := by have := hresult.after; omega
    have hargs' : e.Untouched c ∨ ∃ n, e.Stocked c n ∧
        (n + e.conditions.length ≤ m ∨ m + e.conditions.length ≤ n) := by
      refine hargs.imp (fun hu => hu.extends hac hne) fun ⟨n, hs, _, hdistinct⟩ => ⟨n,
        ?_, hdistinct⟩
      exact hs.extends hac fun k hk hke => by omega
    obtain ⟨b, n, hresolve, hcb, hstocked, hdistinct⟩ := exists_resolve_argument left
      (P := fun n => n + e.conditions.length ≤ m ∨ m + e.conditions.length ≤ n)
      (h.stands.extends hac)
      hargs' (.inr (by simpa [c] using h.size)) hi hindex
    have hargument := hstocked.argument hi
    have hab : Extends (fun u => u = m + i ∨ u = e.first) a b :=
      (hac.mono fun u _ hu => .inl hu).trans (hcb.mono fun u _ hu => .inr hu)
    have hstands := h.stands.extends hab
    have hlist := h.list.intact hab Extends.not_done
    have happart : b.Apart (n + i) (some (e.first + 1)) := by
      have hafter := hargument.after
      refine .under hlist.stage hlist.forward (by omega) ?_
      rw [hlist.parent]
      exact hstands.apart _ (by omega)
    have hfills : b.hasFillsBelow
        (e.resultPaths i ++ b.furtherPaths (m + i) (b.vertex (n + i)).paths) = false := by
      refine hasFillsBelow_append (hasFillsBelow_parts hstands.apartReturns (.index i)) ?_
      refine hasFillsBelow_of_subset (hstands.ends i hi) fun p hp => ?_
      rw [← hargument.paths]
      exact mem_of_mem_furtherPaths hp
    obtain ⟨f, hrun, -, hbf, hfilled⟩ :=
      exists_filled_of_reference (left + 1) hresult.lt hv rfl rfl rfl
      hresolve hcb (fun ho => hne ho.1.symm) (by omega) hargument.forward happart hargument.bears
      (by rw [hargument.paths]; exact e.visible_pathsAt i) (e.heights_pair hi) hfills
    have hprocessing : (b.vertex (m + i)).stage ≠ .done := by
      have hlt : m + i < c.vertices.size := by simpa [c] using hresult.lt
      have hb : b.vertex (m + i) = c.vertex (m + i) := Intact.vertex hcb hlt fun ho => hne ho.1.symm
      rw [hb, vertex_begin hresult.lt]
      exact Stage.noConfusion
    have hbf' : Extends (· = m + i) b f := hbf.extends_self hprocessing
    exact ⟨f, b.vertices.size, hrun, hfilled, fun _ => h.after hi hab.size
      (hab.trans (hbf'.mono fun u _ hu => .inl hu)) hfilled
      (.inr ⟨n, hstocked.extends hbf' fun k hk hke => by omega, hstocked.le_size hi, hdistinct⟩)⟩
  · have hnone : e.args[i]? = none := by
      by_contra hsome
      rw [hpending hsome] at hs
      cases hs
    have hfilled : a.Filled a.vertices.size (m + i) [e.conditions[i], .any] e.args[i]? := by
      rw [hnone]
      exact hplain ⟨hindex, hnone⟩
    exact ⟨a, a.vertices.size, processAt_of_stage (left + 2) (by rw [hs]; decide), hfilled,
      fun _ => h.after hi (Nat.le_refl _) (.refl _ a) hfilled hargs⟩

/-- No list is indexed by such a position. -/
theorem exists_overflow (left : Nat) (h : e.Echoed a m) (hi : i < e.conditions.length)
    (hover : ¬ Indexes i) (hpending : (a.vertex (m + i)).stage = .pending) :
    ∃ b f, processAt (left + 1) (m + i) a = ((), b) ∧ Extends (· = m + i) a b ∧
      (b.vertex (m + i)).stage = .done ∧ (b.vertex (m + i)).forward = none ∧
      (b.vertex (m + i)).val = .bottom f ∧ f.isIncomplete = false := by
  let v := m + i
  let c : Conjunct := .of (argument i) e.scope false
  let d : Conjunct := .of .top (e.scope + 1) true
  let f : Fault := .of (.invalidIndex (toString (i : Int)))
  have hresult := h.result hi
  have hv := hresult.ready.eq_of_pending hpending
  let s := a.begin v
  let b := s.modify v (·.record f)
  have hlt : v < s.vertices.size := by simpa [s] using hresult.lt
  have has : Extends (· = v) a s := (intact_begin a v).extends_self (by rw [hpending]; decide)
  have hstart : s.vertex v = { a.vertex v with stage := .processing } := vertex_begin hresult.lt
  have hb : b.vertex v = (s.vertex v).record f := vertex_modify _ hlt
  have hposition : positionOf (.int i) = .error (.invalidIndex (toString (i : Int))) := by
    have hbound : ¬ ((0 : Int) ≤ i ∧ (i : Int) < (1 <<< 64 : Nat)) :=
      fun hb => hover (by exact_mod_cast hb.2)
    simp only [positionOf, if_neg hbound]
  have hresolve : (resolve (processAt left) e.scope (argument i)).run s = (.error f, s) := by
    rw [resolve_argument _ (h.stands.extends has), hposition, Attempt.run_bind]
    rfl
  have hfirst : addConjunct (processAt left) v c s = (.keep c, b) := by
    have hreference : (argument i).isReference = true := rfl
    rw [addConjunct_of_expr (x := argument i) rfl, addExpr_of_isReference hreference]
    simp only [addReference, bind, StateT.bind]
    rw [show c.scope = e.scope from rfl, hresolve]
    rfl
  have hsecond : addConjunct (processAt left) v d b = (.keep d, b) := rfl
  obtain ⟨rounds, hr⟩ : ∃ rounds, roundLimit s = rounds + 1 :=
    Nat.exists_eq_add_one.mpr (Nat.mul_pos (by decide) (Nat.succ_pos _))
  have hrounds : addRounds (processAt left) v (roundLimit s) (s.vertex v).seeds s =
      (([c, d], []), b) := by
    have hseeds : (s.vertex v).seeds = [c, d] := by rw [hstart, hv]; rfl
    rw [hr, hseeds, addRounds_cons rounds [d] hfirst rfl rfl,
      addRounds_cons rounds [] hsecond rfl rfl, addRounds_nil]
    rfl
  have hbottom : (b.vertex v).val = .bottom f := by
    rw [hb, hstart, hv]
    rfl
  have hfinish : finish (processAt left) v b = ((), b) :=
    finish_of_isBottom _ (by rw [hbottom]; rfl)
  have hltb : v < b.vertices.size := by simpa [b] using hlt
  have hlast := vertex_conclude hltb
  refine ⟨b.conclude v, f, processAt_of_unifySeeds hpending ((unifySeeds_of_addRounds hrounds).trans hfinish),
    has.trans (((intact_modify_self s v _).trans (intact_conclude b v)).extends_self ?_),
    ?_, ?_, ?_, rfl⟩
  · rw [hstart]; exact Stage.noConfusion
  · rw [hlast]
  · rw [hlast, hb, hstart, hv]; rfl
  · rw [hlast]; exact hbottom

theorem faultsAt_result (levels left : Nat) {concrete : Bool} (h : e.Echoed a m)
    (hi : i < e.conditions.length)
    (hpending : e.args[i]? ≠ none ∨ ¬ Indexes i → (a.vertex (m + i)).stage = .pending)
    (hconcrete : concrete = true → e.args[i]?.isSome = true)
    (hdepth : ∀ j, e.args[i]? = some j → j.depth ≤ left + 1) :
    let r := faultsAt (processAt (levels + 2)) (left + 1) concrete (m + i) a
    Extends (fun u => u = m + i ∨ u = e.first) a r.2 ∧ e.Echoed r.2 m ∧
      Found (¬ Indexes i ∨ e.Excludes i) r.1 := by
  intro r
  by_cases hindex : Indexes i
  · obtain ⟨b, k, hrun, hfilled, hafter⟩ :=
      exists_result levels h hi hindex fun hs => hpending (.inl hs)
    obtain ⟨hinner, hfound⟩ := faultsAt_of_filled (levels + 1) left concrete
      (settle_of_filled hrun hfilled) hfilled (e.heights_pair hi) hconcrete hdepth
    obtain ⟨hextends, hechoed⟩ := hafter r.2 hinner
    have hwrong : (¬ Indexes i ∨ e.Excludes i) ↔
        Condition.ruleOut [e.conditions[i], .any] e.args[i]? = true := by
      simp [Excludes, hi, hindex]
    rw [hwrong]
    exact ⟨hextends, hechoed, hfound⟩
  · have hs := hpending (.inr hindex)
    obtain ⟨b, f, hrun, hab, hstage, hforward, hval, hfinal⟩ :=
      exists_overflow (levels + 1) h hi hindex hs
    have hr : r = ([f.atPath (b.pathText (m + i))], b) :=
      faultsAt_of_isBottom (settle_of_forward hrun hforward) hval
    rw [hr]
    have hresult := h.result hi
    refine ⟨hab.mono fun u _ hu => .inl hu, h.extends hab ?_ fun j hj hown => ?_, ?_⟩
    · have hafter := hresult.after
      refine h.args.imp (fun hu => hu.extends hab (by omega)) ?_
      rintro ⟨n, hn, hdistinct⟩
      exact ⟨n, hn.extends hab fun j hj hown => by omega, hdistinct⟩
    · obtain rfl : j = i := by omega
      exact ⟨Nat.lt_of_lt_of_le hresult.lt hab.size, hresult.after,
        .inr ⟨hstage, fun hno => absurd hno.1 hindex⟩⟩
    · exact ⟨fun hno => absurd (.inl hindex) hno, fun _ => ⟨_, List.mem_singleton_self _,
        (f.isIncomplete_atPath _).trans hfinal⟩⟩

theorem exportAt_result (levels left : Nat) {j : Json} (h : e.Echoed a m)
    (hi : i < e.conditions.length) (hindex : Indexes i)
    (hpending : (a.vertex (m + i)).stage = .pending) (hj : e.args[i]? = some j)
    (hmeets : ¬ e.Excludes i) (hc : j.canonical = true) (hdepth : j.depth ≤ left) :
    let r := (exportAt (processAt (levels + 2)) left (m + i)).run a
    Extends (fun u => u = m + i ∨ u = e.first) a r.2 ∧ e.Echoed r.2 m ∧ r.1 = .ok j := by
  intro r
  obtain ⟨b, k, hrun, hfilled, hafter⟩ := exists_result levels h hi hindex fun _ => hpending
  have hrules : Condition.ruleOut [e.conditions[i], .any] (some j) = false := by
    rw [← Bool.not_eq_true]
    exact fun hr => hmeets ⟨e.conditions[i], by simp [hi], by rw [hj]; exact hr⟩
  have hsettle := settle_of_filled hrun hfilled
  rw [hj] at hfilled
  obtain ⟨hresult, hinner⟩ :=
    exportAt_of_filled (levels + 1) left hsettle hfilled (e.heights_pair hi) hrules
    hc hdepth
  obtain ⟨hextends, hechoed⟩ := hafter r.2 hinner
  exact ⟨hextends, hechoed, hresult⟩

/-! ## All results -/

/-- The list of the results is not processed yet. -/
def Unreturned (e : Echo) (a : Arena) : Prop :=
  e.first + 2 < a.vertices.size ∧ a.vertex (e.first + 1) = .fresh (some e.vertex) e.returnsPaths
    (e.listSeeds ((List.range e.conditions.length).map argument))

/-- Processing the list of the results lays out its elements. -/
theorem exists_echoed (left : Nat) (h : e.Stands a) (hargs : e.Untouched a ∨ ∃ n, e.Stocked a n)
    (hr : e.Unreturned a) :
    ∃ b, processAt (left + 1) (e.first + 1) a = ((), b) ∧ Extends (· = e.first + 1) a b ∧
      e.Echoed b a.vertices.size ∧
      ∀ i < e.conditions.length, (b.vertex (a.vertices.size + i)).stage = .pending := by
  obtain ⟨hlt, hv⟩ := hr
  obtain ⟨b, hrun, hab, hlist, hsize, helements⟩ := exists_enumerated left
    (by omega) hv (.cons ⟨rfl, rfl, rfl⟩ (.cons ⟨rfl, rfl, rfl⟩ .nil)) (List.cons_ne_nil _ _)
    e.agreedLength_returns (by
      rw [fillSelectors_of_hasFillsBelow h.apartReturns]
      exact fun s hs => absurd hs List.not_mem_nil)
  have hfresh (i : Nat) (hi : i < e.conditions.length) : b.vertex (a.vertices.size + i) =
      .fresh (some (e.first + 1)) (e.resultPaths i) (e.seedsAt (argument i)) := by
    have hnone := fillsAt_parts h.apartReturns (.index i)
    rw [helements i hi]
    simp [elementVertex, hv, openPart, ListPart.conjunct?, seedsAt, hi, Vertex.fresh,
      resultPaths, hnone]
  refine ⟨b, hrun, hab, ⟨h.extends hab, ?_, hlist, hsize.ge, fun {i} hi => ?_⟩,
    fun i hi => by rw [hfresh i hi]; rfl⟩
  · refine hargs.imp (fun hu => hu.extends hab (by omega)) ?_
    rintro ⟨n, hn⟩
    refine ⟨n, ?_, ?_⟩
    · refine hn.extends hab fun i hi hown => ?_
      have := (hn.argument hi).after
      omega
    · by_cases hnone : e.conditions.length = 0
      · omega
      · exact .inl (hn.le_size (Nat.pos_of_ne_zero hnone))
  · exact ⟨by omega, by omega, .inl (hfresh i hi)⟩

/-- Results that show data are still to be processed, and so are those that no position leads to. -/
def Expects (e : Echo) (a : Arena) (m : Nat) : Prop :=
  ∀ i < e.conditions.length, e.args[i]? ≠ none ∨ ¬ Indexes i → (a.vertex (m + i)).stage = .pending

/-- The list of the results is there, once it has been processed. -/
theorem exists_settle_returns (left : Nat) (h : e.Stands a)
    (hargs : e.Untouched a ∨ ∃ n, e.Stocked a n)
    (hr : e.Unreturned a ∨ ∃ m, e.Echoed a m ∧ e.Expects a m) :
    ∃ b m, settle (processAt (left + 1)) (e.first + 1) a = (e.first + 1, b) ∧
      Extends (· = e.first + 1) a b ∧ e.Echoed b m ∧ e.Expects b m := by
  rcases hr with hu | ⟨m, he, hexpects⟩
  · obtain ⟨b, hrun, hab, hechoed, hpending⟩ := exists_echoed left h hargs hu
    exact ⟨b, _, settle_of_forward hrun hechoed.list.forward, hab, hechoed,
      fun i hi _ => hpending i hi⟩
  · have hrun : processAt (left + 1) (e.first + 1) a = ((), a) :=
      processAt_of_stage (left + 1) (by rw [he.list.stage]; decide)
    exact ⟨a, m, settle_of_forward hrun he.list.forward, .refl _ a, he, hexpects⟩

/-- A vertex of the results that is still to be looked at. -/
structure Waits (e : Echo) (m : Nat) (a : Arena) (v i : Nat) : Prop where
  eq : v = m + i
  index : i < e.conditions.length
  lt : v < a.vertices.size
  after : e.first + 2 < v
  pending : e.args[i]? ≠ none ∨ ¬ Indexes i → (a.vertex v).stage = .pending

theorem Waits.intact (h : e.Waits m a v i) {u : Nat}
    (hi : Intact (fun w => w = u ∨ w = e.first) a b) (hne : v ≠ u) : e.Waits m b v i := by
  have hafter := h.after
  refine ⟨h.eq, h.index, Nat.lt_of_lt_of_le h.lt hi.size, hafter, fun hwhy => ?_⟩
  rw [hi.vertex h.lt (by omega)]
  exact h.pending hwhy

theorem Echoed.forall₂ (h : e.Echoed a m) (hexpects : e.Expects a m) :
    List.Forall₂ (e.Waits m a) (List.range' m e.conditions.length)
      (List.range e.conditions.length) := by
  refine List.forall₂_iff_get.mpr ⟨by simp, fun i hi hi' => ?_⟩
  have hlt : i < e.conditions.length := by simpa using hi'
  have hresult := h.result hlt
  simp only [List.get_eq_getElem, List.getElem_range', List.getElem_range, Nat.one_mul]
  exact ⟨rfl, hlt, hresult.lt, hresult.after, hexpects i hlt⟩

theorem faultsAt_returns (levels left : Nat) {concrete : Bool} (h : e.Stands a)
    (hargs : e.Untouched a ∨ ∃ n, e.Stocked a n)
    (hr : e.Unreturned a ∨ ∃ m, e.Echoed a m ∧ e.Expects a m)
    (hconcrete : concrete = true → ∀ i < e.conditions.length, e.args[i]?.isSome = true)
    (hdepth : ∀ j ∈ e.args, j.depth ≤ left + 1) :
    let r := faultsAt (processAt (levels + 2)) (left + 2) concrete (e.first + 1) a
    Extends (fun u => u ≠ e.first + 2 ∧ e.first ≤ u) a r.2 ∧ (∃ m, e.Echoed r.2 m) ∧
      Found (∃ i ∈ List.range e.conditions.length, ¬ Indexes i ∨ e.Excludes i) r.1 := by
  intro r
  obtain ⟨b, m, hsettle, hab, hechoed, hexpects⟩ := exists_settle_returns (levels + 1) h hargs hr
  let N := e.conditions.length
  let f := faultsAt (processAt (levels + 2)) (left + 1) concrete
  let I (c : Arena) : Prop := e.Echoed c m ∧ Extends (fun u => u ≠ e.first + 2 ∧ e.first ≤ u) b c
  have hf (c : Arena) (v i : Nat) (hI : I c) (hw : e.Waits m c v i) :
      I (f v c).2 ∧ Found (¬ Indexes i ∨ e.Excludes i) (f v c).1 ∧
        Intact (fun u => u = v ∨ u = e.first) c (f v c).2 := by
    obtain ⟨rfl, hi, -, hafter, hpending⟩ := hw
    obtain ⟨hextends, hlast, hfound⟩ := faultsAt_result levels left hI.1 hi hpending
      (fun hc => hconcrete hc i hi) fun j hj => hdepth j (List.mem_of_getElem? hj)
    refine ⟨⟨hlast, hI.2.trans (hextends.mono fun u _ hu => ?_)⟩, hfound,
      Intact.mono hextends fun u _ hu => hu.1⟩
    omega
  obtain ⟨⟨hlast, hwalk⟩, hfound, -⟩ := run_mapM_of_each (f := f)
    (Q := fun i fs => Found (¬ Indexes i ∨ e.Excludes i) fs) id (· = e.first) hf
    (fun c d v u i hw hi hne => hw.intact hi hne) ⟨hechoed, .refl _ b⟩ (hechoed.forall₂ hexpects)
    (by simpa using List.nodup_range')
  have hrun : r = (((List.range' m N).mapM f b).1.flatten, ((List.range' m N).mapM f b).2) := by
    rw [← hechoed.list.elems]
    exact faultsAt_of_list hsettle hechoed.list.val hechoed.list.pending
  rw [hrun]
  exact ⟨(hab.mono fun u _ hu => by omega).trans hwalk, ⟨m, hlast⟩, Found.flatten hfound⟩

/-- The results are exported as the arguments are. -/
theorem exportAt_returns (levels left : Nat) (h : e.Stands a)
    (hargs : e.Untouched a ∨ ∃ n, e.Stocked a n)
    (hr : e.Unreturned a ∨ ∃ m, e.Echoed a m ∧ e.Expects a m)
    (hlength : e.args.length = e.conditions.length)
    (hmeets : ∀ i < e.conditions.length, Indexes i ∧ ¬ e.Excludes i)
    (hdata : ∀ j ∈ e.args, j.canonical = true ∧ j.depth ≤ left) :
    ((exportAt (processAt (levels + 2)) (left + 1) (e.first + 1)).run a).1 = .ok (.arr e.args) := by
  obtain ⟨b, m, hsettle, hab, hechoed, hexpects⟩ := exists_settle_returns (levels + 1) h hargs hr
  let N := e.conditions.length
  let f := exportAt (processAt (levels + 2)) left
  let R (c : Arena) (v : Nat) (j : Json) : Prop := ∃ i, e.Waits m c v i ∧ e.args[i]? = some j
  have hf (c : Arena) (v : Nat) (j : Json) (hI : e.Echoed c m) (hR : R c v j) :
      e.Echoed ((f v).run c).2 m ∧ ((f v).run c).1 = .ok j ∧
        Intact (fun u => u = v ∨ u = e.first) c ((f v).run c).2 := by
    obtain ⟨i, ⟨rfl, hi, -, -, hpending⟩, hj⟩ := hR
    obtain ⟨hc, hd⟩ := hdata j (List.mem_of_getElem? hj)
    obtain ⟨hextends, hlast, hresult⟩ := exportAt_result levels left hI hi (hmeets i hi).1
      (hpending (.inl (by rw [hj]; exact Option.some_ne_none j))) hj (hmeets i hi).2 hc hd
    exact ⟨hlast, hresult, Intact.mono hextends fun u _ hu => hu.1⟩
  have hstart : List.Forall₂ (R b) (List.range' m N) e.args := by
    obtain ⟨hlen, hget⟩ := List.forall₂_iff_get.mp (hechoed.forall₂ hexpects)
    refine List.forall₂_iff_get.mpr ⟨by simp [N, hlength], fun i hi hi' => ⟨i, ?_, ?_⟩⟩
    · have hw := hget i hi (hlen ▸ hi)
      simpa using hw
    · simp [hi']
  obtain ⟨-, hresult, -⟩ := Attempt.run_mapM_of_each (f := f) id (· = e.first) hf
    (fun c d v u j hR hi hne => hR.imp fun i hw => ⟨hw.1.intact hi hne, hw.2⟩) hechoed hstart
    (by simpa using List.nodup_range')
  rw [run_exportAt_of_list hsettle hechoed.list.val hechoed.list.pending hechoed.list.stage,
    hechoed.list.elems, Attempt.run_bind_of_ok hresult]
  rfl

end Echo

end SchemaMock
