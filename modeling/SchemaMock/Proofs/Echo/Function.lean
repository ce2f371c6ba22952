import SchemaMock.Proofs.Echo.Results

/-! # A function as a whole

The function is a struct of three fields. Validation goes through its arguments, its results and its
limit, and finds a fault where an argument has one.
-/

namespace SchemaMock

open Arena Eval

namespace Echo

variable {e : Echo} {a b : Arena} {own : Nat → Prop} {m n : Nat}

/-! ## The limit -/

def Unlimited (e : Echo) (a : Arena) : Prop :=
  e.first + 2 < a.vertices.size ∧ a.vertex (e.first + 2) =
    .fresh (some e.vertex) e.limitPaths [.of limitExpr (e.scope + 1) true]

/-- The limit has become the one that stands for none. -/
structure Limit (e : Echo) (a : Arena) (w : Nat) : Prop where
  settles : a.SettlesTo (e.first + 2) w
  val : (a.vertex w).val = .atom (.int Mock.unbounded)
  pending : (a.vertex w).pending = []

theorem Unlimited.extends (h : e.Unlimited a) (hi : Extends own a b) (hown : ¬ own (e.first + 2)) :
    e.Unlimited b :=
  ⟨Nat.lt_of_lt_of_le h.1 hi.size, (Intact.vertex hi h.1 fun ho => hown ho.1).trans h.2⟩

theorem Limit.extends {w : Nat} (h : e.Limit a w) (hi : Extends own a b) : e.Limit b w := by
  have hsame : b.vertex w = a.vertex w := hi.vertex_of_done h.settles.stage_last
  exact ⟨h.settles.intact hi Extends.not_done, by rw [hsame]; exact h.val, by rw [hsame]; exact h.pending⟩

theorem narrow_single {t : Condition} (h : t.height ≤ 1) (v : Val) :
    Condition.narrow maxDepth [t] v = Condition.narrow 1 [t] v := by
  rw [Condition.narrow, Condition.narrow,
    Condition.breadthFirst_of_height_le (by simpa using h) (by decide : 1 ≤ maxDepth)]

/-- Whatever the arena, the limit is there once it has been processed. -/
theorem exists_settle_limit (left : Nat) (h : e.Stands a) (hl : e.Unlimited a ∨ ∃ w, e.Limit a w) :
    ∃ b w, settle (processAt (left + 2)) (e.first + 2) a = (w, b) ∧
      Extends (· = e.first + 2) a b ∧ e.Limit b w := by
  rcases hl with ⟨hlt, hv⟩ | ⟨w, hw⟩
  · have hheights : countType.height ≤ maxDepth ∧ unlimited.height ≤ maxDepth := by decide
    have hval : Condition.narrow maxDepth [unlimited] .top = .atom (.int Mock.unbounded) := by
      rw [narrow_single (by decide)]
      rfl
    obtain ⟨b, w, hrun, hab, hsettles, hw⟩ := exists_settles_default left (t := countType)
      (u := unlimited) hlt hv rfl h.count nofun hheights h.apartLimit (by rw [hval]; rfl)
    rw [hval] at hw
    refine ⟨b, w, settle_of_settlesTo hrun hsettles, hab.extends_self ?_, hsettles, ?_, ?_⟩
    · rw [hv]; exact Stage.noConfusion
    · rw [hw]
    · rw [hw]
      rfl
  · have hrun : processAt (left + 2) (e.first + 2) a = ((), a) :=
      processAt_of_stage (left + 2) (by rw [hw.settles.stage]; decide)
    exact ⟨a, w, settle_of_settlesTo hrun hw.settles, .refl _ a, hw⟩

/-! ## The struct -/

/-- The function is a struct that is done, whatever has been looked at of its parts. -/
structure Formed (e : Echo) (a : Arena) : Prop where
  lt : e.vertex < e.first
  stands : e.Stands a
  stage : (a.vertex e.vertex).stage = .done
  forward : (a.vertex e.vertex).forward = none
  disjuncts : (a.vertex e.vertex).disjuncts = []
  pending : (a.vertex e.vertex).pending = []
  val : (a.vertex e.vertex).val = .ofKinds .ofStruct
  arcs : (a.vertex e.vertex).arcs = arcsFrom e.first [argsLabel, returnsLabel, limitLabel]

theorem Formed.extends (h : e.Formed a) (hi : Extends own a b) : e.Formed b := by
  have hsame := hi.vertex_of_done h.stage
  refine ⟨h.lt, h.stands.extends hi, ?_, ?_, ?_, ?_, ?_, ?_⟩
  all_goals rw [hsame]
  exacts [h.stage, h.forward, h.disjuncts, h.pending, h.val, h.arcs]

theorem Formed.fields (h : e.Formed a) : (a.vertex e.vertex).fields =
    [(argsLabel, e.first), (returnsLabel, e.first + 1), (limitLabel, e.first + 2)] := by
  rw [Vertex.fields, h.arcs]
  rfl

/-- All parts of the function have been looked at. -/
structure Complete (e : Echo) (a : Arena) : Prop where
  args : (a.vertex e.first).stage = .done
  results : ∃ m, e.Echoed a m
  limit : ∃ w, e.Limit a w

/-- None of them has. -/
structure Pristine (e : Echo) (a : Arena) : Prop where
  args : e.Untouched a
  results : e.Unreturned a
  limit : e.Unlimited a

theorem Unreturned.extends (h : e.Unreturned a) (hi : Extends own a b)
    (hown : ¬ own (e.first + 1)) : e.Unreturned b := by
  obtain ⟨hlt, hv⟩ := h
  exact ⟨Nat.lt_of_lt_of_le hlt hi.size, (Intact.vertex hi (by omega) fun ho => hown ho.1).trans hv⟩

/-- The arguments cannot be untouched once their list is done. -/
theorem Echoed.stocked (h : e.Echoed a m) (hs : (a.vertex e.first).stage = .done) :
    ∃ n, e.Stocked a n ∧ (n + e.conditions.length ≤ m ∨ m + e.conditions.length ≤ n) := by
  refine h.args.resolve_left fun hu => ?_
  rw [hu.2] at hs
  cases hs

/-- The vertices that belong to a function. -/
theorem Echoed.extends_limit (h : e.Echoed a m) (hi : Extends (· = e.first + 2) a b) :
    e.Echoed b m := by
  refine h.extends hi ?_ fun i hi' hown => ?_
  · refine h.args.imp (fun hu => hu.extends hi (by omega)) ?_
    rintro ⟨n, hn, hdistinct⟩
    refine ⟨n, hn.extends hi fun i hi' hown => ?_, hdistinct⟩
    have := (hn.argument hi').after
    omega
  · have := (h.result hi').after
    omega

/-- The parts may be looked at for the first time, or again where nothing is wrong. -/
def Walkable (e : Echo) (a : Arena) : Prop :=
  e.Pristine a ∨ e.Complete a ∧ e.args = [] ∧ ∀ i < e.conditions.length, Indexes i

/-- Validation begins with the arguments. -/
theorem faultsAt_first (levels left : Nat) {concrete : Bool} (h : e.Formed a)
    (hparts : e.Walkable a) (hconcrete : concrete = true → ∀ i < e.conditions.length, e.args[i]?.isSome = true)
    (hdepth : ∀ j ∈ e.args, j.depth ≤ left + 1) :
    let r := faultsAt (processAt (levels + 2)) (left + 2) concrete e.first a
    Found (∃ i ∈ List.range e.conditions.length, e.Excludes i) r.1 ∧ Extends (e.first ≤ ·) a r.2 ∧
      (∃ n, e.Stocked r.2 n) ∧ (e.Unreturned r.2 ∨ ∃ m, e.Echoed r.2 m ∧ e.Expects r.2 m) ∧
      (e.Unlimited r.2 ∨ ∃ w, e.Limit r.2 w) := by
  intro r
  rcases hparts with ⟨hargs, hresults, hlimit⟩ | ⟨⟨hargs, ⟨m, hechoed⟩, w, hlimit⟩, hnone, hindex⟩
  · obtain ⟨hfound, n, hstocked, -, hextends⟩ :=
      faultsAt_args (P := fun _ => True) (levels + 1) left h.stands
      (.inl hargs) trivial hconcrete hdepth
    have hafter (u : Nat) (hu : u = e.first ∨ ∃ i < e.conditions.length, u = n + i) :
        u = e.first ∨ e.first + 2 < u := by
      refine hu.imp_right fun ⟨i, hi, he⟩ => ?_
      rw [he]
      exact (hstocked.argument hi).after
    have hextends' := hextends.mono fun u _ => hafter u
    exact ⟨hfound, hextends'.mono fun u _ hu => by omega, ⟨n, hstocked⟩,
      .inl (hresults.extends hextends' (by omega)), .inl (hlimit.extends hextends' (by omega))⟩
  · have hexpects (a : Arena) : e.Expects a m := by
      intro i hi hwhy
      exact absurd (hindex i hi) (hwhy.resolve_left (by simp [hnone]))
    obtain ⟨n, hn, hdistinct⟩ := hechoed.stocked hargs
    obtain ⟨hfound, n, hstocked, hdistinct, hextends⟩ := faultsAt_args (levels + 1) left h.stands
      (P := fun n => n + e.conditions.length ≤ m ∨ m + e.conditions.length ≤ n)
      (.inr ⟨n, hn, fun i hi hsome => absurd (by simp [hnone]) hsome, hdistinct⟩)
      (.inr hechoed.size)
      hconcrete hdepth
    have hechoed' : e.Echoed r.2 m := by
      refine hechoed.extends hextends (.inr ⟨n, hstocked, hdistinct⟩) fun i hi hown => ?_
      have hafter := (hechoed.result hi).after
      obtain he | ⟨k, hk, he⟩ := hown
      all_goals omega
    refine ⟨hfound, hextends.mono fun u _ hu => ?_, ⟨n, hstocked⟩, .inr ⟨m, hechoed', hexpects _⟩,
      .inr ⟨w, hlimit.extends hextends⟩⟩
    obtain he | ⟨k, hk, he⟩ := hu
    · exact he.ge
    · have := (hstocked.argument hk).after
      omega

theorem faultsAt_function (levels left : Nat) {concrete : Bool} (h : e.Formed a)
    (hparts : e.Walkable a) (hconcrete : concrete = true → ∀ i < e.conditions.length, e.args[i]?.isSome = true)
    (hdepth : ∀ j ∈ e.args, j.depth ≤ left + 1) :
    let r := faultsAt (processAt (levels + 2)) (left + 3) concrete e.vertex a
    Extends (e.first ≤ ·) a r.2 ∧ e.Complete r.2 ∧
      Found (∃ i ∈ List.range e.conditions.length, ¬ Indexes i ∨ e.Excludes i) r.1 := by
  intro r
  have hrun : processAt (levels + 2) e.vertex a = ((), a) :=
    processAt_of_stage (levels + 2) (by rw [h.stage]; decide)
  rcases hx : faultsAt (processAt (levels + 2)) (left + 2) concrete e.first a with ⟨fs, b⟩
  obtain ⟨hfs, hab, ⟨n, hstocked⟩, hresults, hlimit⟩ :=
    faultsAt_first levels left h hparts hconcrete hdepth
  rw [hx] at hfs hab hstocked hresults hlimit
  rcases hy : faultsAt (processAt (levels + 2)) (left + 2) concrete (e.first + 1) b with ⟨gs, c⟩
  obtain ⟨hbc, ⟨m, hechoed⟩, hgs⟩ := faultsAt_returns levels left (h.stands.extends hab)
    (.inr ⟨n, hstocked⟩) hresults hconcrete hdepth
  rw [hy] at hbc hechoed hgs
  have hlimit' : e.Unlimited c ∨ ∃ w, e.Limit c w :=
    hlimit.imp (fun hu => hu.extends hbc (by omega)) fun ⟨w, hw⟩ => ⟨w, hw.extends hbc⟩
  obtain ⟨d, w, hsettle, hcd, hw⟩ := exists_settle_limit levels hechoed.stands hlimit'
  have hz : faultsAt (processAt (levels + 2)) (left + 2) concrete (e.first + 2) c = ([], d) :=
    faultsAt_of_atom hsettle hw.val hw.pending
  have hr : r = (fs ++ (gs ++ []), d) := by
    have hregular : ∀ p ∈ (a.vertex e.vertex).fields, p.1.isRegular = true := by
      rw [h.fields]
      simp only [List.mem_cons, List.not_mem_nil, or_false, forall_eq_or_imp, forall_eq]
      exact ⟨rfl, rfl, rfl⟩
    have hmap : (a.vertex e.vertex).fields.map (·.2) = [e.first, e.first + 1, e.first + 2] := by
      rw [h.fields]
      rfl
    have hfaults : faultsAt (processAt (levels + 2)) (left + 2 + 1) concrete e.vertex a = _ :=
      faultsAt_of_regular (settle_of_forward hrun h.forward) h.val h.pending hregular
    rw [hmap, run_mapM_three hx hy hz] at hfaults
    exact hfaults
  rw [hr]
  refine ⟨(hab.trans (hbc.mono fun u _ hu => hu.2)).trans (hcd.mono fun u _ hu => by omega),
    ⟨?_, ⟨m, hechoed.extends_limit hcd⟩, w, hw⟩, ?_⟩
  · have hdone := hstocked.list.stage
    have hc : (c.vertex e.first).stage = .done := by rw [hbc.vertex_of_done hdone]; exact hdone
    rw [hcd.vertex_of_done hc]
    exact hc
  · have hwrong : (∃ i ∈ List.range e.conditions.length, ¬ Indexes i ∨ e.Excludes i) ↔
        (∃ i ∈ List.range e.conditions.length, e.Excludes i) ∨
          (∃ i ∈ List.range e.conditions.length, ¬ Indexes i ∨ e.Excludes i) ∨ False := by
      refine ⟨fun h => .inr (.inl h), ?_⟩
      rintro (⟨i, hi, h⟩ | h | h)
      · exact ⟨i, hi, .inr h⟩
      · exact h
      · exact h.elim
    rw [hwrong]
    exact hfs.append (hgs.append .nil)

end Echo

end SchemaMock
