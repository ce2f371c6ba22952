import SchemaMock.Proofs.Echo.Layout

/-! # The arguments of a function

Each condition becomes an element of the list of arguments, beside the data that is filled in there.
Validation finds a fault at an element when the data does not meet the condition.
-/

namespace SchemaMock

open Arena Eval

namespace Echo

variable {e : Echo} {a b : Arena} {own : Nat → Prop} {n : Nat}

theorem bears_of_supplied {paths : List Path} {arg : Option Json} {cs : List Conjunct}
    {ts : List Condition} (h : Supplied a paths arg) (hcs : a.Conditions cs ts) :
    a.Bears ts arg (a.fillsAt paths ++ cs) := by
  cases arg with
  | none =>
    have hnone : a.fillsAt paths = [] := h
    rw [hnone]
    exact hcs
  | some j =>
    obtain ⟨c, hc, hw⟩ := h
    rw [hc]
    exact ⟨c, cs, rfl, hw, hcs⟩

theorem Stands.conditions (h : e.Stands a) {i : Nat} (hi : i < e.conditions.length) :
    a.Conditions (e.seedsAt e.conditions[i].toExpr) [e.conditions[i], .any] :=
  .cons ⟨rfl, h.clear _ (List.getElem_mem hi)⟩ (.cons ⟨rfl, nofun⟩ .nil)

/-- Processing the list of the arguments lays out its elements. -/
theorem exists_stocked (left : Nat) (h : e.Stands a) (hu : e.Untouched a) :
    ∃ b, processAt (left + 1) e.first a = ((), b) ∧ Extends (· = e.first) a b ∧
      e.Stocked b a.vertices.size ∧ b.vertices.size = a.vertices.size + e.conditions.length ∧
      ∀ i < e.conditions.length, (b.vertex (a.vertices.size + i)).stage = .pending := by
  obtain ⟨hlt, hv⟩ := hu
  obtain ⟨b, hrun, hab, hlist, hsize, helements⟩ := exists_enumerated left
    (by omega) hv (.cons ⟨rfl, rfl, rfl⟩ (.cons ⟨rfl, rfl, rfl⟩ .nil)) (List.cons_ne_nil _ _)
    e.agreedLength_args h.selectors
  have hfresh (i : Nat) (hi : i < e.conditions.length) : b.vertex (a.vertices.size + i) =
      .fresh (some e.first) (e.pathsAt i)
        (a.fillsAt (e.pathsAt i) ++ e.seedsAt e.conditions[i].toExpr) := by
    rw [helements i hi]
    simp [elementVertex, hv, openPart, ListPart.conjunct?, seedsAt, hi, Vertex.fresh, pathsAt]
  refine ⟨b, hrun, hab, ⟨hlist, fun {i} hi => ?_⟩, hsize, fun i hi => by rw [hfresh i hi]; rfl⟩
  have hbears := (bears_of_supplied (h.supplied i hi) (h.conditions hi)).intact hab Extends.not_done
  refine ⟨by omega, by omega, ?_, ?_, ?_, .inl ?_⟩
  all_goals rw [hfresh i hi]
  all_goals first | exact hbears | rfl

/-- Arguments with data are still to be processed. -/
def Awaits (e : Echo) (a : Arena) (n : Nat) : Prop :=
  ∀ i < e.conditions.length, e.args[i]? ≠ none → (a.vertex (n + i)).stage = .pending

/-- The list of the arguments is there, once it has been processed. -/
theorem exists_settle_args (left : Nat) {P : Arena → Nat → Prop} (h : e.Stands a)
    (hs : e.Untouched a ∨ ∃ n, e.Stocked a n ∧ P a n)
    (hnew : ∀ b, b.vertices.size = a.vertices.size + e.conditions.length →
      (∀ i < e.conditions.length, (b.vertex (a.vertices.size + i)).stage = .pending) →
      P b a.vertices.size) :
    ∃ b n, settle (processAt (left + 1)) e.first a = (e.first, b) ∧ Extends (· = e.first) a b ∧
      e.Stocked b n ∧ P b n := by
  rcases hs with hu | ⟨n, hs, hp⟩
  · obtain ⟨b, hrun, hab, hstocked, hsize, hpending⟩ := exists_stocked left h hu
    exact ⟨b, _, settle_of_forward hrun hstocked.list.forward, hab, hstocked, hnew b hsize hpending⟩
  · have hrun : processAt (left + 1) e.first a = ((), a) :=
      processAt_of_stage (left + 1) (by rw [hs.list.stage]; decide)
    exact ⟨a, n, settle_of_forward hrun hs.list.forward, .refl _ a, hs, hp⟩

theorem faultsAt_argument (levels left : Nat) {concrete : Bool} {i v : Nat} {t : Condition}
    (h : e.Argument a i v t) (hends : a.hasFillsBelow (e.pathsAt i) = false)
    (hheight : t.height ≤ maxDepth) (hpending : e.args[i]? ≠ none → (a.vertex v).stage = .pending)
    (hconcrete : concrete = true → e.args[i]?.isSome = true)
    (hdepth : ∀ j, e.args[i]? = some j → j.depth ≤ left + 1) :
    let r := faultsAt (processAt (levels + 1)) (left + 1) concrete v a
    Extends (· = v) a r.2 ∧ e.Argument r.2 i v t ∧
      Found (Condition.ruleOut [t, .any] e.args[i]? = true) r.1 := by
  intro r
  have hheights : ∀ u ∈ [t, .any], u.height ≤ maxDepth := by
    simp only [List.mem_cons, List.not_mem_nil, or_false, forall_eq_or_imp, forall_eq]
    exact ⟨hheight, by decide⟩
  rcases h.ready with hv | ⟨hs, hplain⟩
  · obtain ⟨b, hrun, hab, hfilled, hpaths, hseeds⟩ :=
      exists_filled levels h.lt hv h.bears hheights hends
    obtain ⟨hinner, hfound⟩ :=
      faultsAt_of_filled levels left concrete (settle_of_filled hrun hfilled)
      hfilled hheights hconcrete hdepth
    have hall : Intact (· = v) a r.2 := hab.trans_new (Intact.mono hinner fun _ _ hu => hu.1)
    have hextends : Extends (· = v) a r.2 := hall.extends_self (by rw [hv]; exact Stage.noConfusion)
    have hsame : r.2.vertex v = b.vertex v :=
      Intact.vertex hinner (Nat.lt_of_lt_of_le h.lt hab.size) fun hu => Nat.not_le_of_gt h.lt hu.1
    refine ⟨hextends, ⟨Nat.lt_of_lt_of_le h.lt hall.size, h.after, ?_, ?_, ?_, .inr ⟨?_, fun hnone => ?_⟩⟩,
      hfound⟩
    · rw [hsame]; exact hfilled.forward
    · rw [hsame]; exact hpaths
    · rw [hsame, hseeds]; exact h.bears.intact hextends Extends.not_done
    · rw [hsame]; exact hfilled.stage
    · rw [hnone] at hfilled
      exact Plain.congr hfilled hsame
  · have hnone : e.args[i]? = none := by
      by_contra hsome
      rw [hpending hsome] at hs
      cases hs
    have hfilled : a.Filled a.vertices.size v [t, .any] e.args[i]? := by
      rw [hnone]
      exact hplain hnone
    have hrun : processAt (levels + 1) v a = ((), a) :=
      processAt_of_stage (levels + 1) (by rw [hs]; decide)
    obtain ⟨hinner, hfound⟩ :=
      faultsAt_of_filled levels left concrete (settle_of_filled hrun hfilled)
      hfilled hheights hconcrete hdepth
    have hextends {own : Nat → Prop} : Extends own a r.2 :=
      hinner.mono fun u hu hle => absurd hu (Nat.not_lt_of_ge hle)
    exact ⟨hextends, h.extends (@hextends fun _ => False) not_false, hfound⟩

theorem faultsAt_args (levels left : Nat) {concrete : Bool} {P : Nat → Prop} (h : e.Stands a)
    (hs : e.Untouched a ∨ ∃ n, e.Stocked a n ∧ e.Awaits a n ∧ P n) (hnew : P a.vertices.size)
    (hconcrete : concrete = true → ∀ i < e.conditions.length, e.args[i]?.isSome = true)
    (hdepth : ∀ j ∈ e.args, j.depth ≤ left + 1) :
    let r := faultsAt (processAt (levels + 1)) (left + 2) concrete e.first a
    Found (∃ i ∈ List.range e.conditions.length, e.Excludes i) r.1 ∧ ∃ n, e.Stocked r.2 n ∧ P n ∧
      Extends (fun u => u = e.first ∨ ∃ i < e.conditions.length, u = n + i) a r.2 := by
  intro r
  obtain ⟨b, n, hsettle, hab, hstocked, hawaits, hp⟩ :=
    exists_settle_args (P := fun a n => e.Awaits a n ∧ P n) levels h hs
      fun b _ hpending => ⟨fun i hi _ => hpending i hi, hnew⟩
  let N := e.conditions.length
  let f := faultsAt (processAt (levels + 1)) (left + 1) concrete
  let own (u : Nat) : Prop := ∃ i < e.conditions.length, u = n + i
  let I (c : Arena) : Prop := e.Stands c ∧ e.Stocked c n ∧ Extends own b c
  let R (c : Arena) (v i : Nat) : Prop :=
    v = n + i ∧ i < N ∧ v < c.vertices.size ∧ (e.args[i]? ≠ none → (c.vertex v).stage = .pending)
  have hf (c : Arena) (v i : Nat) (hI : I c) (hR : R c v i) :
      I (f v c).2 ∧ Found (e.Excludes i) (f v c).1 ∧
        Intact (fun u => u = v ∨ False) c (f v c).2 := by
    obtain ⟨rfl, hi, -, hpending⟩ := hR
    have hi' : i < e.conditions.length := hi
    obtain ⟨hextends, hargument, hfound⟩ := faultsAt_argument levels left (hI.2.1.argument hi)
      (hI.1.ends i hi) (e.heights _ (List.getElem_mem hi)) hpending (fun hc => hconcrete hc i hi)
      fun j hj => hdepth j (List.mem_of_getElem? hj)
    refine ⟨⟨hI.1.extends hextends, hI.2.1.extends hextends fun k hk hke => ?_, hI.2.2.trans
      (hextends.mono fun u _ hu => ⟨i, hi, hu⟩)⟩, ?_, Intact.mono hextends fun u _ hu => .inl hu.1⟩
    · obtain rfl : k = i := Nat.add_left_cancel hke
      exact hargument
    · have hexcludes :
          e.Excludes i ↔ Condition.ruleOut [e.conditions[i], .any] e.args[i]? = true := by
        simp [Excludes, hi']
      rw [hexcludes]
      exact hfound
  have hR (c d : Arena) (v u i : Nat) (hR : R c v i) (hi : Intact (fun w => w = u ∨ False) c d)
      (hne : v ≠ u) : R d v i := by
    refine ⟨hR.1, hR.2.1, Nat.lt_of_lt_of_le hR.2.2.1 hi.size, fun hsome => ?_⟩
    rw [hi.vertex hR.2.2.1 (by simpa using hne)]
    exact hR.2.2.2 hsome
  have hstart : List.Forall₂ (R b) (List.range' n N) (List.range N) := by
    refine List.forall₂_iff_get.mpr ⟨by simp, fun i hi hi' => ?_⟩
    have hlt : i < N := by simpa using hi'
    simp only [List.get_eq_getElem, List.getElem_range', List.getElem_range, Nat.one_mul]
    exact ⟨rfl, hlt, (hstocked.argument hlt).lt, hawaits i hlt⟩
  obtain ⟨⟨-, hlast, hwalk⟩, hfound, -⟩ := run_mapM_of_each (f := f)
    (Q := fun i fs => Found (e.Excludes i) fs) id (fun _ => False) hf hR
    ⟨h.extends hab, hstocked, .refl _ b⟩ hstart (by simpa using List.nodup_range')
  have hrun : r = (((List.range' n N).mapM f b).1.flatten, ((List.range' n N).mapM f b).2) := by
    rw [← hstocked.list.elems]
    exact faultsAt_of_list hsettle hstocked.list.val hstocked.list.pending
  rw [hrun]
  exact ⟨Found.flatten hfound, n, hlast, hp,
    (hab.mono fun u _ hu => .inl hu).trans (hwalk.mono fun u _ hu => .inr hu)⟩

end Echo

end SchemaMock
