import SchemaMock.Proofs.Integers

/-! # The greatest and the least of a list

Both functions go through the list once and keep an item until one exceeds it. On integers that is
the extreme of the list, so that neither the order of the items nor a split of the list matters.
-/

namespace SchemaMock

def Json.isNumber : Json → Bool
  | .int _ | .float _ => true
  | _ => false

namespace Builtin

/-- The function gives the item of a list of integers that stands in a relation to every item,
whatever the order of the list and wherever it is split. It needs an item, and nothing but
numbers. -/
structure Selects (f : Builtin) (r : Int → Int → Prop) : Prop where
  extreme (items : List Int) (h : items ≠ []) :
    ∃ m ∈ items, (∀ i ∈ items, r m i) ∧ f.call [.arr (items.map .int)] = .ok (.int m)
  perm (items others : List Int) (h : items.Perm others) :
    f.call [.arr (items.map .int)] = f.call [.arr (others.map .int)]
  split (front back : List Int) (hfront : front ≠ []) (hback : back ≠ []) :
    ∃ a b, f.call [.arr (front.map .int)] = .ok (.int a) ∧
      f.call [.arr (back.map .int)] = .ok (.int b) ∧
      f.call [.arr ((front ++ back).map .int)] = f.call [.arr [.int a, .int b]]
  empty : f.call [.arr []] = .error (.argument f .emptyList)
  notNumber (items : List Json) (h : ∃ j ∈ items, j.isNumber = false) :
    ∃ j, items.find? (!·.isNumber) = some j ∧
      f.call [.arr items] = .error (.argument f (.notNumber j))

/-- Of the item kept so far and the next one, the one that stays. -/
def pick (want : Ordering) (best n : Int) : Int := if compare n best = want then n else best

theorem extreme?_ints (want : Ordering) (first : Int) (rest : List Int) :
    extreme? want ((first :: rest).map .int) = some (.int (rest.foldl (pick want) first)) := by
  have hpick (best n : Int) :
      (if (Scalar.int n).compare (.int best) = some want then Scalar.int n else .int best) =
        .int (pick want best n) := by
    simp only [pick, Scalar.compare, Option.some_inj, apply_ite Scalar.int]
  rw [List.map_cons, extreme?, List.foldl_map]
  exact congrArg some (List.foldl_hom Scalar.int hpick)

/-- The first item that is not a number is reported. -/
theorem numbers_of_find? (f : Builtin) {items : List Json} {j : Json}
    (h : items.find? (!·.isNumber) = some j) :
    numbers f (.arr items) = .error (.argument f (.notNumber j)) := by
  obtain ⟨hj, front, rest, rfl, hfront⟩ := List.find?_eq_some_iff_append.mp h
  refine Except.mapM_eq_error (fun i hi => ?_) ?_
  · have hnumber := hfront i hi
    cases i with
    | int i => exact ⟨.int i, rfl⟩
    | float x => exact ⟨.float x, rfl⟩
    | _ => cases hnumber
  · cases j with
    | int i => cases hj
    | float x => cases hj
    | _ => rfl

section

variable {f : Builtin} {want : Ordering} {r : Int → Int → Prop} [IsLinearOrder Int r]
  (hf : ∀ j, f.call [j] = extreme f want j) (hwant : ∀ a b : Int, compare a b = want ↔ ¬ r b a)

include hwant

theorem pick_reaches (best n : Int) : r (pick want best n) best ∧ r (pick want best n) n := by
  unfold pick
  split
  · exact ⟨(total_of r n best).resolve_right ((hwant n best).mp ‹_›), refl_of r n⟩
  · exact ⟨refl_of r best, not_not.mp (mt (hwant n best).mpr ‹_›)⟩

/-- What is kept is never given up for less. -/
theorem foldl_pick_reaches (first : Int) (rest : List Int) :
    ∀ i ∈ first :: rest, r (rest.foldl (pick want) first) i := by
  induction rest generalizing first with
  | nil => exact List.forall_mem_singleton.mpr (refl_of r first)
  | cons n rest ih =>
    have hnext := ih (pick want first n)
    rw [List.forall_mem_cons] at hnext
    obtain ⟨hfirst, hn⟩ := pick_reaches hwant first n
    exact List.forall_mem_cons.mpr ⟨trans_of r hnext.1 hfirst,
      List.forall_mem_cons.mpr ⟨trans_of r hnext.1 hn, hnext.2⟩⟩

include hf

theorem exists_extreme {items : List Int} (h : items ≠ []) :
    ∃ m ∈ items, (∀ i ∈ items, r m i) ∧ f.call [.arr (items.map .int)] = .ok (.int m) := by
  obtain ⟨first, rest, rfl⟩ := List.exists_cons_of_ne_nil h
  refine ⟨rest.foldl (pick want) first, foldl_mem (fun best n => ?_) first rest,
    foldl_pick_reaches hwant first rest, ?_⟩
  · unfold pick
    split
    · exact .inr rfl
    · exact .inl rfl
  · rw [hf, extreme, numbers_ints]
    dsimp only [bind, Except.bind]
    rw [extreme?_ints]

theorem call_eq_ok_iff {items : List Int} {m : Int} :
    f.call [.arr (items.map .int)] = .ok (.int m) ↔ m ∈ items ∧ ∀ i ∈ items, r m i := by
  constructor
  · intro h
    by_cases hitems : items = []
    · subst hitems
      rw [hf] at h
      cases h
    · obtain ⟨n, hn, hreaches, hcall⟩ := exists_extreme hf hwant hitems
      cases hcall.symm.trans h
      exact ⟨hn, hreaches⟩
  · rintro ⟨hm, hreaches⟩
    obtain ⟨n, hn, hreaches', hcall⟩ := exists_extreme hf hwant (List.ne_nil_of_mem hm)
    rw [hcall, antisymm_of r (hreaches' m hm) (hreaches n hn)]

theorem selects : f.Selects r where
  extreme items h := exists_extreme hf hwant h
  perm items others h := by
    by_cases hitems : items = []
    · subst hitems
      rw [h.nil_eq]
    · obtain ⟨m, hm, hreaches, hcall⟩ := exists_extreme hf hwant hitems
      rw [hcall, eq_comm, call_eq_ok_iff hf hwant]
      exact ⟨h.mem_iff.mp hm, fun i hi => hreaches i (h.mem_iff.mpr hi)⟩
  split front back hfront hback := by
    obtain ⟨a, ha, hareaches, hacall⟩ := exists_extreme hf hwant hfront
    obtain ⟨b, hb, hbreaches, hbcall⟩ := exists_extreme hf hwant hback
    have hall : front ++ back ≠ [] := List.append_ne_nil_of_left_ne_nil hfront back
    obtain ⟨m, hm, hreaches, hcall⟩ := exists_extreme hf hwant hall
    rw [List.forall_mem_append] at hreaches
    refine ⟨a, b, hacall, hbcall, ?_⟩
    have hpair : f.call [.arr ([a, b].map .int)] = .ok (.int m) ↔ m ∈ [a, b] ∧
        ∀ i ∈ [a, b], r m i :=
      call_eq_ok_iff hf hwant
    refine hcall.trans (hpair.mpr ⟨?_, ?_⟩).symm
    · rcases List.mem_append.mp hm with hm | hm
      · rw [antisymm_of r (hreaches.1 a ha) (hareaches m hm)]
        exact List.mem_cons_self
      · rw [antisymm_of r (hreaches.2 b hb) (hbreaches m hm)]
        exact List.mem_cons_of_mem a List.mem_cons_self
    · exact List.forall_mem_cons.mpr ⟨hreaches.1 a ha,
        List.forall_mem_singleton.mpr (hreaches.2 b hb)⟩
  empty := hf _
  notNumber items h := by
    have hsome : (items.find? (!·.isNumber)).isSome = true :=
      List.find?_isSome.mpr (by simpa using h)
    obtain ⟨j, hj⟩ := Option.isSome_iff_exists.mp hsome
    refine ⟨j, hj, ?_⟩
    rw [hf, extreme, numbers_of_find? f hj]
    rfl

end

/-- The one function selects the greatest item of a list of integers, the other the least. -/
theorem selects_extremes : listMax.Selects (· ≥ ·) ∧ listMin.Selects (· ≤ ·) := by
  constructor
  · exact selects (fun _ => rfl) fun a b => by rw [compare_gt_iff_gt, ge_iff_le, not_le]
  · exact selects (fun _ => rfl) fun a b => by rw [compare_lt_iff_lt, not_le]

/-- A negative integer beside one that only fits unsigned, and an item that is no number. -/
theorem selects_extremes_mixed :
    (∃ m ∈ [-1, 2 ^ 64 - 1, 0], (∀ i ∈ [-1, 2 ^ 64 - 1, 0], m ≥ i) ∧
      listMax.call [.arr [.int (-1), .int (2 ^ 64 - 1), .int 0]] = .ok (.int m)) ∧
    listMin.call [.arr [.int (-1), .int (2 ^ 64 - 1)]] =
      listMin.call [.arr [.int (2 ^ 64 - 1), .int (-1)]] ∧
    (∃ a b, listMin.call [.arr [.int (-1)]] = .ok (.int a) ∧
      listMin.call [.arr [.int (2 ^ 64 - 1)]] = .ok (.int b) ∧
      listMin.call [.arr [.int (-1), .int (2 ^ 64 - 1)]] = listMin.call [.arr [.int a, .int b]]) ∧
    ∃ j, [Json.int 1, .null].find? (!·.isNumber) = some j ∧
      listMax.call [.arr [.int 1, .null]] = .error (.argument listMax (.notNumber j)) :=
  ⟨selects_extremes.1.extreme [-1, 2 ^ 64 - 1, 0] (by decide),
    selects_extremes.2.perm [-1, 2 ^ 64 - 1] [2 ^ 64 - 1, -1] (.swap _ _ []),
    selects_extremes.2.split [-1] [2 ^ 64 - 1] (by decide) (by decide),
    selects_extremes.1.notNumber [.int 1, .null] ⟨.null, List.mem_cons_of_mem _ List.mem_cons_self,
    rfl⟩⟩

end Builtin

end SchemaMock
