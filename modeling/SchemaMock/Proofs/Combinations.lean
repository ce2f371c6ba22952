import Mathlib.Algebra.BigOperators.Group.List.Basic
import Mathlib.Data.List.Forall2
import SchemaMock.Eval.Choice

/-! # Choices of one item of each list

The choices are the items at the positions that can be taken, one in each list, in lexicographic
order of the positions. Their number only grows from list to list, as long as no list is empty, so
that it may be checked after each list.
-/

namespace SchemaMock

variable {α β : Type} {lists choices : List (List α)} {pick : List Nat}

/-- The ways to take a position in each list, in lexicographic order. -/
def picks : List (List α) → List (List Nat)
  | [] => [[]]
  | list :: lists => (List.range list.length).flatMap fun i => (picks lists).map (i :: ·)

def itemsAt (lists : List (List α)) (pick : List Nat) : List α :=
  (lists.zip pick).flatMap fun q => q.1[q.2]?.toList

theorem itemsAt_cons (list : List α) (lists : List (List α)) (i : Nat) (pick : List Nat) :
    itemsAt (list :: lists) (i :: pick) = list[i]?.toList ++ itemsAt lists pick := rfl

theorem mem_picks :
    pick ∈ picks lists ↔ List.Forall₂ (fun i list => i < list.length) pick lists := by
  induction lists generalizing pick with
  | nil => simp [picks]
  | cons list lists ih =>
    simp only [picks, List.mem_flatMap, List.mem_range, List.mem_map, ih,
      List.forall₂_cons_right_iff]
    constructor
    · rintro ⟨i, hi, rest, hrest, rfl⟩
      exact ⟨i, rest, hi, hrest, rfl⟩
    · rintro ⟨i, rest, hi, hrest, rfl⟩
      exact ⟨i, hi, rest, hrest, rfl⟩

theorem pairwise_picks (lists : List (List α)) : (picks lists).Pairwise (· < ·) := by
  induction lists with
  | nil => exact List.pairwise_singleton _ _
  | cons list lists ih =>
    refine List.pairwise_flatMap.mpr ⟨fun i _ => ?_, List.pairwise_lt_range.imp fun {i j} hij => ?_⟩
    · exact List.pairwise_map.mpr (ih.imp fun h => List.cons_lt_cons_self.mpr h)
    · intro p hp q hq
      obtain ⟨p, -, rfl⟩ := List.mem_map.mp hp
      obtain ⟨q, -, rfl⟩ := List.mem_map.mp hq
      exact .rel hij

theorem length_picks (lists : List (List α)) :
    (picks lists).length = (lists.map List.length).prod := by
  induction lists with
  | nil => rfl
  | cons list lists ih => simp [picks, List.length_flatMap, ih]

theorem exists_mem_itemsAt (h : pick ∈ picks lists) :
    ∀ list ∈ lists, ∃ x ∈ list, x ∈ itemsAt lists pick := by
  rw [mem_picks] at h
  induction h with
  | nil => exact List.forall_mem_nil _
  | @cons i list pick lists hi h ih =>
    rw [itemsAt_cons, List.getElem?_eq_getElem hi]
    refine List.forall_mem_cons.mpr ⟨⟨list[i], List.getElem_mem hi, List.mem_append_left _ ?_⟩,
      fun l hl => ?_⟩
    · exact List.mem_singleton_self _
    · obtain ⟨x, hx, hmem⟩ := ih l hl
      exact ⟨x, hx, List.mem_append_right _ hmem⟩

theorem exists_of_mem_itemsAt {x : α} (h : x ∈ itemsAt lists pick) : ∃ list ∈ lists, x ∈ list := by
  obtain ⟨⟨list, i⟩, hmem, hx⟩ := List.mem_flatMap.mp h
  exact ⟨list, (List.of_mem_zip hmem).1, List.mem_of_getElem? (Option.mem_toList.mp hx)⟩

/-- Going through the items of a list is going through its positions. -/
theorem flatMap_range (list : List α) (g : Option α → List β) :
    (List.range list.length).flatMap (fun i => g list[i]?) = list.flatMap fun x => g (some x) := by
  induction list with
  | nil => rfl
  | cons x list ih =>
    rw [List.length_cons, List.range_succ_eq_map, List.flatMap_cons, List.flatMap_cons,
      List.flatMap_map, ← ih]
    rfl

/-- What has been chosen is extended by an item of the next list, then by choices of the lists after
it. -/
theorem extend_picks (chosen : List (List α)) (list : List α) (lists : List (List α)) :
    ((chosen.flatMap fun c => list.map fun x => c ++ [x]).flatMap fun c =>
        (picks lists).map fun p => c ++ itemsAt lists p) =
      chosen.flatMap fun c => (picks (list :: lists)).map fun p =>
        c ++ itemsAt (list :: lists) p := by
  rw [List.flatMap_assoc]
  refine List.flatMap_congr fun c _ => ?_
  rw [List.flatMap_map, picks, List.map_flatMap]
  simp only [List.map_map]
  refine Eq.trans ?_ (flatMap_range list fun x =>
    (picks lists).map fun p => c ++ (x.toList ++ itemsAt lists p)).symm
  simp

theorem eq_of_combinations (h : combinations lists = some choices) :
    choices = (picks lists).map (itemsAt lists) := by
  suffices hgo : ∀ chosen : List (List α), lists.foldlM (fun chosen list =>
      let more := chosen.flatMap fun c => list.map fun x => c ++ [x]
      if maxCombinations < more.length then none else some more) chosen = some choices →
      choices = chosen.flatMap fun c => (picks lists).map fun p => c ++ itemsAt lists p by
    simpa using hgo [[]] h
  clear h
  induction lists with
  | nil =>
    intro chosen h
    cases h
    simp [picks, itemsAt]
  | cons list lists ih =>
    intro chosen h
    rw [List.foldlM_cons] at h
    dsimp only at h
    split at h
    · cases h
    · exact (ih _ h).trans (extend_picks chosen list lists)

/-- A choice takes one item of each list. -/
theorem mem_of_combinations {choice : List α} (h : combinations lists = some choices)
    (hc : choice ∈ choices) : ∀ list ∈ lists, ∃ x ∈ list, x ∈ choice := by
  rw [eq_of_combinations h] at hc
  obtain ⟨pick, hpick, rfl⟩ := List.mem_map.mp hc
  exact exists_mem_itemsAt hpick

/-- What holds of all items holds of those that a choice takes. -/
theorem forall_of_combinations {P : α → Prop} (h : combinations lists = some choices)
    (hP : ∀ list ∈ lists, ∀ x ∈ list, P x) : ∀ choice ∈ choices, ∀ x ∈ choice, P x := by
  intro choice hc x hx
  rw [eq_of_combinations h] at hc
  obtain ⟨pick, -, rfl⟩ := List.mem_map.mp hc
  obtain ⟨list, hlist, hmem⟩ := exists_of_mem_itemsAt hx
  exact hP list hlist x hmem

theorem prod_length_pos (h : ∀ list ∈ lists, list ≠ []) : 0 < (lists.map List.length).prod := by
  induction lists with
  | nil => exact Nat.one_pos
  | cons list lists ih =>
    rw [List.forall_mem_cons] at h
    rw [List.map_cons, List.prod_cons]
    exact Nat.mul_pos (List.length_pos_of_ne_nil h.1) (ih h.2)

/-- A list that is not empty never lowers the number of choices, so that no check comes too
early. -/
theorem combinations_eq_none_iff (h : ∀ list ∈ lists, list ≠ []) :
    combinations lists = none ↔ maxCombinations < (lists.map List.length).prod := by
  suffices hgo : ∀ chosen : List (List α), chosen.length ≤ maxCombinations →
      (lists.foldlM (fun chosen list =>
        let more := chosen.flatMap fun c => list.map fun x => c ++ [x]
        if maxCombinations < more.length then none else some more) chosen = none ↔
        maxCombinations < chosen.length * (lists.map List.length).prod) by
    have hstart : ([[]] : List (List α)).length ≤ maxCombinations := show 1 ≤ 256 by decide
    have hall := hgo [[]] hstart
    rw [List.length_singleton, Nat.one_mul] at hall
    exact hall
  induction lists with
  | nil =>
    intro chosen hchosen
    rw [List.map_nil, List.prod_nil, Nat.mul_one]
    exact iff_of_false nofun (Nat.not_lt.mpr hchosen)
  | cons list lists ih =>
    intro chosen hchosen
    rw [List.forall_mem_cons] at h
    have hlength :
        (chosen.flatMap fun c => list.map fun x => c ++ [x]).length =
        chosen.length * list.length := by
      simp [List.length_flatMap]
    rw [List.foldlM_cons, List.map_cons, List.prod_cons, ← Nat.mul_assoc]
    dsimp only
    rw [hlength]
    by_cases hmore : maxCombinations < chosen.length * list.length
    · rw [if_pos hmore]
      exact iff_of_true rfl (Nat.lt_of_lt_of_le hmore (Nat.le_mul_of_pos_right _ (prod_length_pos h.2)))
    · rw [if_neg hmore, ← hlength]
      exact ih h.2 _ (hlength.trans_le (Nat.not_lt.mp hmore))

theorem combinations_eq (h : ∀ list ∈ lists, list ≠ []) :
    combinations lists = if maxCombinations < (picks lists).length then none
      else some ((picks lists).map (itemsAt lists)) := by
  rw [length_picks]
  cases hcomb : combinations lists with
  | none => rw [if_pos ((combinations_eq_none_iff h).mp hcomb)]
  | some choices =>
    have hfew : ¬ maxCombinations < (lists.map List.length).prod := fun hmany => by
      rw [(combinations_eq_none_iff h).mpr hmany] at hcomb
      cases hcomb
    rw [if_neg hfew, eq_of_combinations hcomb]

/-- A choice of one list is one of its items, also if there are none. -/
theorem combinations_single {xs : List α} (h : xs.length ≤ maxCombinations) :
    combinations [xs] = some (xs.map ([·])) := by
  have hmore : ([[]] : List (List α)).flatMap (fun c => xs.map fun x => c ++ [x]) =
      xs.map ([·]) := by
    simp
  rw [combinations, List.foldlM_cons, hmore]
  dsimp only
  rw [List.length_map, if_neg (Nat.not_lt.mpr h)]
  rfl

end SchemaMock
