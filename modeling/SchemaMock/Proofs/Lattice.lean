import SchemaMock.Val

/-! # Kinds along unification

Unification only narrows the kinds that a value may take, and bottom stays bottom.
-/

namespace SchemaMock

namespace Kinds

variable {a b c : Kinds}

theorem contains_eq : a.contains b = true ↔ a.inter b = b := by simp [contains]

theorem contains_refl (a : Kinds) : a.contains a = true := by
  rw [contains_eq, inter_self]

theorem contains_none (a : Kinds) : a.contains none = true := by
  rw [contains_eq]
  simp [inter, none]

theorem contains_trans (h : a.contains b = true) (h' : b.contains c = true) :
    a.contains c = true := by
  rw [contains_eq] at *
  rw [← h', ← inter_assoc, h]

theorem contains_inter (a b : Kinds) : a.contains (a.inter b) = true := by
  rw [contains_eq, ← inter_assoc, inter_self]

theorem contains_inter_right (a b : Kinds) : b.contains (a.inter b) = true := by
  rw [inter_comm]
  exact contains_inter b a

theorem contains_union (h : a.contains b = true) (h' : a.contains c = true) :
    a.contains (b.union c) = true := by
  rw [contains_eq] at *
  rw [← h, ← h']
  simp [inter, union, Bool.and_or_distrib_left]

theorem contains_foldl_union {α : Type} {f : α → Kinds} {xs : List α} (h : a.contains b = true)
    (hf : ∀ x ∈ xs, a.contains (f x) = true) :
    a.contains (xs.foldl (fun k x => k.union (f x)) b) = true := by
  induction xs generalizing b with
  | nil => exact h
  | cons x xs ih =>
    exact ih (contains_union h (hf x (by simp))) fun y hy => hf y (by simp [hy])

end Kinds

/-- A scalar has one kind, so sets that share a kind with it contain it. -/
theorem Scalar.contains_kinds_of_meets {k : Kinds} {s : Scalar} (h : k.meets s.kinds = true) :
    k.contains s.kinds = true := by
  cases s <;>
    simp_all [Scalar.kinds, Kinds.meets, Kinds.contains, Kinds.inter, Kinds.isEmpty, Kinds.none,
      Kinds.ofNull, Kinds.ofBool, Kinds.ofInt, Kinds.ofFloat, Kinds.ofString]

theorem Scalar.kinds_of_same {s t : Scalar} (h : s.same t = true) : s.kinds = t.kinds := by
  cases s <;> cases t <;> first | rfl | cases h

namespace Val

theorem kinds_of_isBottom {v : Val} (h : v.isBottom = true) : v.kinds = .none := by
  cases v <;> first | rfl | cases h

theorem isBottom_meet {v : Val} (h : v.isBottom = true) (w : Val) : (v.meet w).isBottom = true := by
  cases v <;> first | rfl | cases h

theorem isBottom_meet_bottom (v : Val) (f : Fault) : (v.meet (.bottom f)).isBottom = true := by
  cases v <;> rfl

theorem kinds_meetAtom (s : Scalar) (c : Constraint) :
    s.kinds.contains (meetAtom s c).kinds = true ∧
    c.kinds.contains (meetAtom s c).kinds = true := by
  unfold meetAtom
  split
  · exact ⟨Kinds.contains_none _, Kinds.contains_none _⟩
  case isFalse h =>
    split
    · exact ⟨Kinds.contains_none _, Kinds.contains_none _⟩
    · exact ⟨Kinds.contains_refl _, Scalar.contains_kinds_of_meets (by simpa using h)⟩

/-- The kinds of a meet are kinds of both sides. -/
theorem contains_kinds_meet (v w : Val) :
    v.kinds.contains (v.meet w).kinds = true ∧ w.kinds.contains (v.meet w).kinds = true := by
  cases v with
  | bottom f => exact ⟨Kinds.contains_none _, Kinds.contains_none _⟩
  | atom s =>
    cases w with
    | bottom f => exact ⟨Kinds.contains_none _, Kinds.contains_none _⟩
    | constraint c => exact kinds_meetAtom s c
    | atom t =>
      simp only [meet]
      split
      case isTrue h =>
        refine ⟨Kinds.contains_refl _, ?_⟩
        show t.kinds.contains s.kinds = true
        rw [Scalar.kinds_of_same h]
        exact Kinds.contains_refl _
      case isFalse => exact ⟨Kinds.contains_none _, Kinds.contains_none _⟩
  | constraint c =>
    cases w with
    | bottom f => exact ⟨Kinds.contains_none _, Kinds.contains_none _⟩
    | atom s => exact (kinds_meetAtom s c).symm
    | constraint d =>
      simp only [meet]
      split
      · exact ⟨Kinds.contains_none _, Kinds.contains_none _⟩
      · exact ⟨Kinds.contains_inter _ _, Kinds.contains_inter_right _ _⟩

end Val

end SchemaMock
