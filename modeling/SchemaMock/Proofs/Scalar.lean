import SchemaMock.Constraint

/-! # Scalars that are the same

To be the same is an equivalence of scalars. Floats are the same when they compare equal or are both
NaN, and no comparison tells such floats apart, so that a bound admits both or neither.
-/

namespace SchemaMock

open Float.Model

/-! ## Floats -/

/-- A float as comparisons see it: a zero has no sign. -/
def floatKey (x : Float) : UnpackedFloat :=
  match x.toModel.unpack with
  | .zero _ => .zero .positive
  | u => u

theorem compare_zero (u : UnpackedFloat) (s : UnpackedFloat.Sign) :
    u.compare (.zero s) = u.compare (.zero .positive) ∧
      (UnpackedFloat.zero s).compare u = (UnpackedFloat.zero .positive).compare u := by
  cases u with
  | finite t m e h => cases t <;> exact ⟨rfl, rfl⟩
  | infinity t => cases t <;> exact ⟨rfl, rfl⟩
  | _ => exact ⟨rfl, rfl⟩

theorem compare_floatKey (x y : Float) :
    x.toModel.unpack.compare y.toModel.unpack = (floatKey x).compare (floatKey y) := by
  unfold floatKey
  generalize x.toModel.unpack = u
  generalize y.toModel.unpack = w
  cases u <;> cases w <;> first | rfl | exact (compare_zero _ _).1 | exact (compare_zero _ _).2

theorem lt_iff_floatKey (x y : Float) :
    x < y ↔ (floatKey x).compare (floatKey y) = some .lt := by
  rw [← compare_floatKey]
  show Float.lt x y = true ↔ _
  rw [Float.lt, decide_eq_true_iff]
  exact beq_iff_eq (α := Option Ordering)

theorem beq_iff_floatKey (x y : Float) :
    (x == y) = true ↔ (floatKey x).compare (floatKey y) = some .eq := by
  rw [← compare_floatKey]
  exact beq_iff_eq (α := Option Ordering)

theorem then_eq_some_eq_iff {m n : Nat} {e f : Int} :
    some ((compare e f).then (compare m n)) = some .eq ↔ m = n ∧ e = f := by
  simp [Ordering.then_eq_eq, and_comm]

theorem compare_finite (s t : UnpackedFloat.Sign) {m n : Nat} {e f : Int} (h : 0 < m) (h' : 0 < n) :
    (UnpackedFloat.finite s m e h).compare (.finite t n f h') = some .eq ↔
      UnpackedFloat.finite s m e h = .finite t n f h' := by
  rw [UnpackedFloat.finite.injEq]
  cases s <;> cases t
  case negative.negative =>
    change some ((compare e f).then (compare m n)).swap = some .eq ↔ _
    rw [and_iff_right rfl, ← then_eq_some_eq_iff, Option.some_inj, Option.some_inj,
      Ordering.swap_eq_eq]
  case positive.positive => exact then_eq_some_eq_iff.trans (and_iff_right rfl).symm
  all_goals exact iff_of_false nofun nofun

/-- Comparison finds values equal that are equal or zeros. -/
theorem compare_eq_some_eq_iff (u w : UnpackedFloat) :
    u.compare w = some .eq ↔ u.isNaN = false ∧ (u = w ∨ ∃ s t, u = .zero s ∧ w = .zero t) := by
  cases u with
  | finite s m e h =>
    cases w with
    | finite t n f h' =>
      have hnan : (UnpackedFloat.finite s m e h).isNaN = false := rfl
      rw [compare_finite, and_iff_right hnan, or_iff_left nofun]
    | infinity t => cases s <;> cases t <;> exact iff_of_false nofun nofun
    | _ => cases s <;> exact iff_of_false nofun nofun
  | infinity s =>
    cases w with
    | infinity t =>
      cases s <;> cases t <;>
        first | exact iff_of_true rfl ⟨rfl, .inl rfl⟩ | exact iff_of_false (by decide) nofun
    | _ => cases s <;> exact iff_of_false nofun nofun
  | zero s =>
    cases w with
    | finite t n f h => cases t <;> exact iff_of_false nofun nofun
    | infinity t => cases t <;> exact iff_of_false nofun nofun
    | zero t => exact iff_of_true rfl ⟨rfl, .inr ⟨s, t, rfl, rfl⟩⟩
    | notANumber => exact iff_of_false nofun nofun
  | notANumber => cases w <;> exact iff_of_false nofun nofun

theorem floatSame_iff {x y : Float} : floatSame x y = true ↔ floatKey x = floatKey y := by
  rw [floatSame, Bool.or_eq_true, Bool.and_eq_true]
  change (x.toModel.unpack.compare y.toModel.unpack == some .eq) = true ∨
    x.toModel.unpack.isNaN = true ∧ y.toModel.unpack.isNaN = true ↔ _
  rw [beq_iff_eq, compare_eq_some_eq_iff, floatKey, floatKey]
  generalize x.toModel.unpack = u
  generalize y.toModel.unpack = w
  cases u with
  | notANumber =>
    cases w <;> first | exact iff_of_true (.inr ⟨rfl, rfl⟩) rfl | exact iff_of_false nofun nofun
  | zero s =>
    cases w <;>
      first | exact iff_of_true (.inl ⟨rfl, .inr ⟨_, _, rfl, rfl⟩⟩) rfl | exact iff_of_false nofun nofun
  | infinity s =>
    have hnan : (UnpackedFloat.infinity s).isNaN = false := rfl
    rw [or_iff_left nofun, and_iff_right hnan, or_iff_left nofun]
    cases w <;> first | exact Iff.rfl | exact iff_of_false nofun nofun
  | finite s m e h =>
    have hnan : (UnpackedFloat.finite s m e h).isNaN = false := rfl
    rw [or_iff_left nofun, and_iff_right hnan, or_iff_left nofun]
    cases w <;> first | exact Iff.rfl | exact iff_of_false nofun nofun

/-- Finite floats are the same just when they compare equal. -/
theorem floatSame_of_isFinite {x : Float} (h : x.isFinite = true) (y : Float) :
    floatSame x y = (x == y) := by
  have hnan : x.isNaN = false := by
    change x.toModel.unpack.isFinite = true at h
    show x.toModel.unpack.isNaN = false
    cases hu : x.toModel.unpack <;> rw [hu] at h <;> first | rfl | cases h
  rw [floatSame, hnan, Bool.false_and, Bool.or_false]

theorem floatCompare_congr {x y : Float} (h : floatSame x y = true) (z : Float) :
    floatCompare x z = floatCompare y z := by
  simp only [floatCompare, lt_iff_floatKey, beq_iff_floatKey, floatSame_iff.mp h]

/-! ## Scalars -/

namespace Scalar

variable {s t u : Scalar}

theorem same_refl (s : Scalar) : s.same s = true := by
  cases s with
  | float x => exact floatSame_iff.mpr rfl
  | _ => simp [same]

theorem same_symm (h : s.same t = true) : t.same s = true := by
  cases s <;> cases t <;> first | cases h | skip
  case float.float x y => exact floatSame_iff.mpr (floatSame_iff.mp h).symm
  case null.null => rfl
  all_goals
    obtain rfl := beq_iff_eq.mp h
    exact h

theorem same_trans (h : s.same t = true) (h' : t.same u = true) : s.same u = true := by
  cases s <;> cases t <;> first | cases h | skip
  all_goals cases u <;> first | cases h' | skip
  case float.float.float x y z =>
    exact floatSame_iff.mpr ((floatSame_iff.mp h).trans (floatSame_iff.mp h'))
  all_goals simp_all [same]

theorem same_congr (h : s.same t = true) (u : Scalar) : s.same u = t.same u := by
  rw [Bool.eq_iff_iff]
  exact ⟨same_trans (same_symm h), same_trans h⟩

/-- Only floats can be the same without being equal. -/
theorem eq_or_float (h : s.same t = true) :
    s = t ∨ ∃ x y, s = .float x ∧ t = .float y ∧ floatSame x y = true := by
  cases s <;> cases t <;> first | cases h | skip
  case float.float x y => exact .inr ⟨x, y, rfl, rfl, h⟩
  case null.null => exact .inl rfl
  all_goals
    obtain rfl := beq_iff_eq.mp h
    exact .inl rfl

theorem compare_congr (h : s.same t = true) (u : Scalar) : s.compare u = t.compare u := by
  obtain rfl | ⟨x, y, rfl, rfl, hxy⟩ := eq_or_float h
  · rfl
  · cases u <;> simp [compare, toFloat?, floatCompare_congr hxy]

theorem looselyEquals_congr (h : s.same t = true) (u : Scalar) :
    s.looselyEquals u = t.looselyEquals u := by
  obtain rfl | ⟨x, y, rfl, rfl, hxy⟩ := eq_or_float h
  · rfl
  · cases u with
    | int i =>
      rw [looselyEquals, looselyEquals, Bool.eq_iff_iff, beq_iff_floatKey, beq_iff_floatKey,
        floatSame_iff.mp hxy]
    | _ =>
      simp only [looselyEquals]
      exact same_congr h _

end Scalar

/-- A bound does not tell scalars apart that are the same. -/
theorem Bound.admits_congr (b : Bound) {s t : Scalar} (h : s.same t = true) :
    b.admits s = b.admits t := by
  rw [Bound.admits, Bound.admits, Scalar.looselyEquals_congr h, Scalar.compare_congr h]

end SchemaMock
