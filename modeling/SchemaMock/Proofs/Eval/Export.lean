import SchemaMock.Eval.Export
import SchemaMock.Proofs.Eval.Computation
import SchemaMock.Proofs.Json.Encoding

/-! # Exported values

An export opens a level for each level of its result, so the result is not nested more deeply than
the levels that could be opened. It is a value that a host can hold: its integers have 64 bits, its
floats are finite, and the fields of its objects are in order.
-/

namespace SchemaMock.Eval

open Attempt

variable (process : Nat → Eval Unit)

theorem depth_of_toJson {s : Scalar} {j : Json} (h : s.toJson = .ok j) : j.depth = 1 := by
  unfold Scalar.toJson at h
  split at h
  · cases h; rfl
  · cases h; rfl
  · split at h <;> cases h; rfl
  · split at h <;> cases h; rfl
  · cases h; rfl

theorem canonical_of_toJson {s : Scalar} {j : Json} (h : s.toJson = .ok j) :
    j.canonical = true := by
  unfold Scalar.toJson at h
  split at h
  · cases h; rfl
  · cases h; rfl
  case h_3 i =>
    by_cases hi : Json.fits64 i = true
    · rw [if_pos hi] at h
      cases h
      exact hi
    · rw [if_neg hi] at h
      cases h
  case h_4 x =>
    by_cases hx : Json.isFinite x = true
    · rw [if_pos hx] at h
      cases h
      exact hx
    · rw [if_neg hx] at h
      cases h
  · cases h; rfl

/-- What the host values of scalars have, and objects and lists inherit from their parts a level
below, every export has. -/
theorem gives_exportAt {P : Nat → Json → Prop}
    (scalar : ∀ left s j, Scalar.toJson s = .ok j → P (left + 1) j)
    (object : ∀ left fields, (∀ f ∈ fields, P left f.2) → P (left + 1) (Json.ofFields fields))
    (list : ∀ left items, (∀ j ∈ items, P left j) → P (left + 1) (.arr items)) (left v : Nat) :
    Gives (exportAt process left v) (P left) := by
  induction left generalizing v with
  | zero => exact gives_throw _
  | succ left ih =>
    rw [exportAt]
    refine (gives_any _).bind fun v _ => (gives_any _).bind fun f _ => ?_
    cases f with
    | some f => exact gives_throw f
    | none =>
      refine (gives_any _).bind fun x _ => ?_
      split
      case h_1 s _ =>
        split
        case h_1 j hj => exact gives_pure (scalar left s j hj)
        case h_2 => exact (gives_any _).bind fun _ _ => gives_throw _
      case h_2 =>
        split
        · refine (gives_mapM (Q := fun f => P left f.2) fun f _ => ?_).bind fun fields hf =>
            gives_pure (object left fields hf)
          exact (ih f.2).bind fun j hj => gives_pure hj
        · split
          · exact (gives_mapM fun w _ => ih w).bind fun items hi => gives_pure (list left items hi)
          · exact (gives_any _).bind fun _ _ => gives_throw _

theorem depth_le_of_exportAt (left v : Nat) : Gives (exportAt process left v) (·.depth ≤ left) := by
  apply gives_exportAt process (P := fun left j => j.depth ≤ left)
  · intro left s j h
    rw [depth_of_toJson h]
    omega
  · intro left fields h
    exact Json.depth_ofFields_le h
  · intro left items h
    have := Json.depthItems_le h
    rw [Json.depth]
    omega

/-- An export is a value that a host can hold. -/
theorem canonical_of_exportAt (left v : Nat) :
    Gives (exportAt process left v) (·.canonical = true) := by
  apply gives_exportAt process (P := fun _ j => j.canonical = true)
  · intro left s j h
    exact canonical_of_toJson h
  · intro left fields h
    exact Json.canonical_ofFields h
  · intro left items h
    exact Json.canonicalItems_of_forall h

theorem depth_le_of_exportVertex (v : Nat) :
    Gives (exportVertex process v) (·.depth ≤ maxDepth + 1) := depth_le_of_exportAt process _ v

theorem canonical_of_exportVertex (v : Nat) :
    Gives (exportVertex process v) (·.canonical = true) := canonical_of_exportAt process _ v

end SchemaMock.Eval
