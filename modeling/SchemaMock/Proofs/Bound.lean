import SchemaMock.Proofs.Admission

/-! # Bounds as comparisons

A bound narrows a scalar by its kinds and by a comparison, and an operator compares two scalars and
refuses those of unrelated kinds. The two give one verdict. An ordering bound leaves a scalar just
when the operator of the same name is true, and `!=` takes it away just when `==` is true, so what
the operators refuse to compare is outside every ordering bound and differs from every scalar.
-/

namespace SchemaMock

def BoundOp.operator : BoundOp → BinaryOp
  | notEqual => .ne
  | less => .lt
  | lessEqual => .le
  | greater => .gt
  | greaterEqual => .ge

namespace BinaryOp

/-- Scalars compare as true under an ordering just when they are ordered in an allowed way. -/
theorem order_eq_true_iff (op : BinaryOp) (allows : Ordering → Bool) (x y : Scalar) :
    order op allows x y = .ok (.bool true) ↔ ∃ o, x.compare y = some o ∧ allows o = true := by
  unfold order
  cases x.compare y <;> simp

/-- Scalars that `==` refuses to compare are not loosely equal. -/
theorem equate_eq_true_iff (op : BinaryOp) (x y : Scalar) :
    equate op x y = .ok true ↔ x.looselyEquals y = true := by
  have hother (x y : Scalar) (hx : x.kinds ≠ y.kinds)
      (hf : ¬ (x.toFloat?.isSome ∧ y.toFloat?.isSome)) :
      x.looselyEquals y = false := by
    cases x <;> cases y <;> simp_all [Scalar.toFloat?, Scalar.kinds,
      Scalar.looselyEquals, Scalar.same]
  unfold equate
  split
  · cases y <;> simp [Scalar.looselyEquals]
  · cases x <;> simp [Scalar.looselyEquals]
  · split
    case isTrue => simp
    case isFalse h =>
      rw [not_or] at h
      simp [hother _ _ h.1 h.2]

theorem apply_eq_eq_true_iff (x y : Scalar) :
    BinaryOp.eq.apply x y = .ok (.bool true) ↔ x.looselyEquals y = true := by
  rw [← equate_eq_true_iff .eq x y, apply]
  cases equate .eq x y <;> simp [Except.map]

end BinaryOp

namespace Bound

variable {op : BoundOp}

/-- An ordering bound admits a scalar just when its operator is true. -/
theorem admits_iff_apply (h : op ≠ .notEqual) (a v : Scalar) :
    admits ⟨op, v⟩ a = true ↔ op.operator.apply a v = .ok (.bool true) := by
  have hadmits : admits ⟨op, v⟩ a = true ↔ ∃ o, a.compare v = some o ∧ op.allows o = true := by
    cases op with
    | notEqual => exact absurd rfl h
    | _ => unfold admits; cases a.compare v <;> simp
  rw [hadmits]
  cases op with
  | notEqual => exact absurd rfl h
  | _ => exact (BinaryOp.order_eq_true_iff _ _ a v).symm

/-- `!=` excludes a scalar just when `==` is true. -/
theorem not_admits_notEqual_iff (a v : Scalar) :
    admits ⟨.notEqual, v⟩ a = false ↔ BinaryOp.eq.apply a v = .ok (.bool true) := by
  rw [BinaryOp.apply_eq_eq_true_iff, admits, Bool.not_eq_false']

/-- The kinds of a bound add nothing to its comparison. -/
theorem isBottom_meet_ofBound (b : Bound) (a : Scalar) :
    ((Val.atom a).meet (.constraint (.ofBound b))).isBottom = !b.admits a := by
  have htakes : (Constraint.ofBound b).takes a = b.admits a := by
    rw [Constraint.takes, Constraint.ofBound, List.all_cons, List.all_nil, Bool.and_true]
    cases h : b.admits a with
    | true => rw [meets_kinds_of_admits h]; rfl
    | false => rw [Bool.and_false]
  rw [Val.meet, Val.isBottom_meetAtom_eq, htakes]

/-- Unification with a bound and the operators on scalars give one verdict, and the kinds of a bound
exclude no scalar that it admits. -/
theorem meet_agrees_with_operators :
    (∀ (op : BoundOp) (a v : Scalar), op ≠ .notEqual →
      (((Val.atom a).meet (.constraint (.ofBound ⟨op, v⟩))).isBottom = false ↔
        op.operator.apply a v = .ok (.bool true))) ∧
    (∀ a v : Scalar, ((Val.atom a).meet (.constraint (.ofBound ⟨.notEqual, v⟩))).isBottom = true ↔
      BinaryOp.eq.apply a v = .ok (.bool true)) ∧
    ∀ (b : Bound) (s : Scalar), b.admits s = true → b.kinds.contains s.kinds = true := by
  refine ⟨fun op a v h => ?_, fun a v => ?_, fun b s h => ?_⟩
  · rw [isBottom_meet_ofBound, Bool.not_eq_false', admits_iff_apply h]
  · rw [isBottom_meet_ofBound, Bool.not_eq_true', not_admits_notEqual_iff]
  · exact Scalar.contains_kinds_of_meets (meets_kinds_of_admits h)

/-- `3` is within `<5`, while a string is neither within `>=1` nor `==` to it. -/
theorem meet_agrees_with_operators_at_numbers :
    ((Val.atom (.int 3)).meet (.constraint (.ofBound ⟨.less, .int 5⟩))).isBottom = false ∧
      ((Val.atom (.str "a")).meet (.constraint (.ofBound ⟨.greaterEqual, .int 1⟩))).isBottom =
        true ∧
      ((Val.atom (.str "a")).meet (.constraint (.ofBound ⟨.notEqual, .int 1⟩))).isBottom = false ∧
      (Bound.mk .less (.int 5)).kinds.contains (Scalar.int 3).kinds = true := by
  obtain ⟨hordering, hdistinct, hkinds⟩ := meet_agrees_with_operators
  refine ⟨(hordering .less (.int 3) (.int 5) (by decide)).mpr rfl, ?_, ?_,
    hkinds ⟨.less, .int 5⟩ (.int 3) rfl⟩
  · rw [← Bool.not_eq_false, hordering .greaterEqual (.str "a") (.int 1) (by decide)]
    intro h
    cases h
  · rw [← Bool.not_eq_true, hdistinct]
    intro h
    cases h

end Bound

end SchemaMock
