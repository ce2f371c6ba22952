import SchemaMock.Proofs.Condition
import SchemaMock.Proofs.Eval.Parts
import SchemaMock.Proofs.Json.Encoding

/-! # Spelling host data

An expression spells host data when it is made of literals for it. A number may stand behind a minus
sign, and the fields of an object may come in any order. The expression that host data is encoded as
is one of them.
-/

namespace SchemaMock

open Arena Eval

namespace Json

/-- The scalar that host data is, if it has no parts. -/
def scalar? : Json → Option Scalar
  | .null => some .null
  | .bool b => some (.bool b)
  | .int i => some (.int i)
  | .float x => some (.float x)
  | .str s => some (.str s)
  | .arr _ | .obj _ => none

end Json

namespace Expr

/-- The expression is a literal for host data. -/
inductive Spells : Expr → Json → Prop
  | scalar (k : Constant) {j : Json} : j.scalar? = some k.value → Spells k.toExpr j
  | arr {xs : List Expr} {items : List Json} : List.Forall₂ Spells xs items →
    Spells (.list xs none) (.arr items)
  | obj {es : List (Label × Expr)} {fs fields : List (String × Json)} : fs.Perm fields →
      es.map (·.1) = fs.map (fun f => .regular f.1) →
      List.Forall₂ (fun e f => Spells e.2 f.2) es fs →
      Spells (.struct (es.map Decl.required)) (.obj fields)

/-- The expression of host data spells it. -/
theorem spells_of_encode {left : Nat} {j : Json} {x : Expr} (h : encode left j = .ok x) :
    x.Spells j := by
  induction left generalizing j x with
  | zero => rw [encode] at h; cases h
  | succ left ih =>
    cases j with
    | null => cases h; exact .scalar (.plain .null) rfl
    | bool b => cases h; exact .scalar (.plain (.bool b)) rfl
    | int i => cases h; exact .scalar (.plain (.int i)) rfl
    | float y => cases h; exact .scalar (.plain (.float y)) rfl
    | str t => cases h; exact .scalar (.plain (.str t)) rfl
    | arr items =>
      cases hxs : encodeItems left items with
      | error d => rw [encode, hxs] at h; cases h
      | ok xs =>
        rw [encode, hxs] at h
        cases h
        exact .arr ((forall_of_encodeItems hxs).flip.imp fun _ _ => ih)
    | obj fields =>
      cases hds : encodeFields left fields with
      | error d => rw [encode, hds] at h; cases h
      | ok ds =>
        rw [encode, hds] at h
        cases h
        obtain ⟨es, rfl, hes⟩ := exists_of_encodeFields hds
        refine .obj (.refl fields) ?_ (hes.flip.imp fun _ _ he => ih he.2)
        clear hds
        induction hes with
        | nil => rfl
        | cons he _ ihes => rw [List.map_cons, List.map_cons, he.1, ihes]

end Expr

namespace Eval

variable {process : Nat → Eval Unit} {a : Arena} {v : Nat} {c : Conjunct}

theorem run_evalScalar_constant (process : Nat → Eval Unit) (scope : Nat)
    (k : Constant) (a : Arena) : (evalScalar process scope k.toExpr).run a = (.ok k.value, a) := by
  cases k with
  | plain s => cases s <;> (simp only [Constant.toExpr, Scalar.toExpr]; rw [evalScalar]; rfl)
  | minusInt i fits =>
    have happly : UnaryOp.apply .neg (.int i) = .ok (.int (-i)) := if_pos fits
    simp only [Constant.toExpr]
    rw [evalScalar, if_neg (by decide), evalScalar]
    show (Attempt.ofExcept (UnaryOp.apply .neg (.int i))).run a = _
    rw [happly]
    rfl
  | minusFloat x =>
    simp only [Constant.toExpr]
    rw [evalScalar, if_neg (by decide), evalScalar]
    rfl

/-- A scalar literal narrows the vertex to the scalar. -/
theorem addConjunct_constant (process : Nat → Eval Unit) (v : Nat) {k : Constant}
    (hc : c.source = .expr k.toExpr) (a : Arena) :
    addConjunct process v c a = (.keep c, a.modify v (·.meet (.atom k.value))) := by
  rw [addConjunct_of_expr hc]
  have hvalue := run_evalScalar_constant process c.scope k a
  cases k with
  | plain s => cases s <;> rfl
  | minusInt i fits =>
    simp only [Constant.toExpr] at hvalue ⊢
    have hno : BoundOp.ofUnary? .neg = none := rfl
    simp only [addExpr, hno, run_bind, meetScalar, hvalue]
    rfl
  | minusFloat x =>
    simp only [Constant.toExpr] at hvalue ⊢
    have hno : BoundOp.ofUnary? .neg = none := rfl
    simp only [addExpr, hno, run_bind, meetScalar, hvalue]
    rfl

end Eval

end SchemaMock
