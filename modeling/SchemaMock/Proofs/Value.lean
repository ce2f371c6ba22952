import SchemaMock.Proofs.Eval.Export
import SchemaMock.Proofs.Outcome
import SchemaMock.Value

/-! # Queries of values

A query of a value runs on the vertex that its path leads to, and what it exports can be written as
a value again.
-/

namespace SchemaMock

namespace Value

def fillItems (v : Value) (p : Path) (index : Nat) : List Value → Value
  | [] => v
  | w :: ws => (v.fill (p.child (.index index)) w).fillItems p (index + 1) ws

/-- A query runs on the vertex that the path of the value leads to. -/
theorem query_eq {α : Type} (v : Value) (onFault : Fault → α) (onVertex : Nat → Eval α) :
    v.query onFault onVertex =
      match (Eval.lookup v.path).run (.ofInputs v.sources v.fills) with
      | (.ok w, a) => (onVertex w a).1
      | (.error f, _) => onFault f := by
  rcases h : (Eval.lookup v.path).run (.ofInputs v.sources v.fills) with ⟨f | w, a⟩
  · simp only [query, bind, StateT.bind, h]
    rfl
  · simp only [query, bind, StateT.bind, h]

/-- A value exports what the export of a vertex gives. -/
theorem of_toJson {P : Json → Prop} (hP : ∀ w, (Eval.exportVertex Eval.evaluate w).Gives P)
    {v : Value} {j : Json} (h : v.toJson = .ok j) : P j := by
  have h := Except.eq_ok_of_mapError h
  unfold attempt at h
  rw [query_eq] at h
  split at h
  case h_1 w a _ => exact hP w a j (Eval.exportVertex Eval.evaluate w a).2 (Prod.ext h rfl)
  case h_2 => cases h

/-- A value that exports is nested no deeper than an expression may be. -/
theorem depth_le_of_toJson {v : Value} {j : Json} (h : v.toJson = .ok j) : j.depth ≤ maxDepth + 1 :=
  of_toJson (Eval.depth_le_of_exportVertex _) h

theorem canonical_of_toJson {v : Value} {j : Json} (h : v.toJson = .ok j) : j.canonical = true :=
  of_toJson (Eval.canonical_of_exportVertex _) h

theorem exists_ofJson {j : Json} (h : j.depth ≤ maxDepth + 1) : ∃ v, ofJson j = .ok v := by
  obtain ⟨x, hx⟩ := Expr.exists_encode _ j h
  exact ⟨ofExpr x, by rw [ofJson, Expr.ofJson, hx]; rfl⟩

/-- A value of host data is that of its expression. -/
theorem exists_expr_of_ofJson {j : Json} {v : Value} (h : ofJson j = .ok v) :
    ∃ x, Expr.ofJson j = .ok x ∧ ofExpr x = v := by
  rw [ofJson] at h
  cases hx : Expr.ofJson j with
  | error c => rw [hx] at h; cases h
  | ok x => rw [hx] at h; cases h; exact ⟨x, rfl, rfl⟩

/-- The items of an exported list can be read back as values. -/
theorem exists_mapM_ofJson {v : Value} {items : List Json} (h : v.toJson = .ok (.arr items)) :
    ∃ ws, items.mapM ofJson = .ok ws := by
  refine Except.exists_mapM_eq_ok fun j hj => exists_ofJson ?_
  have hdepth := depth_le_of_toJson h
  rw [Json.depth] at hdepth
  have := Json.depth_le_of_mem hj
  omega

end Value

end SchemaMock
