import SchemaMock.Proofs.Eval.Shape
import SchemaMock.Proofs.HostData

/-! # Shapes of host data

The shape of host data accepts the data that it was derived from, as long as no field is called like
a type that shapes are written with.
-/

namespace SchemaMock

open Arena Eval

namespace Value

variable {j : Json} {x y : Expr}

/-- The evaluation of data with its shape begins at a vertex that both are written for. -/
theorem shaped_ofInputs {left : Nat} (hx : Expr.shape left j = .ok x)
    (hy : Expr.encode left j = .ok y) (hc : j.canonical = true) (hj : j.Unambiguous) :
    (ofInputs [.expr x, .expr y] []).Shaped left plainScope root j where
  lt := Nat.zero_lt_one
  fresh := ⟨none, [.root], x, .of y plainScope false, rfl, Expr.suits_of_shape hx,
    ⟨⟨left, y, hy, rfl⟩, hc⟩, rfl⟩
  depth := Expr.depth_le_of_encode left j hy
  unambiguous := hj

/-- Unification with the shape of host data leaves the data as it is: validation finds nothing
wrong, even where a value is asked for, and the data is exported. -/
theorem unify_shapeOf (hc : j.canonical = true) (hd : ∀ n k, Json.Inside k n j → n ≤ maxDepth)
    (hj : j.Unambiguous) : ∃ x v, Expr.shapeOf j = .ok x ∧ ofJson j = .ok v ∧
      ((ofExpr x).unify v).faults true = [] ∧ ((ofExpr x).unify v).toJson = .ok j := by
  obtain ⟨y, hy⟩ := Expr.exists_ofJson hd
  obtain ⟨x, hx⟩ := Expr.exists_shape (Expr.depth_le_of_encode (maxDepth + 1) j hy)
  have hshaped := shaped_ofInputs hx hy hc hj
  have hreads : (ofInputs [.expr x, .expr y] []).Reads root plainScope :=
    fun name _ => ⟨.root Nat.zero_lt_one rfl, .inl rfl⟩
  have hprocess : evaluate = processAt (254 + 2) := evaluate_eq
  obtain ⟨b, w, hsettle, -, hb⟩ := exists_fitted 254 hshaped hreads
  have hagain := settle_of_fitted (254 + 2) hb
  have hexport := (exportAt_of_shaped 254 (maxDepth + 1) hshaped hreads).1
  have hfaults := (faultsAt_of_shaped 254 (maxDepth + 1) true hshaped hreads).1
  rw [← hprocess] at hsettle hagain hexport hfaults
  -- Export and validation only see the vertex that the root has settled to.
  have hsame : settle evaluate root _ = settle evaluate w b := hsettle.trans hagain.symm
  rw [run_exportAt_of_settle hsame] at hexport
  rw [faultsAt_of_settle true hsame] at hfaults
  have hquery {α : Type} :=
    query_of_settle (α := α) (v := (ofExpr x).unify (ofExpr y)) rfl hsettle hb.stage
  refine ⟨x, ofExpr y, hx, by rw [ofJson, hy]; rfl, ?_, ?_⟩
  · rw [faults, hquery]
    exact hfaults
  · rw [toJson, attempt, hquery]
    exact congrArg (Except.mapError _) hexport

/-- An object with null, an empty object and a list inside. -/
def sampleDocument : Json :=
  .obj [("id", .int 7), ("note", .null), ("owner", .obj [("name", .str "x"), ("rest", .obj [])]),
    ("tags", .arr [.float 0.5, .bool true])]

theorem unify_shapeOf_document : sampleDocument.canonical = true ∧ sampleDocument.Unambiguous ∧
    (∀ n k, Json.Inside k n sampleDocument → n ≤ maxDepth) ∧
    ∃ x v, Expr.shapeOf sampleDocument = .ok x ∧ ofJson sampleDocument = .ok v ∧
      ((ofExpr x).unify v).faults true = [] ∧ ((ofExpr x).unify v).toJson = .ok sampleDocument := by
  have hc : sampleDocument.canonical = true := by decide +kernel
  have hd (n : Nat) (k : Json) (h : Json.Inside k n sampleDocument) : n ≤ maxDepth :=
    Nat.le_trans (Nat.le_of_lt h.lt_depth) (by decide)
  have hj : sampleDocument.Unambiguous := by
    simp (disch := decide) [sampleDocument, Json.unambiguous_obj, Json.unambiguous_arr,
      Json.unambiguous_of_depth, Expr.shapeTypes]
  exact ⟨hc, hj, hd, unify_shapeOf hc hd hj⟩

end Value

end SchemaMock
