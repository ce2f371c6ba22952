import SchemaMock.Proofs.Eval.Merging
import SchemaMock.Proofs.HostData

/-! # Unifying host data

The unification of two values of host data is the value of their deep merge. Data that does not
merge has a final fault.
-/

namespace SchemaMock

open Arena Eval

namespace Value

variable {i j : Json} {x y : Expr}

/-- The evaluation of two pieces of host data begins at a vertex that both are written for. -/
theorem holds_ofInputs {left : Nat} (hx : Expr.encode left i = .ok x)
    (hy : Expr.encode left j = .ok y) (hi : i.canonical = true) (hj : j.canonical = true) :
    (ofInputs [.expr x, .expr y] []).Holds left root (.two i j) where
  lt := Nat.zero_lt_one
  fresh := ⟨none, [.root], [.of x plainScope false, .of y plainScope false], rfl,
    ⟨_, _, rfl, ⟨⟨left, x, hx, rfl⟩, hi⟩, ⟨⟨left, y, hy, rfl⟩, hj⟩⟩, rfl⟩
  depth := ⟨Expr.depth_le_of_encode left i hx, Expr.depth_le_of_encode left j hy⟩

/-- What a whole value exports, and whether it has faults, is decided by the pieces that are written
for it. -/
theorem merge_of_holds {v : Value} (hpath : v.path = .root)
    (h : (ofInputs v.sources v.fills).Holds (maxDepth + 1) root (.two i j)) :
    v.toJson.toOption = i.merge j ∧ ∀ concrete, Found (i.merge j = none) (v.faults concrete) := by
  obtain ⟨b, hrun, -, hb, -⟩ := exists_merged 255 h
  have hdone : (b.vertex root).stage ≠ .pending := by rw [hb.stage]; decide
  have hevaluate : evaluate root (ofInputs v.sources v.fills) = ((), b) := by
    rw [evaluate_eq]
    exact hrun
  constructor
  · have hroot := (exportAt_of_holds 255 (maxDepth + 1) h).1
    rw [run_exportAt_of_processAt hrun hdone, ← evaluate_eq] at hroot
    rw [toJson, attempt, query_of_evaluate hpath hevaluate hb.stage hb.forward,
      Except.toOption_mapError]
    exact hroot
  · intro concrete
    have hroot := (faultsAt_of_holds 255 (maxDepth + 1) concrete h).1
    rw [faultsAt_of_processAt concrete hrun hdone, ← evaluate_eq] at hroot
    rw [faults, query_of_evaluate hpath hevaluate hb.stage hb.forward]
    exact hroot

/-- Unification of host data is the deep merge. Where the merge is undefined, the value cannot be
exported, and validation finds a final fault even if no value is asked for. -/
theorem unify_ofJson (hi : i.canonical = true) (hj : j.canonical = true)
    (hid : ∀ n k, Json.Inside k n i → n ≤ maxDepth)
    (hjd : ∀ n k, Json.Inside k n j → n ≤ maxDepth) :
    ∃ v w, ofJson i = .ok v ∧ ofJson j = .ok w ∧
      (∀ m, i.merge j = some m → (v.unify w).toJson = .ok m) ∧
      (i.merge j = none → (∃ f, (v.unify w).toJson = .error f) ∧
        ∃ f ∈ (v.unify w).faults false, f.isIncomplete = false) := by
  obtain ⟨x, hx⟩ := Expr.exists_ofJson hid
  obtain ⟨y, hy⟩ := Expr.exists_ofJson hjd
  obtain ⟨hexport, hfaults⟩ := merge_of_holds (v := (ofExpr x).unify (ofExpr y)) rfl
    (holds_ofInputs hx hy hi hj)
  refine ⟨ofExpr x, ofExpr y, by rw [ofJson, hx]; rfl, by rw [ofJson, hy]; rfl, fun m hm => ?_,
    fun hno => ⟨?_, (hfaults false).some hno⟩⟩
  · rw [hm] at hexport
    exact Except.eq_ok_of_toOption hexport
  · rw [hno] at hexport
    cases hu : ((ofExpr x).unify (ofExpr y)).toJson with
    | error f => exact ⟨f, rfl⟩
    | ok m => rw [hu] at hexport; cases hexport

/-- Two objects that share the field `a`. -/
def sampleLeft : Json := .obj [("a", .arr [.int 1, .obj [("x", .null)]]), ("c", .str "s")]

def sampleRight : Json := .obj [("a", .arr [.int 1, .obj [("y", .bool true)]]), ("b", .int 2)]

theorem unify_ofJson_objects :
    sampleLeft.canonical = true ∧ sampleRight.canonical = true ∧
    (∀ n k, Json.Inside k n sampleLeft → n ≤ maxDepth) ∧
    (∀ n k, Json.Inside k n sampleRight → n ≤ maxDepth) ∧
    ∃ v w, ofJson sampleLeft = .ok v ∧ ofJson sampleRight = .ok w ∧
      (v.unify w).toJson = .ok (.obj [("a", .arr [.int 1, .obj [("x", .null), ("y", .bool true)]]),
        ("b", .int 2), ("c", .str "s")]) := by
  have hl : sampleLeft.canonical = true := by decide +kernel
  have hr : sampleRight.canonical = true := by decide +kernel
  have hdepth {j : Json} (h : j.depth ≤ maxDepth) (n : Nat) (k : Json) (hk : Json.Inside k n j) :
      n ≤ maxDepth := Nat.le_trans (Nat.le_of_lt hk.lt_depth) h
  have hld := hdepth (j := sampleLeft) (by decide)
  have hrd := hdepth (j := sampleRight) (by decide)
  obtain ⟨v, w, hv, hw, hmerge, -⟩ := unify_ofJson hl hr hld hrd
  exact ⟨hl, hr, hld, hrd, v, w, hv, hw, hmerge _ rfl⟩

end Value

end SchemaMock
