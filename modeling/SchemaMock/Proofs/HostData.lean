import SchemaMock.Proofs.Eval.Walk
import SchemaMock.Proofs.Value

/-! # Values of host data

Host data that is not nested too deeply has a value, and the value gives it back.
-/

namespace SchemaMock

open Arena Eval

namespace Value

variable {j : Json} {v : Value}

/-- The evaluation of host data begins at a vertex that it is written for. -/
theorem denotes_ofInputs {left : Nat} {x : Expr} (hx : Expr.encode left j = .ok x)
    (hc : j.canonical = true) : (ofInputs [.expr x] []).Denotes root j where
  lt := Nat.zero_lt_one
  fresh := ⟨none, [.root], .of x plainScope false, rfl, ⟨⟨x, Expr.spells_of_encode hx, rfl⟩, hc⟩,
  rfl⟩

/-- The lookup of the root processes it. -/
theorem lookup_root (a : Arena) : (Eval.lookup .root).run a =
    (.ok (arrive evaluate root a).1, (arrive evaluate root a).2) := by
  rw [lookup_eq]
  generalize evaluate = process
  rfl

theorem evaluate_eq : evaluate = processAt (255 + 1) := by
  rw [evaluate, maxDepth]

/-- A query of a whole value runs on the vertex that the root has settled to. -/
theorem query_of_settle {α : Type} {b : Arena} {w : Nat} (hpath : v.path = .root)
    (hsettle : settle evaluate root (ofInputs v.sources v.fills) = (w, b))
    (hstage : (b.vertex w).stage = .done) (onFault : Fault → α) (onVertex : Nat → Eval α) :
    v.query onFault onVertex = (onVertex w b).1 := by
  have hagain : evaluate w b = ((), b) := evaluate_of_stage (by rw [hstage]; decide)
  have harrive : arrive evaluate root (ofInputs v.sources v.fills) = (w, b) := by
    rw [arrive, run_bind, hsettle, run_bind, hagain]
    rfl
  rw [query_eq, hpath, lookup_root, harrive]

/-- A query of a whole value runs on the root as it has been processed. -/
theorem query_of_evaluate {α : Type} {b : Arena} (hpath : v.path = .root)
    (hrun : evaluate root (ofInputs v.sources v.fills) = ((), b))
    (hstage : (b.vertex root).stage = .done) (hforward : (b.vertex root).forward = none)
    (onFault : Fault → α) (onVertex : Nat → Eval α) :
    v.query onFault onVertex = (onVertex root b).1 :=
  query_of_settle hpath (settle_of_forward hrun hforward) hstage onFault onVertex

/-- A query of host data finds it at the root. -/
theorem exists_query {α : Type} (hv : ofJson j = .ok v) (hc : j.canonical = true)
    (onFault : Fault → α) (onVertex : Nat → Eval α) :
    ∃ a n, v.query onFault onVertex = (onVertex root a).1 ∧ a.Shows n root j (j.toVal []) := by
  obtain ⟨x, hx, rfl⟩ := exists_expr_of_ofJson hv
  obtain ⟨b, hrun, -, hs⟩ := exists_shows_of_denotes 255 (denotes_ofInputs hx hc)
  rw [← evaluate_eq] at hrun
  have hquery := query_of_evaluate (v := ofExpr x) rfl hrun hs.stage hs.forward onFault onVertex
  exact ⟨b, _, hquery, hs⟩

theorem settle_of_shown {a : Arena} {n w : Nat} {y : Val} (hs : a.Shows n w j y) :
    settle (processAt (255 + 1)) w a = (w, a) :=
  settle_of_shows (processAt_of_stage _ (by rw [hs.stage]; decide)) hs

theorem toJson_of_attempt (h : v.attempt (exportVertex evaluate) = .ok j) : v.toJson = .ok j := by
  rw [toJson, h]
  rfl

theorem toJson_of_ofJson (hv : ofJson j = .ok v) (hc : j.canonical = true) : v.toJson = .ok j := by
  obtain ⟨x, hx, -⟩ := exists_expr_of_ofJson hv
  have hdepth : j.depth ≤ maxDepth + 1 := Expr.depth_le_of_encode _ j hx
  obtain ⟨a, n, hquery, hs⟩ :=
    exists_query hv hc Except.error fun w => (exportVertex evaluate w).run
  have hexport := (exportAt_of_shows 255 (maxDepth + 1) (settle_of_shown hs) hs hc hdepth).1
  rw [← evaluate_eq] at hexport
  exact toJson_of_attempt (hquery.trans hexport)

/-- Host data survives its evaluation. It has no value just if something inside is nested too
deeply; a value is free of faults, and exports the data that it was made from. -/
theorem ofJson_lasts (hc : j.canonical = true) :
    ((∃ c, ofJson j = .error c) ↔ ∃ n k, maxDepth < n ∧ Json.Inside k n j) ∧
    (∀ c, ofJson j = .error c → (Fault.of c).kind = .cycle) ∧
    ∀ v, ofJson j = .ok v → v.faults true = [] ∧ v.toJson = .ok j := by
  have hcause {c : Cause} (h : ofJson j = .error c) : Expr.ofJson j = .error .hostDepth := by
    rw [ofJson] at h
    cases hx : Expr.ofJson j with
    | ok x => rw [hx] at h; cases h
    | error d => rw [Expr.cause_of_encode _ j hx]
  refine ⟨?_, fun c h => ?_, fun v h => ?_⟩
  · rw [← Expr.ofJson_eq_error_iff]
    constructor
    · rintro ⟨c, h⟩
      exact hcause h
    · exact fun h => ⟨.hostDepth, by rw [ofJson, h]; rfl⟩
  · have := hcause h
    rw [ofJson, this] at h
    cases h
    rfl
  · have hdepth : j.depth ≤ maxDepth + 1 := by
      cases hx : Expr.ofJson j with
      | error c => rw [ofJson, hx] at h; cases h
      | ok x => exact Expr.depth_le_of_encode _ j hx
    constructor
    · obtain ⟨a, n, hquery, hs⟩ :=
        exists_query h hc (fun f => [v.locate f]) (Eval.faults evaluate true)
      have hnone := (faultsAt_of_shows 255 (maxDepth + 1) true (settle_of_shown hs) hs hdepth).1
      rw [← evaluate_eq] at hnone
      exact hquery.trans hnone
    · exact toJson_of_ofJson h hc

/-- An object with the greatest integer of 64 bits in a list. -/
def sampleObject : Json := .obj [("a", .arr [.int 18446744073709551615, .null]), ("b", .str "x")]

theorem ofJson_lasts_object : sampleObject.canonical = true ∧
    ∃ v, ofJson sampleObject = .ok v ∧ v.faults true = [] ∧ v.toJson = .ok sampleObject := by
  have hc : sampleObject.canonical = true := by decide +kernel
  obtain ⟨v, hv⟩ := exists_ofJson (j := sampleObject) (by decide)
  exact ⟨hc, v, hv, (ofJson_lasts hc).2.2 v hv⟩

end Value

end SchemaMock
