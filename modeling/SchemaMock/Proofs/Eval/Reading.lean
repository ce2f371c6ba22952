import SchemaMock.Eval.Choice
import SchemaMock.Eval.Reference
import SchemaMock.Eval.Structure
import SchemaMock.Proofs.Eval.Computation

/-! # Computations that read

Exports, references, scalars and labels are evaluated by processing vertices and by adding vertices
that stand alone. So they keep every relation that these two keep.
-/

namespace SchemaMock.Eval

open Attempt

variable {R : Arena → Arena → Prop} [Lasting R] {process : Nat → Eval Unit}

theorem keeps_failAt {α : Type} (v : Nat) (c : Cause) : Keeps R (failAt v c : Attempt α).run :=
  keeps_bind (keeps_perform (keeps_view _)) fun _ => keeps_throw _

variable (hp : ∀ v, Keeps R (process v))
include hp

theorem keeps_settle (v : Nat) : Keeps R (settle process v) := (hp v).bind fun _ => keeps_view _

/-! ## Exports -/

theorem keeps_exportAt (left v : Nat) : Keeps R (exportAt process left v).run := by
  induction left generalizing v with
  | zero => exact keeps_refuse _
  | succ left ih =>
    rw [exportAt]
    refine keeps_bind (keeps_perform (keeps_settle hp v)) fun v => ?_
    refine keeps_bind (keeps_perform (keeps_view _)) fun f => ?_
    cases f with
    | some f => exact keeps_throw f
    | none =>
      refine keeps_bind (keeps_perform (keeps_vertex v)) fun x => ?_
      split
      · split
        · exact keeps_pure _
        · exact keeps_failAt v _
      · split
        · refine keeps_bind (Attempt.keeps_mapM (fun f => ?_) _) fun _ => keeps_pure _
          exact keeps_bind (ih f.2) fun _ => keeps_pure _
        · split
          · exact keeps_bind (Attempt.keeps_mapM ih _) fun _ => keeps_pure _
          · exact keeps_failAt v _

theorem keeps_exportVertex (v : Nat) : Keeps R (exportVertex process v).run := keeps_exportAt hp _ v

omit hp in
/-- The faults below a vertex are looked for when it has settled. -/
theorem exists_faultsAt (left : Nat) (h : ∀ concrete v, Keeps R (faultsAt process left concrete v))
    (concrete : Bool) (v : Nat) : ∃ rest : Nat → Eval (List Fault),
      faultsAt process (left + 1) concrete v = settle process v >>= rest ∧
      ∀ w, Keeps R (rest w) := by
  rw [faultsAt]
  refine ⟨_, rfl, fun w => ?_⟩
  refine (keeps_vertex w).bind fun x => (keeps_view _).bind fun path => ?_
  split
  · exact keeps_pure _
  · split
    · exact keeps_pure _
    · split
      · exact (keeps_mapM (fun (_, w) => h _ w) _).bind fun _ => keeps_pure _
      · split
        · exact (keeps_mapM (h concrete) _).bind fun _ => keeps_pure _
        · split <;> exact keeps_pure _

theorem keeps_faultsAt (left : Nat) (concrete : Bool) (v : Nat) :
    Keeps R (faultsAt process left concrete v) := by
  induction left generalizing concrete v with
  | zero => exact keeps_pure _
  | succ left ih =>
    obtain ⟨rest, hrun, hrest⟩ := exists_faultsAt left ih concrete v
    rw [hrun]
    exact (keeps_settle hp v).bind hrest

theorem keeps_faults (concrete : Bool) (v : Nat) : Keeps R (faults process concrete v) :=
  keeps_faultsAt hp _ concrete v

theorem keeps_exportAlike (vs : List Nat) (first : Option Json) :
    Keeps R (exportAlike process first vs) := by
  induction vs generalizing first with
  | nil => exact keeps_pure _
  | cons v vs ih =>
    rw [exportAlike]
    refine (keeps_exportVertex hp v).bind fun r => ?_
    cases r with
    | error f => exact keeps_pure _
    | ok j =>
      cases first with
      | none => exact ih _
      | some k =>
        dsimp only
        split
        · exact ih _
        · exact keeps_pure _

theorem keeps_narrow (survivors : List Survivor) : Keeps R (narrow process survivors) := by
  have hfirst (preferred : List Survivor) : Keeps R (do
      if 1 < preferred.length then
        if ← exportAlike process none (preferred.map (·.vertex)) then return preferred.take 1
      return preferred) := by
    split
    · refine (keeps_exportAlike hp _ _).bind fun b => ?_
      cases b <;> exact keeps_pure _
    · exact keeps_pure _
  exact hfirst _

/-! ## References and scalars -/

theorem keeps_select (v : Nat) (s : Selector) : Keeps R (select process v s).run := by
  unfold select
  refine keeps_bind (keeps_perform (keeps_settle hp v)) fun v => ?_
  refine keeps_bind (keeps_perform (hp v)) fun _ => ?_
  refine keeps_bind (keeps_perform (keeps_vertex v)) fun x => ?_
  split
  · exact keeps_refuse _
  · split
    · exact keeps_pure _
    · exact keeps_bind (keeps_perform (keeps_view _)) fun f => keeps_throw f

theorem keeps_selectLabel (r : Resolved) (label : Label) :
    Keeps R (selectLabel process r label).run := by
  unfold selectLabel
  split
  · exact keeps_bind (keeps_select hp _ _) fun _ => keeps_pure _
  · split
    · exact keeps_pure _
    · exact keeps_refuse _
  · exact keeps_refuse _

theorem keeps_scalarOf (v : Nat) : Keeps R (scalarOf process v).run := by
  unfold scalarOf
  refine keeps_bind (keeps_perform (keeps_settle hp v)) fun v => ?_
  refine keeps_bind (keeps_perform (keeps_view _)) fun f => ?_
  cases f with
  | some f => exact keeps_throw f
  | none =>
    refine keeps_bind (keeps_perform (keeps_vertex v)) fun x => ?_
    split
    · exact keeps_pure _
    · split <;> exact keeps_failAt v _

theorem keeps_scalarOfResolved (r : Resolved) : Keeps R (scalarOfResolved process r).run := by
  unfold scalarOfResolved
  split
  · exact keeps_scalarOf hp _
  all_goals exact keeps_refuse _

omit hp in
theorem keeps_resolveName (name : String) (scope : Nat) : Keeps R (resolveName name scope).run :=
  keeps_bind (keeps_perform (keeps_view _)) fun _ => keeps_ofExcept _

variable (ha : ∀ x scope, Keeps R (alone x scope))
include ha

theorem keeps_scalarAlone (x : Expr) (scope : Nat) : Keeps R (scalarAlone process x scope).run :=
  keeps_bind (keeps_perform (ha x scope)) fun v => keeps_scalarOf hp v

set_option linter.unusedSectionVars false in
mutual

theorem keeps_resolve (scope : Nat) (x : Expr) : Keeps R (resolve process scope x).run := by
  match x with
  | .ident name => exact keeps_resolveName name scope
  | .select base label =>
    exact keeps_bind (keeps_resolve scope base) fun r => keeps_selectLabel hp r label
  | .index base position =>
    rw [resolve]
    refine keeps_bind (keeps_resolve scope base) fun r => ?_
    split
    · refine keeps_bind (keeps_evalScalar scope position) fun s => ?_
      refine keeps_bind (keeps_ofExcept _) fun s => ?_
      exact keeps_bind (keeps_select hp _ s) fun _ => keeps_pure _
    · exact keeps_refuse _
  | .top | .bottom | .null | .bool _ | .int _ | .float _ | .str _ | .struct _ | .list .. | .call ..
  | .unary .. | .binary .. | .marked _ => exact keeps_refuse _

theorem keeps_evalScalar (scope : Nat) (x : Expr) : Keeps R (evalScalar process scope x).run := by
  match x with
  | .null | .bool _ | .int _ | .float _ | .str _ => exact keeps_pure _
  | .unary op operand =>
    rw [evalScalar]
    split
    · exact keeps_scalarAlone hp ha _ scope
    · exact keeps_bind (keeps_evalScalar scope operand) fun _ => keeps_ofExcept _
  | .binary op lhs rhs =>
    rw [evalScalar]
    split
    · exact keeps_scalarAlone hp ha _ scope
    · refine keeps_bind (keeps_perform (keeps_evalScalar scope lhs)) fun _ => ?_
      exact keeps_bind (keeps_perform (keeps_evalScalar scope rhs)) fun _ => keeps_ofResult _
  | .ident name =>
    exact keeps_bind (keeps_resolveName name scope) fun r => keeps_scalarOfResolved hp r
  | .select base label =>
    refine keeps_bind (keeps_resolve scope base) fun r => ?_
    exact keeps_bind (keeps_selectLabel hp r label) fun r => keeps_scalarOfResolved hp r
  | .index base position =>
    rw [evalScalar]
    refine keeps_bind (keeps_resolve scope base) fun r => ?_
    split
    · refine keeps_bind (keeps_evalScalar scope position) fun s => ?_
      refine keeps_bind (keeps_ofExcept _) fun s => ?_
      exact keeps_bind (keeps_select hp _ s) fun v => keeps_scalarOf hp v
    · exact keeps_refuse _
  | .call func args =>
    rw [evalScalar]
    refine keeps_bind (keeps_resolve scope func) fun r => ?_
    split
    · exact keeps_bind (keeps_arguments scope args) fun _ => keeps_ofExcept _
    · exact keeps_refuse _
  | .top | .bottom | .struct _ | .list .. | .marked _ => exact keeps_scalarAlone hp ha _ scope

theorem keeps_arguments (scope : Nat) (xs : List Expr) :
    Keeps R (arguments process scope xs).run := by
  match xs with
  | [] => exact keeps_pure _
  | x :: rest =>
    have hrest (v : Nat) : Keeps R (do
        let j ← exportVertex process v
        return j :: (← arguments process scope rest) : Attempt (List Json)).run :=
      keeps_bind (keeps_exportVertex hp v) fun j =>
        keeps_bind (keeps_arguments scope rest) fun _ => keeps_pure _
    rw [arguments]
    split
    · refine keeps_bind (keeps_resolve scope x) fun r => ?_
      split
      · exact keeps_bind (keeps_pure _) hrest
      · exact keeps_bind (keeps_refuse _) hrest
      · exact keeps_bind (keeps_refuse _) hrest
    · exact keeps_bind (keeps_perform (ha x scope)) hrest

end

/-! ## Labels -/

omit ha in
theorem keeps_admits (s : Scalar) (left v : Nat) : Keeps R (admits process s left v) := by
  induction left generalizing v with
  | zero => exact keeps_pure _
  | succ left ih =>
    rw [admits]
    refine (keeps_settle hp v).bind fun v => (keeps_vertex v).bind fun x => ?_
    split
    · exact keeps_pure _
    · exact keeps_anyM ih _

theorem keeps_labelMatches (label : Expr) (scope : Nat) (name : String) :
    Keeps R (labelMatches process label scope name) :=
  (ha label scope).bind fun v => keeps_admits hp _ _ v

theorem keeps_groupAdmits (name : String) (g : Group) : Keeps R (groupAdmits process name g) := by
  unfold groupAdmits
  split
  · exact keeps_pure _
  · exact keeps_anyM (fun (label, scope) => keeps_labelMatches hp ha label scope name) _

end SchemaMock.Eval
