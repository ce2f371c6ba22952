import SchemaMock.Eval.Query
import SchemaMock.Proofs.Eval.Runs

/-! # Runs that read

Exports, references, scalars and labels are evaluated by processing vertices and by adding vertices
that stand alone. What they find in an ordered arena is there.
-/

namespace SchemaMock.Eval

variable {d : Nat} {e : Extent} {v scope : Nat} {process process' : Nat → Eval Unit}

variable (hp : ∀ u e, Runs d e (process u) (process' u) Anyhow)
include hp

theorem runs_settle (v : Nat) :
    Runs d e (settle process v) (settle process' v) fun w e' => v < e'.vertices → w < e'.vertices :=
  (hp v e).bind fun _ _ _ _ => runs_view fun _ ha _ => ha.follow_lt

/-! ## Exports -/

theorem tries_exportAt (left v : Nat) :
    Tries d e (exportAt process left v) (exportAt process' left v) Anyhow := by
  induction left generalizing e v with
  | zero => exact tries_refuse _
  | succ left ih =>
    rw [exportAt, exportAt]
    refine (tries_perform (runs_settle hp v)).bind fun v _ _ _ => ?_
    refine (tries_perform (runs_look _)).bind fun f _ _ _ => ?_
    cases f with
    | some f => exact tries_throw f
    | none =>
      refine (tries_perform (runs_vertex v)).bind fun x _ _ _ => ?_
      split
      · split
        · exact tries_pure fun _ _ => trivial
        · exact tries_failAt v _
      · split
        · refine (tries_mapM fun f _ => ?_).bind fun _ _ _ _ => tries_pure fun _ _ => trivial
          exact (ih f.2).bind fun _ _ _ _ => tries_pure fun _ _ => trivial
        · split
          · exact (tries_mapM fun w _ => ih w).bind fun _ _ _ _ => tries_pure fun _ _ => trivial
          · exact tries_failAt v _

theorem tries_exportVertex (v : Nat) :
    Tries d e (exportVertex process v) (exportVertex process' v) Anyhow := tries_exportAt hp _ v

theorem runs_faultsAt (left : Nat) (concrete : Bool) (v : Nat) :
    Runs d e (faultsAt process left concrete v) (faultsAt process' left concrete v) Anyhow := by
  induction left generalizing e concrete v with
  | zero => exact runs_pure fun _ _ => trivial
  | succ left ih =>
    rw [faultsAt, faultsAt]
    refine (runs_settle hp v).bind fun v _ _ _ => (runs_vertex v).bind fun x _ _ _ => ?_
    refine (runs_look _).bind fun path _ _ _ => ?_
    split
    · exact runs_pure fun _ _ => trivial
    · split
      · exact runs_pure fun _ _ => trivial
      · split
        · exact (runs_mapM (fun _ _ _ _ _ => trivial) fun f _ => ih _ f.2).bind
            fun _ _ _ _ => runs_pure fun _ _ => trivial
        · split
          · exact (runs_mapM (fun _ _ _ _ _ => trivial) fun w _ => ih concrete w).bind
              fun _ _ _ _ => runs_pure fun _ _ => trivial
          · split <;> exact runs_pure fun _ _ => trivial

theorem runs_faults (concrete : Bool) (v : Nat) :
    Runs d e (faults process concrete v) (faults process' concrete v) Anyhow :=
  runs_faultsAt hp _ concrete v

theorem runs_exportAlike (vs : List Nat) (first : Option Json) :
    Runs d e (exportAlike process first vs) (exportAlike process' first vs) Anyhow := by
  induction vs generalizing e first with
  | nil => exact runs_pure fun _ _ => trivial
  | cons v vs ih =>
    rw [exportAlike, exportAlike]
    refine (tries_exportVertex hp v).runs.bind fun r _ _ _ => ?_
    cases r with
    | error f => exact runs_pure fun _ _ => trivial
    | ok j =>
      cases first with
      | none => exact ih _
      | some k =>
        dsimp only
        split
        · exact ih _
        · exact runs_pure fun _ _ => trivial

theorem runs_narrow (survivors : List Survivor) :
    Runs d e (narrow process survivors) (narrow process' survivors) fun r _ => r ⊆ survivors := by
  have hfirst (preferred : List Survivor) (hsub : preferred ⊆ survivors) : Runs d e
      (do
        if 1 < preferred.length then
          if ← exportAlike process none (preferred.map (·.vertex)) then return preferred.take 1
        return preferred)
      (do
        if 1 < preferred.length then
          if ← exportAlike process' none (preferred.map (·.vertex)) then return preferred.take 1
        return preferred) fun r _ => r ⊆ survivors := by
    split
    · refine (runs_exportAlike hp _ _).bind fun b _ _ _ => ?_
      cases b
      · exact runs_pure fun _ _ => hsub
      · exact runs_pure fun _ _ => List.Subset.trans (List.take_subset 1 preferred) hsub
    · exact runs_pure fun _ _ => hsub
  refine hfirst _ ?_
  split
  · exact List.filter_sublist.subset
  · exact List.Subset.refl _

/-! ## References and scalars -/

theorem tries_select (v : Nat) (s : Selector) :
    Tries d e (select process v s) (select process' v s) fun w e' => w < e'.vertices := by
  unfold select
  refine (tries_perform (runs_settle hp v)).bind fun v _ _ _ => ?_
  refine (tries_perform (hp v _)).bind fun _ _ _ _ => ?_
  refine (tries_perform (runs_vertex v)).bind fun x _ _ hx => ?_
  split
  · exact tries_refuse _
  · split
    · rename_i w hw
      exact tries_pure fun _ he => he.vertex (hx.part? hw).2
    · exact (tries_perform (runs_look _)).bind fun f _ _ _ => tries_throw f

theorem tries_selectLabel (r : Resolved) (label : Label) :
    Tries d e (selectLabel process r label) (selectLabel process' r label)
      fun r e' => r.Within e' := by
  unfold selectLabel
  split
  · refine (tries_select hp _ _).bind fun w _ _ hw => tries_pure fun _ he u hu => ?_
    cases hu
    exact he.vertex hw
  · split
    · exact tries_pure fun _ _ => nofun
    · exact tries_refuse _
  · exact tries_refuse _

theorem tries_scalarOf (v : Nat) : Tries d e (scalarOf process v) (scalarOf process' v) Anyhow := by
  unfold scalarOf
  refine (tries_perform (runs_settle hp v)).bind fun v _ _ _ => ?_
  refine (tries_perform (runs_look _)).bind fun f _ _ _ => ?_
  cases f with
  | some f => exact tries_throw f
  | none =>
    refine (tries_perform (runs_vertex v)).bind fun x _ _ _ => ?_
    split
    · exact tries_pure fun _ _ => trivial
    · split <;> exact tries_failAt v _

theorem tries_scalarOfResolved (r : Resolved) :
    Tries d e (scalarOfResolved process r) (scalarOfResolved process' r) Anyhow := by
  unfold scalarOfResolved
  split
  · exact tries_scalarOf hp _
  all_goals exact tries_refuse _

theorem tries_scalarAlone (x : Expr) (hs : scope < e.scopes) :
    Tries d e (scalarAlone process x scope) (scalarAlone process' x scope) Anyhow :=
  (tries_perform (runs_alone x hs)).bind fun v _ _ _ => tries_scalarOf hp v

omit hp in
theorem tries_resolveName (name : String) (scope : Nat) :
    Tries d e (resolveName name scope) (resolveName name scope) fun r e' => r.Within e' := by
  have hfound : Does d e (view (·.lookupName name scope)) fun r e' => ∀ w, r = .ok (.vertex w) →
      w < e'.vertices := runs_view fun _ ha _ _ hw => ha.lookupName_lt hw
  refine (tries_perform hfound).bind fun r _ _ hr => ?_
  cases r with
  | error c => exact tries_throw _
  | ok r =>
    refine tries_pure fun _ he w hw => ?_
    cases hw
    exact he.vertex (hr w rfl)

set_option linter.unusedSectionVars false in
mutual

theorem tries_resolve {e : Extent} {scope : Nat} (hs : scope < e.scopes) (x : Expr) :
    Tries d e (resolve process scope x) (resolve process' scope x) fun r e' => r.Within e' := by
  match x with
  | .ident name => exact tries_resolveName name scope
  | .select base label =>
    exact (tries_resolve hs base).bind fun r _ _ _ => tries_selectLabel hp r label
  | .index base position =>
    rw [resolve, resolve]
    refine (tries_resolve hs base).bind fun r _ he _ => ?_
    split
    · refine (tries_evalScalar (he.scope hs) position).bind fun s _ _ _ => ?_
      refine (tries_ofExcept _).bind fun s _ _ _ => (tries_select hp _ s).bind fun w _ _ hw => ?_
      refine tries_pure fun _ he u hu => ?_
      cases hu
      exact he.vertex hw
    · exact tries_refuse _
  | .top | .bottom | .null | .bool _ | .int _ | .float _ | .str _ | .struct _ | .list .. | .call ..
  | .unary .. | .binary .. | .marked _ => exact tries_refuse _

theorem tries_evalScalar {e : Extent} {scope : Nat} (hs : scope < e.scopes) (x : Expr) :
    Tries d e (evalScalar process scope x) (evalScalar process' scope x) Anyhow := by
  match x with
  | .null | .bool _ | .int _ | .float _ | .str _ => exact tries_pure fun _ _ => trivial
  | .unary op operand =>
    rw [evalScalar, evalScalar]
    split
    · exact tries_scalarAlone hp _ hs
    · exact (tries_evalScalar hs operand).bind fun _ _ _ _ => tries_ofExcept _
  | .binary op lhs rhs =>
    rw [evalScalar, evalScalar]
    split
    · exact tries_scalarAlone hp _ hs
    · refine (tries_perform (tries_evalScalar hs lhs).runs).bind fun _ _ he _ => ?_
      exact (tries_perform (tries_evalScalar (he.scope hs) rhs).runs).bind fun _ _ _ _ =>
        tries_ofResult _
  | .ident name =>
    exact (tries_resolveName name scope).bind fun r _ _ _ => tries_scalarOfResolved hp r
  | .select base label =>
    refine (tries_resolve hs base).bind fun r _ _ _ => ?_
    exact (tries_selectLabel hp r label).bind fun r _ _ _ => tries_scalarOfResolved hp r
  | .index base position =>
    rw [evalScalar, evalScalar]
    refine (tries_resolve hs base).bind fun r _ he _ => ?_
    split
    · refine (tries_evalScalar (he.scope hs) position).bind fun s _ _ _ => ?_
      refine (tries_ofExcept _).bind fun s _ _ _ => ?_
      exact (tries_select hp _ s).bind fun v _ _ _ => tries_scalarOf hp v
    · exact tries_refuse _
  | .call func args =>
    rw [evalScalar, evalScalar]
    refine (tries_resolve hs func).bind fun r _ he _ => ?_
    split
    · exact (tries_arguments (he.scope hs) args).bind fun _ _ _ _ => tries_ofExcept _
    · exact tries_refuse _
  | .top | .bottom | .struct _ | .list .. | .marked _ => exact tries_scalarAlone hp _ hs

theorem tries_arguments {e : Extent} {scope : Nat} (hs : scope < e.scopes) (xs : List Expr) :
    Tries d e (arguments process scope xs) (arguments process' scope xs) Anyhow := by
  match xs with
  | [] => exact tries_pure fun _ _ => trivial
  | x :: rest =>
    have hrest (v : Nat) {e' : Extent} (he : e.Within e') : Tries d e'
        (do
          let j ← exportVertex process v
          return j :: (← arguments process scope rest))
        (do
          let j ← exportVertex process' v
          return j :: (← arguments process' scope rest)) Anyhow :=
      (tries_exportVertex hp v).bind fun j _ he' _ =>
        (tries_arguments (he'.scope (he.scope hs)) rest).bind fun _ _ _ _ =>
          tries_pure fun _ _ => trivial
    rw [arguments, arguments]
    split
    · refine (tries_resolve hs x).bind fun r _ he _ => ?_
      split
      · exact Tries.bind (P := Anyhow) (tries_pure fun _ _ => trivial) fun v _ he' _ =>
          hrest v (he.trans he')
      · exact Tries.bind (P := Anyhow) (tries_refuse _) fun v _ he' _ => hrest v (he.trans he')
      · exact Tries.bind (P := Anyhow) (tries_refuse _) fun v _ he' _ => hrest v (he.trans he')
    · exact (tries_perform (runs_alone x hs)).bind fun v _ he _ => hrest v he

end

/-! ## Labels -/

theorem runs_admits (s : Scalar) (left v : Nat) :
    Runs d e (admits process s left v) (admits process' s left v) Anyhow := by
  induction left generalizing e v with
  | zero => exact runs_pure fun _ _ => trivial
  | succ left ih =>
    rw [admits, admits]
    refine (runs_settle hp v).bind fun v _ _ _ => (runs_vertex v).bind fun x _ _ _ => ?_
    split
    · exact runs_pure fun _ _ => trivial
    · exact runs_anyM fun w _ => ih w

theorem runs_labelMatches (label : Expr) (hs : scope < e.scopes) (name : String) :
    Runs d e (labelMatches process label scope name) (labelMatches process' label scope name)
      Anyhow :=
  (runs_alone label hs).bind fun v _ _ _ => runs_admits hp _ _ v

theorem runs_groupAdmits (name : String) {g : Group} (hg : ∀ p ∈ g.patterns, p.2 < e.scopes) :
    Runs d e (groupAdmits process name g) (groupAdmits process' name g) Anyhow := by
  unfold groupAdmits
  split
  · exact runs_pure fun _ _ => trivial
  · exact runs_anyM fun p hmem => runs_labelMatches hp p.1 (hg p hmem) name

end SchemaMock.Eval
