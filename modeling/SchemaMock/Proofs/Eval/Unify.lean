import SchemaMock.Proofs.Eval.Step

/-! # Unifying a vertex

Every step of the unification of a vertex refines it. A reference takes the seeds of its target in,
and it does so once for each target.
-/

namespace SchemaMock.Eval

open Arena

variable {d : Definition} {process : Nat → Eval Unit} {v : Nat}

theorem Keeps.unifying {α : Type} {m : Eval α} (h : Keeps d.Beside m) (v : Nat) :
    Keeps (d.Unifying v) m := h.mono fun _ _ h => h.unifying v

theorem Keeps.within {α : Type} {m : Eval α} (h : Keeps (d.Unifying v) m) : Keeps (d.Within v) m :=
  h.mono fun _ _ h => h.within

theorem keeps_meet (val : Val) : Keeps (d.Unifying v) (meet v val) :=
  keeps_update fun x => .meet x val

theorem keeps_record (f : Fault) : Keeps (d.Unifying v) (record v f) :=
  keeps_update fun x => .record x f

/-! ## Fields -/

theorem keeps_arc (label : Label) (required : Bool) :
    Keeps (d.Unifying v) (arc v label required) := by
  unfold arc
  refine (keeps_vertex v).bind fun x => ?_
  split
  · exact Keeps.bind (keeps_update fun x => { Vertex.Refined.refl x with }) fun _ => keeps_pure _
  · refine (keeps_view _).bind fun fills => ((keeps_add _ _ _).unifying v).bind fun w => ?_
    exact Keeps.bind (keeps_update fun x => { Vertex.Refined.refl x with }) fun _ => keeps_pure _

theorem keeps_addPathsToArc (added : List Path) (label : Label) (w : Nat) :
    Keeps (d.Unifying v) (addPathsToArc v added label w) := by
  unfold addPathsToArc
  have hlast (paths : List Path) (fills : List Conjunct) : Keeps (d.Unifying v) (update w fun x =>
      { x with paths := x.paths ++ paths, seeds := x.seeds ++ fills }) := by
    refine (keeps_grow w (fun x => ?_) fun x => ?_).unifying v
    · exact ⟨List.prefix_append _ _, List.prefix_append _ _, fun _ => rfl⟩
    · exact { Vertex.Refined.refl x with
        paths := List.prefix_append _ _
        seeds := List.prefix_append _ _ }
  refine (keeps_view _).bind fun fills => ?_
  split
  · exact Keeps.bind (keeps_update fun x => { Vertex.Refined.refl x with }) fun _ => hlast _ _
  · exact (keeps_pure _).bind fun _ => hlast _ _

theorem keeps_addPaths (paths : List Path) : Keeps (d.Unifying v) (addPaths v paths) := by
  unfold addPaths
  refine (keeps_vertex v).bind fun x => (keeps_view _).bind fun noFills => ?_
  split
  · exact keeps_pure _
  · dsimp only
    split
    · refine (keeps_update fun x => ?_).bind fun _ =>
        keeps_forM (fun f => keeps_addPathsToArc _ _ _) _
      exact { Vertex.Refined.refl x with paths := List.prefix_append _ _ }
    · exact keeps_pure _

theorem keeps_openGroup (c : Conjunct) : Keeps (d.Unifying v) (openGroup v c) := by
  have hnew : Keeps (d.Unifying v) (update v fun x =>
      { x with groups := x.groups ++ [⟨[], [], false⟩] }) :=
    keeps_update fun x => { Vertex.Refined.refl x with }
  unfold openGroup
  split
  · exact keeps_pure _
  · refine (keeps_vertex v).bind fun x => ?_
    dsimp only
    split
    · split
      · exact keeps_pure _
      · exact hnew.bind fun _ => keeps_pure _
    · exact hnew.bind fun _ => keeps_pure _

theorem keeps_updateGroup (group : Option Nat) (f : Group → Group) :
    Keeps (d.Unifying v) (updateGroup v group f) := by
  unfold updateGroup
  split
  · exact keeps_pure _
  · exact keeps_update fun x => { Vertex.Refined.refl x with }

theorem keeps_addDecl (c : Conjunct) (scope : Nat) (group : Option Nat) (decl : Decl) :
    Keeps (d.Unifying v) (addDecl v c scope group decl) := by
  unfold addDecl
  split
  · refine (keeps_arc _ _).bind fun w => ((keeps_addSeed w _).unifying v).bind fun _ => ?_
    exact (keeps_updateGroup _ _).bind fun _ => keeps_pure _
  · refine Keeps.bind (keeps_update fun x => { Vertex.Refined.refl x with }) fun _ => ?_
    exact (keeps_updateGroup _ _).bind fun _ => keeps_pure _
  · exact (keeps_updateGroup _ _).bind fun _ => keeps_pure _
  · exact keeps_pure _

theorem keeps_addStruct (decls : List Decl) (c : Conjunct) :
    Keeps (d.Unifying v) (addStruct v decls c) := by
  unfold addStruct
  refine (keeps_meet _).bind fun _ => ((keeps_addScope _).unifying v).bind fun scope => ?_
  refine (keeps_openGroup c).bind fun group => ?_
  exact (keeps_mapM (keeps_addDecl c scope group) decls).bind fun _ => keeps_pure _

theorem keeps_requirePart (s : Selector) : Keeps (d.Unifying v) (requirePart v s) := by
  unfold requirePart
  split
  · refine (keeps_vertex v).bind fun x => ?_
    dsimp only
    split
    · exact keeps_meet _
    · exact keeps_pure _
  · exact (keeps_meet _).bind fun _ => (keeps_arc _ _).bind fun _ => keeps_pure _

theorem keeps_requireFilledParts : Keeps (d.Unifying v) (requireFilledParts v) :=
  (keeps_vertex v).bind fun _ => (keeps_view _).bind fun _ => keeps_forM keeps_requirePart _

/-! ## Scalars, patterns and closed structs -/

variable (hp : ∀ u, Keeps d.Beside (process u))
include hp

theorem keeps_meetScalar (x : Expr) (scope : Nat) :
    Keeps (d.Unifying v) (meetScalar process v x scope) := by
  refine ((keeps_evalScalar hp keeps_alone scope x).unifying v).bind fun r => ?_
  split
  · exact keeps_meet _
  · exact keeps_record _

theorem keeps_meetBound (op : BoundOp) (operand : Expr) (scope : Nat) :
    Keeps (d.Unifying v) (meetBound process v op operand scope) := by
  refine ((keeps_evalScalar hp keeps_alone scope operand).unifying v).bind fun r => ?_
  split
  · exact keeps_meet _
  · exact keeps_record _

theorem keeps_applyPatterns : Keeps d.Beside (applyPatterns process v) := by
  unfold applyPatterns
  refine (keeps_vertex v).bind fun x => ?_
  split
  · refine keeps_forM (fun (name, w) => keeps_forM (fun p => ?_) _) _
    refine (keeps_labelMatches hp keeps_alone _ _ _).bind fun b => ?_
    split
    · exact keeps_addSeed w _
    · exact keeps_pure _
  · exact keeps_pure _

theorem keeps_checkClosed : Keeps d.Beside (checkClosed process v) := by
  unfold checkClosed
  refine (keeps_vertex v).bind fun x => ?_
  split
  · refine keeps_forM (fun (name, w) => ?_) _
    refine (keeps_allM (keeps_groupAdmits hp keeps_alone name) _).bind fun b => ?_
    split
    · exact keeps_addSeed w _
    · exact keeps_pure _
  · exact keeps_pure _

end SchemaMock.Eval
