import SchemaMock.Eval.Process
import SchemaMock.Proofs.Eval.Finality
import SchemaMock.Proofs.Eval.Reads
import SchemaMock.Proofs.Eval.Turn

/-! # Runs that unify

The evaluation of a vertex adds the vertices of its parts after it, and scopes after those around
them. Alternatives are evaluated in vertices that come later too, while the vertex points to them
and the fills below it are held back; both are put back before the alternatives are judged.
-/

namespace SchemaMock

open Arena

namespace Yield

/-- The conjuncts that are left are written in scopes that are there. -/
structure Within (e : Extent) (y : Yield) : Prop where
  next : ∀ c ∈ y.next, c.scope < e.scopes
  kept : ∀ c ∈ y.kept, c.scope < e.scopes
  disjunctions : ∀ list ∈ y.disjunctions, ∀ t ∈ list, t.conjunct.scope < e.scopes

variable {e e' : Extent} {y z : Yield}

theorem Within.mono (h : y.Within e) (he : e.Within e') : y.Within e' where
  next c hc := he.scope (h.next c hc)
  kept c hc := he.scope (h.kept c hc)
  disjunctions l hl t ht := he.scope (h.disjunctions l hl t ht)

theorem within_nothing : nothing.Within e :=
  ⟨List.forall_mem_nil _, List.forall_mem_nil _, List.forall_mem_nil _⟩

theorem within_keep {c : Conjunct} (h : c.scope < e.scopes) : (keep c).Within e :=
  ⟨List.forall_mem_nil _, List.forall_mem_singleton.mpr h, List.forall_mem_nil _⟩

theorem Within.append (hy : y.Within e) (hz : z.Within e) : (y.append z).Within e where
  next c hc := (List.mem_append.mp hc).elim (hy.next c) (hz.next c)
  kept c hc := (List.mem_append.mp hc).elim (hy.kept c) (hz.kept c)
  disjunctions l hl := (List.mem_append.mp hl).elim (hy.disjunctions l) (hz.disjunctions l)

theorem Within.foldl {ys : List Yield} {y : Yield} (hy : y.Within e) (hys : ∀ z ∈ ys, z.Within e) :
    (ys.foldl Yield.append y).Within e := by
  induction ys generalizing y with
  | nil => exact hy
  | cons z ys ih =>
    rw [List.forall_mem_cons] at hys
    exact ih (hy.append hys.1) hys.2

end Yield

namespace Eval

variable {d : Nat} {e : Extent} {v w scope : Nat}

/-! ## Fields -/

theorem runs_arc (hv : v < e.vertices) (label : Label) (required : Bool) :
    Does d e (arc v label required) fun w e' => w < e'.vertices := by
  unfold arc
  refine (runs_vertex v).bind fun x e' he hx => ?_
  split
  · rename_i arc harc
    have hfound : arc.vertex < e'.vertices := (hx.arc? harc).2
    refine Runs.bind (P := Anyhow) (runs_update v (fun y e'' he hy => ?_) fun _ => rfl)
      fun _ _ he _ => runs_pure fun _ he' => he'.vertex (he.vertex hfound)
    refine { hy with arcs := fun f hf => ?_ }
    obtain ⟨g, hg, rfl⟩ := List.mem_map.mp hf
    dsimp only
    split
    · exact hy.arcs g hg
    · exact hy.arcs g hg
  · refine (runs_fillsAt _).bind fun fills e'' he' hfills => ?_
    have hv := he'.vertex (he.vertex hv)
    refine (runs_add _ (fun u hu => ?_) hfills).bind fun w e₁ _ hw => ?_
    · cases hu
      exact hv
    refine Runs.bind (P := Anyhow) (runs_update v (fun y e₂ he hy => ?_) fun _ => rfl)
      fun _ _ he _ => runs_pure fun _ he' => he'.vertex (he.vertex hw.2)
    refine { hy with arcs := fun f hf => (List.mem_append.mp hf).elim (hy.arcs f) fun hf => ?_ }
    rw [List.mem_singleton.mp hf]
    exact ⟨Nat.lt_of_lt_of_le hv hw.1, he.vertex hw.2⟩

theorem runs_addPathsToArc (v : Nat) (added : List Path) (label : Label) (w : Nat) :
    Does d e (addPathsToArc v added label w) Anyhow := by
  unfold addPathsToArc
  refine (runs_fillsAt _).bind fun fills e' _ hfills => ?_
  have hlast (paths : List Path) {e'' : Extent} (he : e'.Within e'') :
      Does d e'' (update w fun x => { x with paths := x.paths ++ paths, seeds := x.seeds ++ fills })
        Anyhow :=
    runs_update w (fun x _ he' hx =>
      { hx with seeds := hx.addSeeds fun c hc => he'.scope (he.scope (hfills c hc)) }) fun _ => rfl
  split
  · refine Runs.bind (P := Anyhow) (runs_update v (fun x _ _ hx => ?_) fun _ => rfl)
      fun _ _ he _ => hlast _ he
    refine { hx with arcs := fun f hf => ?_ }
    obtain ⟨g, hg, rfl⟩ := List.mem_map.mp hf
    dsimp only
    split
    · exact hx.arcs g hg
    · exact hx.arcs g hg
  · exact Runs.bind (P := Anyhow) (runs_pure fun _ _ => trivial) fun _ _ he _ => hlast _ he

theorem runs_addPaths (v : Nat) (paths : List Path) : Does d e (addPaths v paths) Anyhow := by
  unfold addPaths
  refine (runs_vertex v).bind fun x _ _ _ => (runs_look _).bind fun _ _ _ _ => ?_
  split
  · exact runs_pure fun _ _ => trivial
  · dsimp only
    split
    · refine Runs.bind (P := Anyhow) (runs_update v (fun x _ _ hx => { hx with }) fun _ => rfl)
        fun _ _ _ _ => ?_
      exact runs_forM fun f _ => runs_addPathsToArc v _ _ _
    · exact runs_pure fun _ _ => trivial

theorem runs_openGroup (v : Nat) (c : Conjunct) : Does d e (openGroup v c) Anyhow := by
  have hnew {e' : Extent} : Does d e'
      (update v fun x => { x with groups := x.groups ++ [⟨[], [], false⟩] }) Anyhow := by
    refine runs_update v (fun x _ _ hx => { hx with groups := fun g hg => ?_ }) fun _ => rfl
    refine (List.mem_append.mp hg).elim (hx.groups g) fun hg => ?_
    rw [List.mem_singleton.mp hg]
    exact List.forall_mem_nil _
  unfold openGroup
  split
  · exact runs_pure fun _ _ => trivial
  · refine (runs_vertex v).bind fun x _ _ _ => ?_
    dsimp only
    split
    · split
      · exact runs_pure fun _ _ => trivial
      · exact hnew.bind fun _ _ _ _ => runs_pure fun _ _ => trivial
    · exact hnew.bind fun _ _ _ _ => runs_pure fun _ _ => trivial

/-- A group takes labels, or patterns from scopes that are there. -/
theorem runs_updateGroup (v : Nat) (group : Option Nat) {f : Group → Group}
    (hf : ∀ g e', e.Within e' → (∀ p ∈ g.patterns, p.2 < e'.scopes) →
      ∀ p ∈ (f g).patterns, p.2 < e'.scopes) : Does d e (updateGroup v group f) Anyhow := by
  unfold updateGroup
  split
  · exact runs_pure fun _ _ => trivial
  · refine runs_update v (fun x e' he hx => { hx with groups := fun g hg => ?_ }) fun _ => rfl
    obtain ⟨i, hi, rfl⟩ := List.mem_iff_getElem.mp hg
    rw [List.getElem_modify]
    have hmem := hx.groups _ (List.getElem_mem (by simpa using hi))
    split
    · exact hf _ e' he hmem
    · exact hmem

theorem runs_addDecl (hv : v < e.vertices) (c : Conjunct) (hs : scope < e.scopes)
    (group : Option Nat) (decl : Decl) :
    Does d e (addDecl v c scope group decl) fun cs e' => ∀ c ∈ cs, c.scope < e'.scopes := by
  have hnone (e' : Extent) : ∀ c ∈ ([] : List Conjunct), c.scope < e'.scopes :=
    List.forall_mem_nil _
  unfold addDecl
  split
  · refine (runs_arc hv _ _).bind fun w _ he _ => ?_
    refine (runs_addSeed w (c := .of _ scope c.closed) (he.scope hs)).bind fun _ _ _ _ => ?_
    exact Runs.bind (P := Anyhow) (runs_updateGroup v group (by exact fun _ _ _ hg => hg))
      fun _ _ _ _ => runs_pure fun e' _ => hnone e'
  · rename_i label value
    refine Runs.bind (P := Anyhow) (runs_update v (fun x _ he hx => { hx with patterns := fun p hp => ?_ })
      fun _ => rfl) fun _ _ he _ => ?_
    · refine (List.mem_append.mp hp).elim (hx.patterns p) fun hp => ?_
      rw [List.mem_singleton.mp hp]
      exact he.scope hs
    · refine (runs_updateGroup v group fun g _ he' hg p hp => ?_).bind fun _ _ _ _ =>
        runs_pure fun e' _ => hnone e'
      refine (List.mem_append.mp hp).elim (hg p) fun hp => ?_
      rw [List.mem_singleton.mp hp]
      exact he'.scope (he.scope hs)
  · exact Runs.bind (P := Anyhow) (runs_updateGroup v group (by exact fun _ _ _ hg => hg))
      fun _ _ _ _ => runs_pure fun e' _ => hnone e'
  · exact runs_pure fun _ he => List.forall_mem_singleton.mpr (he.scope hs)

theorem runs_addStruct (hv : v < e.vertices) (decls : List Decl) {c : Conjunct}
    (hc : c.scope < e.scopes) :
    Does d e (addStruct v decls c) fun cs e' => ∀ c ∈ cs, c.scope < e'.scopes := by
  unfold addStruct
  refine (runs_meet v _).bind fun _ e₁ he₁ _ => ?_
  have hscope (t : Nat) (ht : e₁.scopes ≤ t) : (Scope.struct c.scope decls v).Sound e₁ t :=
    ⟨Nat.lt_of_lt_of_le (he₁.scope hc) ht, he₁.scope hc, he₁.vertex hv⟩
  refine (runs_addScope hscope).bind fun scope e₂ he₂ hs => ?_
  refine (runs_openGroup v c).bind fun group e₃ he₃ _ => ?_
  have hdecl (decl : Decl) :=
    runs_addDecl (d := d) (he₃.vertex (he₂.vertex (he₁.vertex hv))) c (he₃.scope hs) group decl
  refine (runs_mapM (fun _ _ _ he h c hc => he.scope (h c hc)) fun decl _ => hdecl decl).bind
    fun css _ _ hcss => runs_pure fun _ he c hc => ?_
  obtain ⟨cs, hcs, hc⟩ := List.mem_flatten.mp hc
  exact he.scope (hcss cs hcs c hc)

/-! ## References and scalars -/

theorem runs_copyTarget (v : Nat) {target : Nat} (ht : target < e.vertices) (c : Conjunct) :
    Does d e (copyTarget v target c) fun cs e' => ∀ c ∈ cs, c.scope < e'.scopes := by
  unfold copyTarget
  refine (runs_vertex v).bind fun x e' he _ => ?_
  dsimp only
  split
  · exact runs_pure fun _ _ => List.forall_mem_nil _
  · refine Runs.bind (P := Anyhow) (runs_update v (fun x e'' he' hx =>
      { hx with copied := fun t hmem => ?_ }) fun _ => rfl) fun _ _ _ _ => ?_
    · refine (List.mem_append.mp hmem).elim (hx.copied t) fun hmem => ?_
      rw [List.mem_singleton.mp hmem]
      exact he'.vertex (he.vertex ht)
    · refine (runs_vertex target).bind fun y _ _ hy => (runs_addPaths v _).bind fun _ _ he _ => ?_
      refine runs_pure fun _ he' s hs => ?_
      obtain ⟨seed, hseed, rfl⟩ := List.mem_map.mp hs
      exact he'.scope (he.scope (hy.seeds seed hseed))

variable {process process' : Nat → Eval Unit}
variable (hp : ∀ u e, Runs d e (process u) (process' u) Anyhow)
include hp

theorem runs_meetScalar (v : Nat) (x : Expr) (hs : scope < e.scopes) :
    Runs d e (meetScalar process v x scope) (meetScalar process' v x scope) Anyhow := by
  refine (tries_evalScalar hp hs x).runs.bind fun r _ _ _ => ?_
  split
  · exact runs_meet v _
  · exact runs_record v _

theorem runs_meetBound (v : Nat) (op : BoundOp) (operand : Expr) (hs : scope < e.scopes) :
    Runs d e (meetBound process v op operand scope) (meetBound process' v op operand scope)
      Anyhow := by
  refine (tries_evalScalar hp hs operand).runs.bind fun r _ _ _ => ?_
  split
  · exact runs_meet v _
  · exact runs_record v _

theorem runs_addReference (v : Nat) (x : Expr) {c : Conjunct} (hc : c.scope < e.scopes) :
    Runs d e (addReference process v x c) (addReference process' v x c)
      fun y e' => y.Within e' := by
  have hkept (e' : Extent) (he : e.Within e') : (Yield.keep c).Within e' :=
    Yield.within_keep (he.scope hc)
  refine Runs.bind (tries_resolve hp hc x) fun r _ he₁ hr => ?_
  split
  · rename_i target
    have ht := hr _ rfl target rfl
    refine (runs_look _).bind fun _ _ he₂ _ => (runs_look _).bind fun _ _ he₃ _ => ?_
    split
    · exact runs_pure fun _ _ => Yield.within_nothing
    · refine (runs_look _).bind fun _ _ he₄ _ => ?_
      split
      · exact (runs_look _).bind fun path _ _ _ => (runs_meet v _).bind fun _ _ _ _ =>
          runs_pure fun _ _ => Yield.within_nothing
      · refine (runs_copyTarget v (he₄.vertex (he₃.vertex (he₂.vertex ht))) c).bind
          fun cs _ _ hcs => runs_pure fun _ he => ?_
        exact { Yield.within_nothing with next := fun c hc => he.scope (hcs c hc) }
  · exact (runs_meet v _).bind fun _ _ he₂ _ => runs_pure fun _ he =>
      hkept _ ((he₁.trans he₂).trans he)
  · exact (runs_meet v _).bind fun _ _ _ _ => runs_pure fun _ _ => Yield.within_nothing
  · exact (runs_meet v _).bind fun _ _ _ _ => runs_pure fun _ _ => Yield.within_nothing
  · exact (runs_record v _).bind fun _ _ he₂ _ => runs_pure fun _ he =>
      hkept _ ((he₁.trans he₂).trans he)

/-! ## Conjuncts -/

theorem runs_addExpr (hv : v < e.vertices) {c : Conjunct} (hc : c.scope < e.scopes) (x : Expr) :
    Runs d e (addExpr process v c x) (addExpr process' v c x) fun y e' => y.Within e' := by
  have hkeep {m m' : Eval Unit} (hm : Runs d e m m' Anyhow) :
      Runs d e (do m; return .keep c) (do m'; return .keep c) fun y e' => Yield.Within e' y :=
    hm.bind fun _ _ he _ => runs_pure fun _ he' => Yield.within_keep (he'.scope (he.scope hc))
  have hchoice (y : Expr) (e' : Extent) (he : e.Within e') :
      (⟨[], [], [c.alternatives y]⟩ : Yield).Within e' := by
    refine ⟨List.forall_mem_nil _, List.forall_mem_nil _,
      List.forall_mem_singleton.mpr fun t ht => ?_⟩
    obtain ⟨z, -, rfl⟩ := List.mem_map.mp ht
    exact he.scope hc
  match x with
  | .top => exact runs_pure fun _ he => Yield.within_keep (he.scope hc)
  | .bottom | .null | .bool _ | .int _ | .float _ | .str _ => exact hkeep (runs_meet v _)
  | .struct decls =>
    refine (runs_addStruct hv decls hc).bind fun cs _ he hcs => runs_pure fun _ he' => ?_
    exact { Yield.within_keep (he'.scope (he.scope hc)) with next := fun c hc => he'.scope (hcs c hc) }
  | .list elems tail =>
    refine hkeep ((runs_meet v _).bind fun _ _ he _ => ?_)
    refine runs_update v (fun x _ he' hx => { hx with lists := fun l hl => ?_ }) fun _ => rfl
    refine (List.mem_append.mp hl).elim (hx.lists l) fun hl => ?_
    rw [List.mem_singleton.mp hl]
    exact he'.scope (he.scope hc)
  | .marked y => exact runs_pure (hchoice (.marked y))
  | .ident name => exact runs_addReference hp v (.ident name) hc
  | .select base label => exact runs_addReference hp v (.select base label) hc
  | .index base position => exact runs_addReference hp v (.index base position) hc
  | .unary op operand =>
    refine hkeep ?_
    split
    · exact runs_meetBound hp v _ operand hc
    · exact runs_meetScalar hp v _ hc
  | .binary op lhs rhs =>
    cases op
    case unify =>
      refine runs_pure fun _ he => ⟨List.forall_mem_cons.mpr ⟨he.scope hc,
        List.forall_mem_singleton.mpr (he.scope hc)⟩, List.forall_mem_nil _, List.forall_mem_nil _⟩
    case disjoin => exact runs_pure (hchoice (.binary .disjoin lhs rhs))
    all_goals exact hkeep (runs_meetScalar hp v _ hc)
  | .call func args => exact hkeep (runs_meetScalar hp v (.call func args) hc)

theorem runs_addConjunct (hv : v < e.vertices) {c : Conjunct} (hc : c.scope < e.scopes) :
    Runs d e (addConjunct process v c) (addConjunct process' v c) fun y e' => y.Within e' := by
  unfold addConjunct
  split
  · exact runs_addExpr hp hv hc _
  · exact (runs_meet v _).bind fun _ _ he _ => runs_pure fun _ he' =>
      Yield.within_keep (he'.scope (he.scope hc))

theorem runs_addRounds (hv : v < e.vertices) (rounds : Nat) {work : List Conjunct}
    (hwork : ∀ c ∈ work, c.scope < e.scopes) :
    Runs d e (addRounds process v rounds work) (addRounds process' v rounds work) fun r e' =>
      (∀ c ∈ r.1, c.scope < e'.scopes) ∧
        ∀ list ∈ r.2, ∀ t ∈ list, t.conjunct.scope < e'.scopes := by
  induction rounds generalizing e work with
  | zero =>
    cases work with
    | nil => exact runs_pure fun _ _ => ⟨List.forall_mem_nil _, List.forall_mem_nil _⟩
    | cons c work =>
      exact (runs_meet v _).bind fun _ _ _ _ =>
        runs_pure fun _ _ => ⟨List.forall_mem_nil _, List.forall_mem_nil _⟩
  | succ rounds ih =>
    cases work with
    | nil => exact runs_pure fun _ _ => ⟨List.forall_mem_nil _, List.forall_mem_nil _⟩
    | cons c work =>
      refine (runs_mapM (fun _ _ _ he hy => hy.mono he) fun c hc =>
        runs_addConjunct hp hv (hwork c hc)).bind fun ys _ he₁ hys => ?_
      have hall := Yield.within_nothing.foldl hys
      refine (ih (he₁.vertex hv) hall.next).bind fun r _ he₂ hr => runs_pure fun _ he₃ => ?_
      have hlast := hall.mono (he₂.trans he₃)
      refine ⟨fun c hc => ?_, fun list hlist t ht => ?_⟩
      · exact (List.mem_append.mp hc).elim (hlast.kept c) fun hc => he₃.scope (hr.1 c hc)
      · exact (List.mem_append.mp hlist).elim (fun h => hlast.disjunctions list h t ht)
          fun h => he₃.scope (hr.2 list h t ht)

/-! ## The last step -/

omit hp in
theorem runs_element (hv : v < e.vertices) {lists : List ListPart}
    (hlists : ∀ l ∈ lists, l.scope < e.scopes) (index : Nat) :
    Does d e (element v lists index) fun w e' => e'.Later v w := by
  refine (runs_vertex v).bind fun x _ he₁ _ => (runs_fillsAt _).bind fun fills e₂ he₂ hfills => ?_
  have he := he₁.trans he₂
  refine (runs_add _ (fun u hu => ?_) fun c hc => ?_).mono fun w _ _ hw =>
    ⟨Nat.lt_of_lt_of_le (he.vertex hv) hw.1, hw.2⟩
  · cases hu
    exact he.vertex hv
  · refine (List.mem_append.mp hc).elim (hfills c) fun hc => ?_
    obtain ⟨l, hl, hc⟩ := List.mem_filterMap.mp hc
    have hs := he.scope (hlists l hl)
    unfold ListPart.conjunct? at hc
    split at hc
    · cases hc
      exact hs
    · obtain ⟨x, -, rfl⟩ := Option.map_eq_some_iff.mp hc
      exact hs

omit hp in
theorem runs_buildList (hv : v < e.vertices) : Does d e (buildList v) Anyhow := by
  refine (runs_vertex v).bind fun x _ he₁ hx => ?_
  dsimp only
  split
  · refine Runs.bind (P := Anyhow) (runs_update v (fun x _ _ hx =>
      { hx with lists := List.forall_mem_nil _ }) fun _ => rfl) fun _ _ he₂ _ => ?_
    split
    · exact runs_meet v _
    · refine (runs_mapM (fun _ _ _ he h => h.mono he) fun i _ => runs_element (he₂.vertex (he₁.vertex hv))
        (fun l hl => he₂.scope (hx.lists l hl)) i).bind fun elems _ _ helems => ?_
      exact runs_update v (fun x _ he hx => { hx with elems := fun w hw => (helems w hw).mono he })
        fun _ => rfl
  · exact runs_pure fun _ _ => trivial

omit hp in
theorem runs_requireFilledParts (hv : v < e.vertices) : Does d e (requireFilledParts v) Anyhow := by
  refine (runs_vertex v).bind fun x _ he₁ _ => (runs_look _).bind fun selectors _ he₂ _ =>
    runs_forM fun s _ => ?_
  unfold requirePart
  split
  · refine (runs_vertex v).bind fun x _ _ _ => ?_
    dsimp only
    split
    · exact runs_meet v _
    · exact runs_pure fun _ _ => trivial
  · refine (runs_meet v _).bind fun _ _ he₃ _ => ?_
    exact (runs_arc (he₃.vertex (he₂.vertex (he₁.vertex hv))) _ _).bind fun _ _ _ _ =>
      runs_pure fun _ _ => trivial

theorem runs_applyPatterns (v : Nat) :
    Runs d e (applyPatterns process v) (applyPatterns process' v) Anyhow := by
  refine (runs_vertex v).bind fun x _ _ hx => ?_
  split
  · refine runs_forM fun f _ => runs_forM fun p hmem => ?_
    have hs := hx.patterns p hmem
    refine (runs_labelMatches hp _ hs _).bind fun b _ he _ => ?_
    split
    · exact runs_addSeed _ (he.scope hs)
    · exact runs_pure fun _ _ => trivial
  · exact runs_pure fun _ _ => trivial

theorem runs_checkClosed (hplain : plainScope < e.scopes) (v : Nat) :
    Runs d e (checkClosed process v) (checkClosed process' v) Anyhow := by
  refine (runs_vertex v).bind fun x _ he₁ hx => ?_
  split
  · refine runs_forM fun f _ => ?_
    refine (runs_allM fun g hg => runs_groupAdmits hp f.1 (hx.groups g hg)).bind fun b _ he₂ _ => ?_
    split
    · exact runs_addSeed _ (he₂.scope (he₁.scope hplain))
    · exact runs_pure fun _ _ => trivial
  · exact runs_pure fun _ _ => trivial

theorem runs_finish (hplain : plainScope < e.scopes) (hv : v < e.vertices) :
    Runs d e (finish process v) (finish process' v) Anyhow := by
  refine (runs_vertex v).bind fun x _ he₁ _ => ?_
  split
  · refine (runs_buildList (he₁.vertex hv)).bind fun _ _ he₂ _ => ?_
    have he := he₁.trans he₂
    refine (runs_requireFilledParts (he.vertex hv)).bind fun _ _ he₃ _ => ?_
    refine (runs_applyPatterns hp v).bind fun _ _ he₄ _ => ?_
    exact runs_checkClosed hp (he₄.scope (he₃.scope (he.scope hplain))) v
  · exact runs_pure fun _ _ => trivial

/-! ## Disjunctions -/

omit hp in
/-- A vertex for one choice comes after the vertex that the choice is made for. -/
theorem runs_stand (hv : v < e.vertices) {seeds : List Conjunct}
    (h : ∀ c ∈ seeds, c.scope < e.scopes) : Does d e (stand v seeds) fun w e' => e'.Later v w := by
  refine (runs_vertex v).bind fun x _ he₁ hx => ?_
  refine (runs_add _ (fun u hu => ?_) fun c hc => he₁.scope (h c hc)).bind fun w e₂ he₂ hw => ?_
  · exact (hx.parent u hu).2
  · have hlater : e₂.Later v w := ⟨Nat.lt_of_lt_of_le (he₁.vertex hv) hw.1, hw.2⟩
    exact Runs.bind (P := Anyhow) (runs_update w (fun y _ he hy =>
      { hy with copied := fun t ht => he.vertex (he₂.vertex (hx.copied t ht)) }) fun _ => rfl)
      fun _ _ he _ => runs_pure fun _ he' => (hlater.mono he).mono he'

omit hp in
theorem runs_forward {w : Option Nat} (h : ∀ u, w = some u → e.Later v u) :
    Does d e (update v fun x => { x with forward := w }) Anyhow :=
  runs_update v (fun _ _ he hx => { hx with forward := fun u hu => (h u hu).mono he }) fun _ => rfl

theorem runs_tryChoice (hv : v < e.vertices) {seeds : List Conjunct}
    (h : ∀ c ∈ seeds, c.scope < e.scopes) :
    Runs d e (tryChoice process v seeds) (tryChoice process' v seeds)
      fun r e' => e'.Later v r.1 := by
  refine (runs_stand hv h).bind fun w _ _ hw => ?_
  refine Runs.bind (P := Anyhow) (runs_forward fun u hu => by cases hu; exact hw)
    fun _ _ he₁ _ => ?_
  refine (runs_faults hp false w).bind fun found _ he₂ _ => ?_
  exact Runs.bind (P := Anyhow) (runs_forward nofun) fun _ _ he₃ _ => runs_pure fun _ he₄ =>
    hw.mono (((he₁.trans he₂).trans he₃).trans he₄)

theorem runs_tryChoices (hv : v < e.vertices) {kept : List Conjunct}
    (disjunctions : List (List Alternative)) {choices : List (List Alternative)}
    (hkept : ∀ c ∈ kept, c.scope < e.scopes)
    (hchoices : ∀ choice ∈ choices, ∀ t ∈ choice, t.conjunct.scope < e.scopes) :
    Runs d e (tryChoices process v kept disjunctions choices)
      (tryChoices process' v kept disjunctions choices) fun r e' =>
        ∀ s ∈ r.1, e'.Later v s.vertex ∧ ∀ c ∈ s.seeds, c.scope < e'.scopes := by
  induction choices generalizing e with
  | nil => exact runs_pure fun _ _ => List.forall_mem_nil _
  | cons choice rest ih =>
    rw [List.forall_mem_cons] at hchoices
    have hseeds : ∀ c ∈ kept ++ choice.map (·.conjunct), c.scope < e.scopes := by
      intro c hc
      refine (List.mem_append.mp hc).elim (hkept c) fun hc => ?_
      obtain ⟨t, ht, rfl⟩ := List.mem_map.mp hc
      exact hchoices.1 t ht
    refine (runs_tryChoice hp hv hseeds).bind fun (w, found) _ he₁ hw => ?_
    refine (ih (he₁.vertex hv) (fun c hc => he₁.scope (hkept c hc))
      fun choice hmem t ht => he₁.scope (hchoices.2 choice hmem t ht)).bind
      fun (survivors, failures) _ he₂ hrest => ?_
    have hlater {e' : Extent} (he : _) : ∀ s ∈ survivors, e'.Later v s.vertex ∧
        ∀ c ∈ s.seeds, c.scope < e'.scopes :=
      fun s hs => ⟨(hrest s hs).1.mono he, fun c hc => he.scope ((hrest s hs).2 c hc)⟩
    dsimp only
    split
    · exact runs_pure fun _ he => List.forall_mem_cons.mpr ⟨⟨(hw.mono he₂).mono he,
        fun c hc => he.scope (he₂.scope (he₁.scope (hseeds c hc)))⟩, hlater he⟩
    · exact runs_pure fun _ he => hlater he

omit hp in
theorem Runs.withholding {α : Type} {m m' : Eval α} {P : α → Extent → Prop} (h : Runs d e m m' P)
    (paths : List Path) : Runs d e (withholding paths m) (withholding paths m') P := by
  intro a ha hd he
  obtain ⟨hsame, ho, hr, hx⟩ :=
    h { a with withheld := a.withheld ++ paths } (ordered_of_eq ha rfl rfl) hd he
  refine ⟨?_, ordered_of_eq ho rfl rfl, ⟨hr.extent, hr.depth, rfl, hr.processing⟩, hx⟩
  show (_, { (m' _).2 with withheld := a.withheld }) = (_, { (m _).2 with withheld := a.withheld })
  rw [hsame]

theorem runs_forwardTo (hv : v < e.vertices) {s : Survivor} (hs : e.Later v s.vertex)
    (hseeds : ∀ c ∈ s.seeds, c.scope < e.scopes) :
    Runs d e (forwardTo process v s) (forwardTo process' v s) Anyhow := by
  have hlast {w : Nat} {e' : Extent} (hw : e'.Later v w) : Runs d e'
      (do update v fun x => { x with forward := some w }; process w)
      (do update v fun x => { x with forward := some w }; process' w) Anyhow :=
    Runs.bind (P := Anyhow) (runs_forward fun u hu => by cases hu; exact hw) fun _ _ _ _ => hp w _
  refine (runs_vertex v).bind fun x _ he₁ _ => (runs_look _).bind fun b _ he₂ _ => ?_
  have he := he₁.trans he₂
  split
  · exact (runs_stand (he.vertex hv) fun c hc => he.scope (hseeds c hc)).bind
      fun w _ _ hw => hlast hw
  · exact Runs.bind (P := fun w e' => e'.Later v w) (runs_pure fun _ he' => (hs.mono he).mono he')
      fun w _ _ hw => hlast hw

omit hp in
theorem runs_leaveOpen {survivors : List Survivor} (h : ∀ s ∈ survivors, e.Later v s.vertex) :
    Does d e (leaveOpen v survivors) Anyhow := by
  refine Runs.bind (P := fun _ _ => ∀ y ∈ _, Anyhow y e) (runs_mapM (Q := Anyhow)
    (fun _ _ _ _ _ => trivial) fun s _ => ?_) fun vals _ he _ => ?_
  · exact (runs_look _).bind fun w _ _ _ => (runs_vertex w).bind fun x _ _ _ =>
      runs_pure fun _ _ => trivial
  · refine runs_update v (fun x _ he' hx => { hx with disjuncts := fun w hw => ?_ }) fun _ => rfl
    obtain ⟨s, hs, rfl⟩ := List.mem_map.mp hw
    exact ((h s hs).mono he).mono he'

theorem runs_decideChoice (hv : v < e.vertices) {kept : List Conjunct}
    {disjunctions : List (List Alternative)} (hkept : ∀ c ∈ kept, c.scope < e.scopes)
    (halts : ∀ list ∈ disjunctions, ∀ t ∈ list, t.conjunct.scope < e.scopes) :
    Runs d e (decideChoice process v kept disjunctions) (decideChoice process' v kept disjunctions)
      Anyhow := by
  unfold decideChoice
  split
  · exact runs_meet v _
  · rename_i choices hchoices
    refine (runs_vertex v).bind fun x _ he₁ _ => ?_
    have htry :=
      runs_tryChoices hp (he₁.vertex hv) disjunctions (fun c hc => he₁.scope (hkept c hc))
      fun choice hmem t ht => he₁.scope (forall_of_combinations hchoices halts choice hmem t ht)
    refine (htry.withholding _).bind fun (survivors, failures) _ he₂ hr => ?_
    dsimp only
    split
    · exact runs_meet v _
    · refine (runs_narrow hp survivors).bind fun r _ he₃ hsub => ?_
      split
      · rename_i s
        have hs := hr s (hsub List.mem_cons_self)
        exact runs_forwardTo hp (he₃.vertex (he₂.vertex (he₁.vertex hv))) (hs.1.mono he₃)
          fun c hc => he₃.scope (hs.2 c hc)
      · exact runs_leaveOpen fun s hs => (hr s (hsub hs)).1.mono he₃

/-! ## Processing -/

theorem runs_unifySeeds (hplain : plainScope < e.scopes) (hv : v < e.vertices) :
    Runs d e (unifySeeds process v) (unifySeeds process' v) Anyhow := by
  rw [unifySeeds, unifySeeds]
  -- the limit is a number that unification must not count down from
  generalize roundLimit = limit
  refine (runs_vertex v).bind fun x _ he₁ hx => (runs_look limit).bind fun rounds _ he₂ _ => ?_
  have he := he₁.trans he₂
  refine (runs_addRounds hp (he.vertex hv) rounds fun c hc => he₂.scope (hx.seeds c hc)).bind
    fun r _ he₃ hr => (runs_vertex v).bind fun y _ he₄ _ => ?_
  have he := (he.trans he₃).trans he₄
  split
  · exact runs_finish hp (he.scope hplain) (he.vertex hv)
  · exact runs_decideChoice hp (he.vertex hv) (fun c hc => he₄.scope (hr.1 c hc))
      fun list hlist t ht => he₄.scope (hr.2 list hlist t ht)

end Eval

end SchemaMock
