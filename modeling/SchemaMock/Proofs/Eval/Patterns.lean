import SchemaMock.Proofs.Eval.Lookup

/-! # Patterns for every name

A pattern with the label `string`, where nothing declares that name, admits every name. It evaluates
its label and nothing else, so that each field gets the value of the pattern as a further seed while
it is yet to be evaluated.
-/

namespace SchemaMock

open Arena Eval

namespace Arena

variable {a b : Arena} {s u v w : Nat} {label : Label}

/-- Vertices get paths and seeds, and others are added. None of those before is evaluated. -/
structure Quiet (a b : Arena) : Prop where
  grown : Grown none a b
  fills : b.fills = a.fills
  still : ∀ u < a.vertices.size, (a.vertex u).stage = .pending → (b.vertex u).stage = .pending

instance : Lasting Quiet where
  refl a := ⟨.refl _ a, rfl, fun _ _ => id⟩
  trans h h' := ⟨h.grown.trans h'.grown, h'.fills.trans h.fills, fun u hu hs =>
    h'.still u (Nat.lt_of_lt_of_le hu h.grown.size) (h.still u hu hs)⟩

theorem quiet_add (a : Arena) (x : Vertex) : Quiet a (a.add x).2 :=
  ⟨grown_add _ a x, rfl, fun _ hu hs => (congrArg Vertex.stage (vertex_add_of_lt x hu)).trans hs⟩

/-- No struct around a scope declares the label. -/
inductive Outside (a : Arena) (label : Label) : Nat → Prop
  | root {s : Nat} {imports : List String} : s < a.scopes.size → a.scope s = .root imports →
      Outside a label s
  | within {s p v : Nat} {decls : List Decl} : s < a.scopes.size → a.scope s = .struct p decls v →
      decls.any (Decl.declares label) = false → p < s → Outside a label p → Outside a label s

theorem Outside.lt_size (h : a.Outside label s) : s < a.scopes.size := by
  cases h <;> assumption

theorem Outside.grown {own : Option Nat} (h : a.Outside label s) (hg : Grown own a b) :
    b.Outside label s := by
  induction h with
  | root hs hd => exact .root (Nat.lt_of_lt_of_le hs hg.scopes) ((hg.scope hs).trans hd)
  | within hs hd hl hp _ ih =>
    exact .within (Nat.lt_of_lt_of_le hs hg.scopes) ((hg.scope hs).trans hd) hl hp ih

/-- The root has settled without such a field. -/
def Rootless (a : Arena) (label : Label) : Prop :=
  ∃ t, a.SettlesTo root t ∧ (a.vertex t).arc? label = none

theorem Rootless.grown {own : Option Nat} (h : a.Rootless label) (hg : Grown own a b)
    (hown : ∀ u, own = some u → (a.vertex u).stage ≠ .done) : b.Rootless label := by
  obtain ⟨t, ht, hnone⟩ := h
  have he := hg.eq_of_stage (fun ho => hown t ho ht.stage_last) (by rw [ht.stage_last]; decide)
  refine ⟨t, ht.grown hg hown, ?_⟩
  rw [he]
  exact hnone

theorem Rootless.arc? (h : a.Rootless label) : (a.vertex (a.follow root)).arc? label = none := by
  obtain ⟨t, ht, hnone⟩ := h
  rw [follow_of_settlesTo ht]
  exact hnone

/-- A name that no struct around declares, nor the root so far, stands for a type, if it is the name
of one. -/
theorem lookupName_of_arc? {name : String} {c : Constraint} (h : a.Outside (.ofIdent name.toList) s)
    (hroot : (a.vertex (a.follow root)).arc? (.ofIdent name.toList) = none)
    (hc : Constraint.ofTypeName? name = some c) :
    a.lookupName name s = .ok (.val (.constraint c)) := by
  have hlast (imports : List String) :
      a.lookupOutermost name imports = .ok (.val (.constraint c)) := by
    rw [lookupOutermost, hroot, hc]
  have hgo (n : Nat) (hn : s < n) : lookupName.go a name n s = .ok (.val (.constraint c)) := by
    induction h generalizing n with
    | root hs hd =>
      cases n with
      | zero => omega
      | succ n => simp only [lookupName.go, hd, hlast]
    | within hs hd hl hp _ ih =>
      cases n with
      | zero => omega
      | succ n =>
        simp only [lookupName.go, hd, hl]
        exact ih n (by omega)
  exact hgo _ h.lt_size

/-- A name that nothing declares stands for a type, if it is the name of one. -/
theorem lookupName_of_outside {name : String} {c : Constraint}
    (h : a.Outside (.ofIdent name.toList) s) (hroot : a.Rootless (.ofIdent name.toList))
    (hc : Constraint.ofTypeName? name = some c) :
    a.lookupName name s = .ok (.val (.constraint c)) :=
  lookupName_of_arc? h hroot.arc? hc

end Arena

namespace Eval

variable {process : Nat → Eval Unit} {a : Arena} {s v w : Nat}

def stringLabel : Label := .ofIdent "string".toList

/-- What the name `string` stands for where nothing declares it. -/
def stringType : Constraint := .ofKinds .ofString

theorem addReference_of_val {x : Expr} {c : Conjunct} {val : Val}
    {b : Arena} (hr : (resolve process c.scope x).run a = (.ok (.val val), b)) :
    addReference process v x c a = (.keep c, (meet v val b).2) := by
  simp only [addReference, bind, StateT.bind, hr]
  rfl

/-- A single round without disjunctions is followed by the finish. -/
theorem unifySeeds_of_round {ys : List Yield} {b : Arena}
    (h : (a.vertex v).seeds.mapM (addConjunct process v) a = (ys, b))
    (hnext : ys.flatMap (·.next) = []) (hdisjunctions : ys.flatMap (·.disjunctions) = []) :
    unifySeeds process v a = finish process v b := by
  have hround (rounds : Nat) : addRounds process v (rounds + 1) (a.vertex v).seeds a =
      ((ys.flatMap (·.kept), []), b) := by
    cases hseeds : (a.vertex v).seeds with
    | nil =>
      rw [hseeds] at h
      obtain ⟨rfl, rfl⟩ := Prod.mk.inj h
      rfl
    | cons c cs =>
      rw [hseeds] at h
      have hlast : addRounds process v rounds [] b = (([], []), b) := by cases rounds <;> rfl
      rw [addRounds, run_bind, h]
      · dsimp only
        rw [foldl_append, run_bind]
        simp only [Yield.nothing, List.nil_append, hnext, hdisjunctions]
        rw [hlast]
        simp only [List.append_nil]
        rfl
      · exact nofun
  have hlimit : 0 < roundLimit a := Nat.mul_pos (by decide) (Nat.succ_pos _)
  rw [unifySeeds, run_bind, run_bind, run_bind]
  generalize roundLimit = limit at hlimit
  obtain ⟨rounds, hrounds⟩ := Nat.exists_eq_add_of_lt hlimit
  have hrun : addRounds process v (view limit (vertex v a).2).1 (vertex v a).1.seeds
      (view limit (vertex v a).2).2 = ((ys.flatMap (·.kept), []), b) := by
    show addRounds process v (limit a) (a.vertex v).seeds a = _
    rw [hrounds, Nat.zero_add]
    exact hround rounds
  rw [hrun]
  rfl

/-- A vertex whose only seed is a type name takes the type. -/
theorem unifySeeds_of_type {name : String} {t : Constraint}
    (hname : a.lookupName name s = .ok (.val (.constraint t)))
    (hlt : v < a.vertices.size) {stage : Stage}
    (hv : a.vertex v = { Vertex.fresh none [] [.of (.ident name) s false] with stage := stage })
    (ht : (Val.top.meet (.constraint t)).isBottom = false) :
    unifySeeds process v a = ((), a.modify v (·.meet (.constraint t))) := by
  let c : Conjunct := .of (.ident name) s false
  let b := a.modify v (·.meet (.constraint t))
  have hb : b.vertex v = (a.vertex v).meet (.constraint t) := vertex_modify _ hlt
  have hseeds : (a.vertex v).seeds = [c] := by rw [hv]; rfl
  have hresolve :
      (resolve process c.scope (.ident name)).run a = (.ok (.val (.constraint t)), a) := by
    show (resolveName name s).run a = _
    rw [resolveName, Attempt.run_bind, Attempt.run_perform]
    show (Attempt.ofExcept (a.lookupName name s)).run a = _
    rw [hname]
    rfl
  have hround : (a.vertex v).seeds.mapM (addConjunct process v) a = ([.keep c], b) := by
    rw [hseeds, run_mapM_cons]
    have hc : addConjunct process v c a = (.keep c, b) := addReference_of_val hresolve
    rw [hc]
    rfl
  rw [unifySeeds_of_round hround rfl rfl, finish_of_lists_eq_nil, applyPatterns_of_eq_nil]
  · refine checkClosed_of_eq_nil ?_
    rw [hb, hv]; rfl
  · rw [hb, hv]; rfl
  · rw [hb, hv]; exact ht
  · rw [hb, hv]; rfl
  · have hpaths : (b.vertex v).paths = [] := by rw [hb, hv]; rfl
    simp [hpaths, fillSelectors, List.flatMap_eq_nil_iff.mpr]

/-- The label `string` admits every name, and its evaluation leaves one more vertex. -/
theorem labelMatches_string (left : Nat) (h : a.Outside stringLabel s)
    (hroot : a.Rootless stringLabel) (text : String) : ∃ y : Vertex,
      labelMatches (processAt (left + 1)) (.ident "string") s text a = (true, (a.add y).2) := by
  let q := a.vertices.size
  let below : Arena := { a with depth := a.depth + 1 }
  let x : Vertex := .fresh none [] [.of (.ident "string") s false]
  let x' : Vertex := { x with stage := .processing }
  let y : Vertex := { x' with val := .constraint stringType }
  let z : Vertex := { y with stage := .done }
  have hx : (a.add x).2.vertex q = x := vertex_add a x
  have hstart : ({ (a.add x).2 with depth := (a.add x).2.depth + 1 } : Arena).modify q
      ({ · with stage := .processing }) = (below.add x').2 := modify_add below x _
  have hquiet : Quiet a (below.add x').2 :=
    Lasting.trans (⟨grown_of_eq none rfl rfl, rfl, fun _ _ => id⟩ : Quiet a below)
      (quiet_add below x')
  have hname : (below.add x').2.lookupName "string" s = .ok (.val (.constraint stringType)) :=
    lookupName_of_outside (h.grown hquiet.grown) (hroot.grown hquiet.grown nofun) rfl
  have hlt : q < (below.add x').2.vertices.size := by
    rw [size_add]
    exact Nat.lt_succ_self _
  have hunify : unifySeeds (processAt left) q (below.add x').2 = ((), (below.add y).2) := by
    have hx' : (below.add x').2.vertex q = { x with stage := .processing } := vertex_add below x'
    rw [unifySeeds_of_type hname hlt hx' rfl]
    exact congrArg (Prod.mk ()) (modify_add below x' (·.meet (.constraint stringType)))
  have hprocess : processAt (left + 1) q (a.add x).2 = ((), (a.add z).2) := by
    have hend : (below.add y).2.modify q ({ · with stage := .done }) = (below.add z).2 :=
      modify_add below y _
    rw [run_processAt left (by rw [hx]; rfl), hstart]
    dsimp only
    rw [hunify, hend]
    rfl
  have hz : (a.add z).2.vertex q = z := vertex_add a z
  have hsettle : settle (processAt (left + 1)) q (a.add x).2 = (q, (a.add z).2) := by
    rw [settle, run_bind, hprocess]
    exact Prod.ext (follow_of_forward_eq_none (by rw [hz]; rfl)) rfl
  refine ⟨z, ?_⟩
  show admits (processAt (left + 1)) (.str text) (maxDepth + 1) q (a.add x).2 = _
  rw [admits, run_bind, hsettle]
  show (if ((a.add z).2.vertex q).disjuncts.isEmpty then
    return !(((a.add z).2.vertex q).val.meet (.atom (.str text))).isBottom else _ : Eval Bool)
      (a.add z).2 = _
  rw [hz]
  rfl

end Eval

end SchemaMock
