import SchemaMock.Proofs.Echo.Settling

/-! # The struct of the functions

The functions are the fields of a struct that has a pattern for every name. A field that is declared
there gets the value of the pattern as a further seed.
-/

namespace SchemaMock

open Arena Eval

namespace Vertex

def asPatterned (p : Pattern) (x : Vertex) : Vertex :=
  { x with val := x.val.meet (.ofKinds .ofStruct), patterns := x.patterns ++ [p] }

end Vertex

namespace Eval

variable {process : Nat → Eval Unit} {a : Arena} {v w : Nat} {c d : Conjunct} {label value x : Expr}
  {name : String}

/-- A struct that is one pattern. -/
theorem addConjunct_pattern (hc : c.source = .expr (.struct [.pattern label value]))
    (hclosed : c.closed = false) : addConjunct process v c a = (.keep c,
      (a.addScope (.struct c.scope [.pattern label value] v)).2.modify v
        (·.asPatterned ⟨label, value, a.scopes.size, false⟩)) := by
  let e := (a.addScope (.struct c.scope [.pattern label value] v)).2
  let b := e.modify v (·.meet (.ofKinds .ofStruct))
  have hrun : addConjunct process v c a =
      (let g := openGroup v c b
       let r := [Decl.pattern label value].mapM (addDecl v c a.scopes.size g.1) g.2
       (Yield.mk r.1.flatten [c] [], r.2)) := by
    rw [addConjunct_of_expr hc]
    rfl
  have hdecl : addDecl v c a.scopes.size none (.pattern label value) b = ([], e.modify v
      (·.asPatterned ⟨label, value, a.scopes.size, false⟩)) := by
    show ([], b.modify v fun x =>
      { x with patterns := x.patterns ++ [⟨label, value, a.scopes.size, c.closed⟩] }) = _
    rw [hclosed, modify_modify]
    rfl
  rw [hrun, openGroup_of_not_closed hclosed]
  dsimp only
  rw [run_mapM_cons, hdecl]
  rfl

/-- The pattern for every name is applied to the only field. -/
theorem applyPatterns_single (left : Nat) {s : Nat}
    (hpatterns : (a.vertex v).patterns = [⟨.ident "string", value, s, false⟩])
    (harcs : (a.vertex v).regularArcs = [(name, w)]) (houtside : a.Outside stringLabel s)
    (hroot : a.Rootless stringLabel) : ∃ y : Vertex,
      applyPatterns (processAt (left + 1)) v a =
        ((), ((a.append [y]).modify w fun x => { x with seeds := x.seeds ++ [.of value s false] })) := by
  obtain ⟨y, hmatches⟩ := labelMatches_string left houtside hroot name
  refine ⟨y, ?_⟩
  rw [add_eq_append] at hmatches
  have hrun : applyPatterns (processAt (left + 1)) v a =
      (let r := labelMatches (processAt (left + 1)) (.ident "string") s name a
       ((if r.1 then addSeed w (.of value s false) else pure ()) r.2)) := by
    show (if !(a.vertex v).patterns.isEmpty then _ else _ : Eval Unit) a = _
    rw [hpatterns, harcs]
    rfl
  rw [hrun, hmatches]
  rfl

/-- A vertex with a pattern for every name and one field. -/
structure Listing (a : Arena) (v : Nat) (paths : List Path) (c d : Conjunct) (name : String)
    (x value : Expr) : Prop where
  lt : v < a.vertices.size
  fresh : ∃ parent, a.vertex v = .fresh parent paths [c, d]
  pattern : c = .of (.struct [.pattern (.ident "string") value]) c.scope false
  field : d = .of (.struct [Decl.required (.regular name, x)]) d.scope false
  scope : c.scope < a.scopes.size
  outside : a.Outside stringLabel c.scope
  root : a.Rootless stringLabel
  fills : ∀ s ∈ a.fillSelectors paths, s = .label (.regular name)
  bare : a.fillsAt (paths.map (·.child (.label (.regular name)))) = []

/-- Since `a` the vertex has become a struct with the field, which has the value of the pattern as
its second seed. -/
structure Listed (a b : Arena) (v : Nat) (paths : List Path) (c d : Conjunct) (name : String)
    (x value : Expr) : Prop where
  size : b.vertices.size = a.vertices.size + 2
  pattern : b.scope a.scopes.size = .struct c.scope [.pattern (.ident "string") value] v
  field : b.scope (a.scopes.size + 1) = .struct d.scope [Decl.required (.regular name, x)] v
  scopes : b.scopes.size = a.scopes.size + 2
  self : b.vertex v = { a.vertex v with
    stage := .done
    val := .ofKinds .ofStruct
    arcs := [(.regular name, ⟨a.vertices.size, true⟩)]
    patterns := [⟨.ident "string", value, a.scopes.size, false⟩] }
  part : b.vertex a.vertices.size = .fresh (some v) (paths.map (·.child (.label (.regular name))))
    [.of x (a.scopes.size + 1) false, .of value a.scopes.size false]

/-- The rounds of the vertex end with the pattern noted and the field laid out. -/
theorem Listing.exists_gathered (process : Nat → Eval Unit) {paths : List Path}
    (h : Listing a v paths c d name x value) :
    let s := a.begin v
    ∃ b, addRounds process v (roundLimit s) (s.vertex v).seeds s = (([c, d], []), b) ∧
      Intact (· = v) a b ∧
      b.vertices.size = a.vertices.size + 1 ∧ b.scopes.size = a.scopes.size + 2 ∧
      b.scope a.scopes.size = .struct c.scope [.pattern (.ident "string") value] v ∧
      b.scope (a.scopes.size + 1) = .struct d.scope [Decl.required (.regular name, x)] v ∧
      b.vertex v = { a.vertex v with
        stage := .processing
        val := .ofKinds .ofStruct
        arcs := [(.regular name, ⟨a.vertices.size, true⟩)]
        patterns := [⟨.ident "string", value, a.scopes.size, false⟩] } ∧
      b.vertex a.vertices.size = .fresh (some v) (paths.map (·.child (.label (.regular name))))
        [.of x (a.scopes.size + 1) false] := by
  intro s
  obtain ⟨parent, hv⟩ := h.fresh
  let field : Label × Expr := (.regular name, x)
  let n := a.scopes.size
  let p : Pattern := ⟨.ident "string", value, n, false⟩
  let t : Table := [(field.1, [.of x (n + 1) false])]
  have hlt : v < s.vertices.size := by simpa [s] using h.lt
  have hstart : s.vertex v = { a.vertex v with stage := .processing } := vertex_begin h.lt
  let patternScope : Scope := .struct c.scope [.pattern (.ident "string") value] v
  let fieldScope : Scope := .struct d.scope [Decl.required field] v
  let b := (s.addScope patternScope).2.modify v (·.asPatterned p)
  have hltb : v < b.vertices.size := by simpa [b] using hlt
  have hb : b.vertex v = (s.vertex v).asPatterned p := vertex_modify _ hlt
  let e := (b.addScope fieldScope).2.modify v (·.asStruct false [field.1])
  have hlte : v < e.vertices.size := by simpa [e] using hltb
  have he : e.vertex v = (b.vertex v).asStruct false [field.1] := vertex_modify _ hltb
  have hsize : e.vertices.size = a.vertices.size := by simp [e, b, s]
  have hae : Intact (· = v) a e :=
    ((((intact_begin a v).trans (intact_addScope _ s _)).trans (intact_modify_self _ v _)).trans
      (intact_addScope _ b _)).trans (intact_modify_self _ v _)
  have hempty : b.gather v [] = b := gather_nil (by rw [hb, hstart, hv]; rfl)
  have hfield : addConjunct process v d b = (.keep d, e.gather v t) := by
    have hsource : d.source = .expr (.struct ([field].map Decl.required)) := by rw [h.field]; rfl
    have hadd := addConjunct_struct process hsource (by rw [h.field]; rfl) hltb (t := [])
      List.nodup_nil
    have htable : Table.declareAll [] b.scopes.size false [field] = t := by
      rw [show b.scopes.size = n + 1 from Array.size_push _]
      rfl
    rw [hempty, show d.closed = false by rw [h.field]; rfl, htable] at hadd
    exact hadd
  have hround : [c, d].mapM (addConjunct process v) s = ([.keep c, .keep d], e.gather v t) := by
    have hpattern : addConjunct process v c s = (.keep c, b) :=
      addConjunct_pattern (by rw [h.pattern]; rfl) (by rw [h.pattern]; rfl)
    rw [run_mapM_cons, hpattern]
    dsimp only
    rw [run_mapM_cons, hfield]
    rfl
  have hseeds : (s.vertex v).seeds = [c, d] := by rw [hstart, hv]; rfl
  obtain ⟨rounds, hr⟩ : ∃ rounds, roundLimit s = rounds + 1 :=
    Nat.exists_eq_add_one.mpr (Nat.mul_pos (by decide) (Nat.succ_pos _))
  have hcount : (a.addScope patternScope).2.scopes.size = a.scopes.size + 1 := Array.size_push _
  have hscope (i : Nat) : (e.gather v t).scope i =
      ((a.addScope patternScope).2.addScope fieldScope).2.scope i := rfl
  refine ⟨e.gather v t, ?_, hae.trans (intact_gather e v t), ?_, ?_, ?_, ?_, ?_, ?_⟩
  · rw [hr, hseeds]
    exact addRounds_of_mapM hround rfl rfl rfl (addRounds_nil rounds)
  · simp [hsize, t]
  · show ((a.scopes.push patternScope).push fieldScope).size = _
    rw [Array.size_push, Array.size_push]
  · rw [hscope, scope_addScope_of_lt _ (hcount ▸ Nat.lt_succ_self _), scope_addScope]
  · rw [hscope, ← hcount, scope_addScope]
  · rw [show (e.gather v t).vertex v = _ from vertex_gather_self t hlte, he, hb, hstart, hv, hsize]
    rfl
  · have hpart := vertex_gather_part (t := t) hlte Nat.one_pos
    rw [hsize] at hpart
    rw [show (e.gather v t).vertex a.vertices.size = _ from hpart, partVertex, hae.fillsAt, he,
      hb, hstart, hv]
    refine congrArg (Vertex.fresh (some v) _) ?_
    show a.fillsAt (paths.map (·.child (.label (.regular name)))) ++ _ = _
    rw [h.bare]
    rfl

/-- The last step of a struct with one required field and a pattern for every name. -/
theorem finish_of_pattern (left : Nat) {s : Nat} (hval : (a.vertex v).val = .ofKinds .ofStruct)
    (hlists : (a.vertex v).lists = []) (hgroups : (a.vertex v).groups = [])
    (harcs : (a.vertex v).arcs = [(.regular name, ⟨w, true⟩)]) (hne : v ≠ w)
    (hlt : v < a.vertices.size) (hpatterns : (a.vertex v).patterns = [⟨.ident "string", value, s, false⟩])
    (hfills : ∀ x ∈ a.fillSelectors (a.vertex v).paths, x = .label (.regular name))
    (houtside : a.Outside stringLabel s) (hroot : a.Rootless stringLabel) : ∃ y : Vertex,
      finish (processAt (left + 1)) v a =
        ((), ((a.append [y]).modify w fun x => { x with seeds := x.seeds ++ [.of value s false] })) := by
  have hregular : (a.vertex v).regularArcs = [(name, w)] := by
    rw [Vertex.regularArcs, harcs]
    rfl
  obtain ⟨y, happly⟩ := applyPatterns_single left hpatterns hregular houtside hroot
  refine ⟨y, ?_⟩
  have hbuild : buildList v a = ((), a) := by
    show (if !(a.vertex v).lists.isEmpty then _ else _ : Eval Unit) a = _
    rw [hlists]
    rfl
  have hrequire : requireFilledParts v a = ((), a) := by
    refine requireFilledParts_of_fields hval ?_ fun x hx => ⟨.regular name, ⟨w, true⟩,
      hfills x hx, ?_⟩
    · rw [harcs]
      exact List.forall_mem_singleton.mpr rfl
    · rw [Vertex.arc?, harcs]
      simp
  show (if !(a.vertex v).val.isBottom then _ else _ : Eval Unit) a = _
  rw [hval, if_pos (by decide), run_bind, hbuild, run_bind, hrequire, run_bind, happly]
  refine checkClosed_of_eq_nil ?_
  rw [vertex_modify_of_ne _ _ hne, vertex_append_of_lt _ hlt]
  exact hgroups

/-- Processing the struct of the functions lists the function. -/
theorem Listing.exists_listed (left : Nat) {paths : List Path}
    (h : Listing a v paths c d name x value) :
    ∃ b, processAt (left + 2) v a = ((), b) ∧ Extends (· = v) a b ∧
      Listed a b v paths c d name x value := by
  obtain ⟨g, hrounds, hag, hsize, hscopes, hinner, hfield, hg, hpart⟩ :=
    h.exists_gathered (processAt (left + 1))
  obtain ⟨parent, hv⟩ := h.fresh
  have hs : (a.vertex v).stage = .pending := by rw [hv]; rfl
  have hlt := h.lt
  have hltg : v < g.vertices.size := Nat.lt_of_lt_of_le hlt hag.size
  have hag' : Extends (· = v) a g := hag.extends_self (by rw [hs]; decide)
  have hpaths : (g.vertex v).paths = paths := by rw [hg, hv]; rfl
  have harcs : (g.vertex v).arcs = [(.regular name, ⟨a.vertices.size, true⟩)] := by rw [hg]
  have hpatterns : (g.vertex v).patterns = [⟨.ident "string", value, a.scopes.size, false⟩] := by
    rw [hg]
  obtain ⟨y, hfinish⟩ :=
    finish_of_pattern left (by rw [hg]) (by rw [hg, hv]; rfl) (by rw [hg, hv]; rfl) harcs
    (Nat.ne_of_lt hlt) hltg hpatterns (by rw [hpaths, hag.fillSelectors]; exact h.fills)
    (.within (by omega) hinner rfl h.scope (h.outside.intact hag))
    (h.root.intact hag' Extends.not_done)
  let f (x : Vertex) : Vertex := { x with seeds := x.seeds ++ [.of value a.scopes.size false] }
  let e := (g.append [y]).modify a.vertices.size f
  have hrun : processAt (left + 2) v a = ((), e.conclude v) :=
    processAt_of_unifySeeds hs ((unifySeeds_of_addRounds hrounds).trans hfinish)
  have hge : Intact (· = a.vertices.size) g e :=
    (intact_append _ g _).trans (intact_modify_self _ _ _)
  have hev : e.vertex v = g.vertex v := hge.vertex hltg (Nat.ne_of_lt hlt)
  have hlast : (e.conclude v).vertex v = { e.vertex v with stage := .done } :=
    vertex_conclude (Nat.lt_of_lt_of_le hltg hge.size)
  have hend := intact_conclude e v
  have hsizes : e.vertices.size = a.vertices.size + 2 := by simp [e, hsize]
  refine ⟨e.conclude v, hrun, ?_, ⟨?_, hinner, hfield, hscopes, ?_, ?_⟩⟩
  · refine ((hag.trans_new (Intact.mono hge fun u _ hu => hu.ge)).trans hend).extends_self ?_
    rw [hs]
    decide
  · rw [size_conclude, hsizes]
  · rw [hlast, hev, hg]
  · have hself : e.vertex a.vertices.size = f (g.vertex a.vertices.size) := by
      rw [show e.vertex a.vertices.size = _ from vertex_modify f (by simp; omega),
        vertex_append_of_lt _ (by omega)]
    rw [hend.vertex (by omega) (Nat.ne_of_gt hlt), hself, hpart]
    rfl

end Eval

end SchemaMock
