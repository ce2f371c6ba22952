import SchemaMock.Proofs.Echo.Site

/-! # Deciding between one overload and several

The vertex of a function takes the structs of its declaration and of the definition. The pattern
adds that it may be one overload or a list of them. Both are tried: the list contradicts the
structs, and the single overload stays unless something is wrong with it.
-/

namespace SchemaMock

open Arena Eval

namespace Site

variable {s : Site} {a b : Arena} {v w : Nat}

variable (s) in
/-- The declaration of the function: `#MockFunction & {...}`. -/
def declaration : Conjunct :=
  .of (.binary .unify (.ident Echo.definitionName)
    (.struct ((Echo.fields s.conditions).map Decl.required))) s.declared false

variable (s) in
def overloads : Conjunct := .of (.list [] (some (.ident Echo.definitionName))) s.pattern false

variable (s) in
def seeds : List Conjunct := [s.declaration, .of Mock.functionOrOverloads s.pattern false]

variable (s) in
def alternatives : List Alternative := [⟨s.reference, false⟩, ⟨s.overloads, false⟩]

variable (s) in
/-- The parts of the declaration: the definition as it is referred to, and the function's own
struct. -/
def named : Conjunct := .of (.ident Echo.definitionName) s.declared false

variable (s) in
def ownPart : StructPart := ⟨Echo.fields s.conditions, s.declared, false⟩

variable (s) in
def own : Conjunct := .of (.struct s.ownPart.decls) s.declared false

variable (s) in
def shapePart : StructPart := ⟨Echo.shape, s.outer, true⟩

variable (s) in
/-- The struct of the definition as it reaches the function. -/
def shape : Conjunct := .of (.struct s.shapePart.decls) s.outer true

variable {paths : List Path}

/-- The reference takes what the definition begins with, and its paths. -/
theorem exists_named (process : Nat → Eval Unit) (h : s.Stands a) (hlt : v < a.vertices.size)
    (hne : s.definition ≠ v)
    (hv : a.vertex v = { Vertex.fresh (some s.parent) paths s.seeds with stage := .processing }) :
    ∃ b, addConjunct process v s.named a = (⟨[s.shape], [], []⟩, b) ∧ Intact (· = v) a b ∧
      b.vertices.size = a.vertices.size ∧ b.vertex v = { a.vertex v with
        paths := paths ++ a.furtherPaths v [s.path], copied := [s.definition] } := by
  let g (x : Vertex) : Vertex :=
    { x with copied := x.copied ++ [s.definition], paths := x.paths ++ a.furtherPaths v [s.path] }
  have hresolve : (resolve process s.declared (.ident Echo.definitionName)).run a =
      (.ok (.vertex s.definition), a) := by
    show (Attempt.ofExcept (a.lookupName Echo.definitionName s.declared)).run a = _
    rw [h.declared.lookupName]
    rfl
  have hcopy := run_copyTarget (a := a) (v := v) s.named (t := s.definition)
    (by rw [hv]; exact List.not_mem_nil) hlt (by rw [hv]; rfl) hne
  have hthrough : (a.vertex s.definition).seeds.map (s.named.through (a.vertex s.definition)) =
      [s.shape] := by
    have hhidden :
        ((a.vertex s.definition).paths.head?.map Path.hasDefinition).getD false = true := by
      rw [h.paths]
      exact s.hidden
    rw [h.seeds, List.map_singleton]
    simp only [Conjunct.through, hhidden]
    rfl
  have hadd : addConjunct process v s.named a = (⟨[s.shape], [], []⟩, a.modify v g) := by
    rw [addConjunct_of_expr (x := .ident Echo.definitionName) rfl]
    show addReference process v (.ident Echo.definitionName) s.named a = _
    rw [addReference_of_target hresolve hne h.forward (by rw [hv]; rfl)
      (by rw [hv]; exact h.apart _ (.inl rfl)), hcopy, hthrough, h.paths]
  refine ⟨a.modify v g, hadd, intact_modify_self a v g, size_modify a v g, ?_⟩
  rw [vertex_modify g hlt, hv]
  rfl

/-- The rounds of the vertex of a function end with its two structs. -/
theorem exists_rounds (process : Nat → Eval Unit) (h : s.Stands a)
    (hlt : v < a.vertices.size) (hne : s.definition ≠ v)
    (hv : a.vertex v = { Vertex.fresh (some s.parent) paths s.seeds with stage := .processing }) :
    ∃ d, addRounds process v (roundLimit a) s.seeds a = ((s.structs, [s.alternatives]), d) ∧
      Intact (· = v) a d ∧ d.vertex v = { a.vertex v with
        paths := paths ++ a.furtherPaths v [s.path], copied := [s.definition]
        val := .ofKinds .ofStruct, arcs := (d.vertex v).arcs, groups := (d.vertex v).groups } := by
  obtain ⟨b, hnamed, hab, hsize, hb⟩ := exists_named process h hlt hne hv
  have hltb : v < b.vertices.size := hsize ▸ hlt
  have hempty : b.gather v [] = b := gather_nil (by rw [hb, hv]; rfl)
  let t := Table.declareAll [] b.scopes.size false s.ownPart.fields
  let c := (b.takeStruct v s.ownPart).gather v t
  let e := (b.takeStruct v s.ownPart).takeStruct v s.shapePart
  let d := e.gather v (t.declareAll (b.takeStruct v s.ownPart).scopes.size true s.shapePart.fields)
  -- what each round makes of the conjuncts that are left
  have hfirst : s.seeds.mapM (addConjunct process v) a =
      ([⟨[s.named, s.own], [], []⟩, ⟨[], [], [s.alternatives]⟩], a) := rfl
  have hsecond : [s.named, s.own].mapM (addConjunct process v) a =
      ([⟨[s.shape], [], []⟩, .keep s.own], c) := by
    have hown := addConjunct_part process (c := s.own) (p := s.ownPart) ⟨rfl, rfl, rfl, rfl⟩ hltb
      (t := []) List.nodup_nil
    rw [hempty] at hown
    rw [run_mapM_cons, hnamed]
    dsimp only
    rw [run_mapM_cons, hown]
    rfl
  have hthird : [s.shape].mapM (addConjunct process v) c = ([.keep s.shape], d) := by
    have hshape := addConjunct_part process (c := s.shape) (p := s.shapePart) ⟨rfl, rfl, rfl, rfl⟩
      (a := b.takeStruct v s.ownPart) (by simpa using hltb) (t := t)
      (Table.nodup_declareAll (t := []) List.nodup_nil _ _ _)
    rw [run_mapM_cons, hshape]
    rfl
  obtain ⟨rounds, hr⟩ : ∃ rounds, roundLimit a = rounds + 1 + 1 + 1 := by
    obtain ⟨rounds, hr, hle⟩ := exists_rounds_left a
    have hmany : 2 ≤ rounds := Nat.le_trans (by decide) hle
    exact ⟨rounds - 2, by omega⟩
  have hrounds :
      addRounds process v (roundLimit a) s.seeds a = ((s.structs, [s.alternatives]), d) := by
    rw [hr]
    exact addRounds_of_mapM hfirst rfl rfl rfl (addRounds_of_mapM hsecond rfl rfl rfl
      (addRounds_of_mapM hthird rfl rfl rfl (addRounds_nil rounds)))
  have hbd : Intact (· = v) b d :=
    ((intact_takeStruct b v _).trans (intact_takeStruct _ v _)).trans (intact_gather e v _)
  have he : e.vertex v = ((b.vertex v).asStruct false s.ownPart.labels).asStruct true
      s.shapePart.labels :=
    (vertex_takeStruct _ (by simpa using hltb)).trans
      (congrArg (Vertex.asStruct true s.shapePart.labels) (vertex_takeStruct _ hltb))
  have hd : d.vertex v = _ :=
    vertex_gather_self _ (show v < e.vertices.size by simpa [e] using hltb)
  rw [he, hb, hv] at hd
  exact ⟨d, hrounds, hab.trans hbd, by rw [hd, hv]; rfl⟩

end Site

end SchemaMock
