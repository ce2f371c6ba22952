import SchemaMock.Proofs.Echo.Function

/-! # Where a function is declared

A function is declared in the scope of its file and in that of the built-in schema, whose definition
it refers to. The structs of both make up the function.
-/

namespace SchemaMock

open Arena Eval

namespace Echo

/-- Functions declare no types. -/
theorem label_notMem_of_ofTypeName? {name : String}
    (h : (Constraint.ofTypeName? name).isSome = true) :
    Label.ofIdent name.toList ∉ [argsLabel, returnsLabel, limitLabel] := by
  unfold Constraint.ofTypeName? at h
  split at h
  all_goals first | decide | exact absurd h Bool.false_ne_true

/-- Type names stand for types within a function too. -/
theorem clear_within {a : Arena} {p s v : Nat} {t : Condition} {ds : List (Label × Expr)}
    (h : a.Clear p t) (hs : s < a.scopes.size) (hp : p < s)
    (hscope : a.scope s = .struct p (ds.map Decl.required) v)
    (hds : ∀ l ∈ ds.map (·.1), l ∈ [argsLabel, returnsLabel, limitLabel]) : a.Clear s t := by
  refine h.within hs hscope hp fun name hn => Decl.any_declares_required ds fun hl => ?_
  exact label_notMem_of_ofTypeName? (Condition.isSome_of_mem_names hn) (hds _ hl)

/-- What is filled in at the arguments, seen from the paths of a function. -/
structure Fed (a : Arena) (paths : List Path) (length : Nat) (args : List Json) : Prop where
  labels : ∀ s ∈ a.fillSelectors paths, s = .label argsLabel
  parts : ∀ l, a.fillsAt (paths.map (·.child (.label l))) = []
  indices : ∀ s ∈ a.fillSelectors (paths.map (·.child (.label argsLabel))),
    ∃ i < length, s = .index i
  supplied : ∀ i < length,
    Supplied a ((paths.map (·.child (.label argsLabel))).map (·.child (.index i))) args[i]?
  ends : ∀ i < length,
    a.hasFillsBelow ((paths.map (·.child (.label argsLabel))).map (·.child (.index i))) = false
  apart : ∀ l, l ≠ argsLabel → a.hasFillsBelow (paths.map (·.child (.label l))) = false

theorem Fed.intact {a b : Arena} {own : Nat → Prop} {paths : List Path} {length : Nat}
    {args : List Json} (h : Fed a paths length args) (hi : Intact own a b) :
    Fed b paths length args where
  labels := by
    rw [hi.fillSelectors]
    exact h.labels
  parts l := (hi.fillsAt _).trans (h.parts l)
  indices := by
    rw [hi.fillSelectors]
    exact h.indices
  supplied i hn := (h.supplied i hn).intact hi
  ends i hn := (hi.hasFillsBelow _).trans (h.ends i hn)
  apart l hl := (hi.hasFillsBelow _).trans (h.apart l hl)

def definitionName : String := "#MockFunction"
def definitionLabel : Label := .definition "MockFunction"

end Echo

structure Site where
  conditions : List Condition
  heights : ∀ t ∈ conditions, t.height ≤ maxDepth
  /-- The vertex that the function is a field of. -/
  parent : Nat
  /-- The scope of the declaration, and that of the pattern for functions. -/
  declared : Nat
  pattern : Nat
  /-- The vertex of the definition, and the scope of its declaration. -/
  definition : Nat
  outer : Nat
  path : Path
  hidden : path.hasDefinition = true

namespace Site

variable (s : Site)

def structs : List Conjunct :=
  [.of (.struct ((Echo.fields s.conditions).map Decl.required)) s.declared false,
    .of (.struct Mock.functionShape) s.outer true]

def reference : Conjunct := .of (.ident Echo.definitionName) s.pattern false

structure Stands (a : Arena) : Prop where
  declared : a.Refers Echo.definitionLabel s.declared s.definition
  pattern : a.Refers Echo.definitionLabel s.pattern s.definition
  lt : s.definition < a.vertices.size
  forward : (a.vertex s.definition).forward = none
  paths : (a.vertex s.definition).paths = [s.path]
  seeds : (a.vertex s.definition).seeds = [.of (.struct Mock.functionShape) s.outer false]
  apart : ∀ t, t = s.definition ∨ s.parent < t → a.Apart t (some s.parent)
  clear : ∀ t ∈ s.conditions, a.Clear s.declared t
  count : a.Clear s.outer Echo.countType

variable {s} {a b : Arena} {own : Nat → Prop}

theorem Stands.extends (h : s.Stands a) (hi : Extends own a b) (hown : ¬ own s.definition) :
    s.Stands b := by
  have hsame : b.vertex s.definition = a.vertex s.definition :=
    Intact.vertex hi h.lt fun ho => hown ho.1
  exact {
    declared := h.declared.intact hi Extends.not_done
    pattern := h.pattern.intact hi Extends.not_done
    lt := Nat.lt_of_lt_of_le h.lt hi.size
    forward := by rw [hsame]; exact h.forward
    paths := by rw [hsame]; exact h.paths
    seeds := by rw [hsame]; exact h.seeds
    apart := fun t ht => (h.apart t ht).intact hi Extends.not_done
    clear := fun t ht => (h.clear t ht).intact hi Extends.not_done
    count := h.count.intact hi Extends.not_done }

/-- The reference of the pattern adds nothing where the definition has been copied already. -/
theorem addConjunct_reference (process : Nat → Eval Unit) {w : Nat} (h : s.Stands a)
    (hne : s.definition ≠ w) (hforward : (a.vertex w).forward = none)
    (hparent : (a.vertex w).parent = some s.parent) (hcopied : s.definition ∈ (a.vertex w).copied) :
    addConjunct process w s.reference a = (.nothing, a) := by
  have hresolve : (resolve process s.pattern (.ident Echo.definitionName)).run a =
      (.ok (.vertex s.definition), a) := by
    show (Attempt.ofExcept (a.lookupName Echo.definitionName s.pattern)).run a = _
    rw [h.pattern.lookupName]
    rfl
  rw [addConjunct_of_expr (x := .ident Echo.definitionName) rfl]
  show addReference process w (.ident Echo.definitionName) s.reference a = _
  rw [addReference_of_target hresolve hne h.forward hforward (by rw [hparent]; exact h.apart _ (.inl rfl)),
    copyTarget_of_copied hcopied]
  rfl

def parts (s : Site) : List StructPart :=
  [⟨Echo.fields s.conditions, s.declared, false⟩, ⟨Echo.shape, s.outer, true⟩]

/-- The fields of a function, whose scopes are numbered from `n` on. -/
def table (s : Site) (n : Nat) : Table :=
  let ts := s.conditions
  [(Echo.argsLabel, [.of (.list (ts.map (·.toExpr)) none) n false, .of Mock.anyList (n + 1) true]),
    (Echo.returnsLabel, [.of (.list ((List.range ts.length).map Echo.argument) none) n false,
      .of Mock.anyList (n + 1) true]),
    (Echo.limitLabel, [.of Echo.limitExpr (n + 1) true])]

theorem table_eq (s : Site) (n : Nat) : s.table n = Table.declareParts [] n s.parts := rfl

def echo (s : Site) (args : List Json) (a : Arena) (w : Nat)
    (visible : ((a.vertex w).paths.head?.map Path.hasDefinition).getD false = false) : Echo where
  conditions := s.conditions
  args := args
  vertex := w
  first := a.vertices.size
  scope := a.scopes.size
  paths := (a.vertex w).paths
  visible := visible
  heights := s.heights

/-- A stand-in for the vertex of a function, which keeps in mind that it has copied the
definition. -/
def standIn (s : Site) (paths : List Path) (seeds : List Conjunct) : Vertex :=
  { Vertex.fresh (some s.parent) paths seeds with copied := [s.definition] }

section Formed

variable {w : Nat} {paths : List Path} {args : List Json}

/-- The turn of a vertex of the structs of a function, and of the reference that they come from. -/
theorem exists_assembled (left : Nat) (h : s.Stands a) (hlt : w < a.vertices.size)
    (hne : s.definition ≠ w) (hw : a.vertex w = s.standIn paths (s.structs ++ [s.reference]))
    (hfed : Echo.Fed a paths s.conditions.length args) :
    ∃ b, processAt (left + 1) w a = ((), b) ∧ Assembled a b w s.parts (s.table a.scopes.size) := by
  have hs : (a.vertex w).stage ≠ .done := by rw [hw]; exact Stage.noConfusion
  refine Eval.exists_assembled left hlt hw (.cons ⟨rfl, rfl, rfl, rfl⟩ (.cons ⟨rfl, rfl, rfl, rfl⟩ .nil))
    (List.cons_ne_nil _ _) (fun c hc b hab hbp hbc hbf => ?_) (s.table_eq _)
    (fun x hx => ⟨Echo.argsLabel, List.mem_cons_self, hfed.labels x hx⟩)
    (fun p hp hclosed name hname => ?_)
  · obtain rfl := List.mem_singleton.mp hc
    have hcopied : s.definition ∈ (b.vertex w).copied := by
      rw [hbc]
      exact List.mem_singleton_self _
    exact addConjunct_reference _ (h.extends (hab.extends_self hs) hne) hne hbf hbp hcopied
  · have hlabels : .regular name ∈ [Echo.argsLabel, Echo.returnsLabel, Echo.limitLabel] := hname
    rcases List.mem_cons.mp hp with rfl | hp
    · cases hclosed
    · obtain rfl := List.mem_singleton.mp hp
      have hsame : ∀ l ∈ [Echo.argsLabel, Echo.returnsLabel, Echo.limitLabel],
        l ∈ [Echo.argsLabel, Echo.limitLabel, Echo.returnsLabel] := by decide
      exact hsame _ hlabels

variable {visible : ((a.vertex w).paths.head?.map Path.hasDefinition).getD false = false}

/-- The scopes of the function, and what is filled in at it. -/
theorem stands_echo (h : s.Stands a) (hparent : s.parent < w) (hlt : w < a.vertices.size)
    (hne : s.definition ≠ w) (hw : a.vertex w = s.standIn paths (s.structs ++ [s.reference]))
    (hfed : Echo.Fed a paths s.conditions.length args)
    (hb : Assembled a b w s.parts (s.table a.scopes.size)) :
    (s.echo args a w visible).Stands b := by
  have hs : (a.vertex w).stage ≠ .done := by rw [hw]; exact Stage.noConfusion
  have hab : Extends (· = w) a b := hb.intact.extends_self hs
  have hstands := h.extends hab hne
  have hself := hb.self
  have hstage : (b.vertex w).stage = .done := by rw [hself]
  have hforward : (b.vertex w).forward = none := by rw [hself, hw]; rfl
  have hscopes : b.scopes.size = a.scopes.size + 2 := hb.scopes
  have hfirst :
      b.scope a.scopes.size = .struct s.declared ((Echo.fields s.conditions).map Decl.required) w :=
    hb.scope (i := 0) Nat.zero_lt_two
  have hsecond : b.scope (a.scopes.size + 1) = .struct s.outer (Echo.shape.map Decl.required) w :=
    hb.scope (i := 1) Nat.one_lt_two
  have harc : (b.vertex w).arc? Echo.argsLabel = some ⟨a.vertices.size, true⟩ := by
    rw [hself]
    rfl
  have hpaths : (a.vertex w).paths = paths := by rw [hw]; rfl
  have hfedb := hfed.intact hab
  rw [← hpaths] at hfedb
  have hltFirst : a.scopes.size < b.scopes.size := by omega
  have hltSecond : a.scopes.size + 1 < b.scopes.size := by omega
  exact
    { refers := .declared (.here hltFirst hfirst rfl) (.here hstage hforward) harc rfl
      clear := fun t ht => Echo.clear_within (hstands.clear t ht) hltFirst h.declared.lt_size hfirst
        fun l hl => List.mem_of_mem_take (i := 2) hl
      count := Echo.clear_within hstands.count hltSecond
        (Nat.lt_succ_of_lt (h.count "uint" List.mem_cons_self).1.lt_size) hsecond (by decide)
      apart := fun t ht => by
        have ht : a.vertices.size ≤ t := ht
        refine .under hstage hforward (by show w ≠ t; omega) ?_
        show b.Apart t (b.vertex w).parent
        rw [hself, hw]
        exact hstands.apart t (.inr (by omega))
      selectors := hfedb.indices
      supplied := hfedb.supplied
      ends := hfedb.ends
      apartReturns := hfedb.apart _ (by decide)
      apartLimit := hfedb.apart _ (by decide) }

/-- The parts of the function, as they begin. -/
theorem pristine_echo
    (hw : a.vertex w = s.standIn paths (s.structs ++ [s.reference]))
    (hfed : Echo.Fed a paths s.conditions.length args)
    (hb : Assembled a b w s.parts (s.table a.scopes.size)) :
    (s.echo args a w visible).Pristine b := by
  have hpaths : (a.vertex w).paths = paths := by rw [hw]; rfl
  have hsize : a.vertices.size + 2 < b.vertices.size := by
    rw [hb.size]
    exact Nat.lt_succ_self _
  have hpart (i : Nat) (hi : i < 3) : b.vertex (a.vertices.size + i) = .fresh (some w)
      ((a.vertex w).paths.map (·.child (.label (s.table a.scopes.size)[i].1)))
      (s.table a.scopes.size)[i].2 := by
    rw [hb.part (i := i) hi, partVertex, hpaths, hfed.parts]
    rfl
  exact
    { args := ⟨hsize, hpart 0 (by decide)⟩
      results := ⟨hsize, hpart 1 (by decide)⟩
      limit := ⟨hsize, hpart 2 (by decide)⟩ }

/-- A vertex of the structs of a function, and of the reference that they come from, becomes the
function. -/
theorem exists_formed (left : Nat) (h : s.Stands a)
    (hlt : w < a.vertices.size) (hparent : s.parent < w) (hne : s.definition ≠ w)
    (hw : a.vertex w = s.standIn paths (s.structs ++ [s.reference]))
    (hfed : Echo.Fed a paths s.conditions.length args)
    (visible : ((a.vertex w).paths.head?.map Path.hasDefinition).getD false = false) :
    ∃ b, processAt (left + 1) w a = ((), b) ∧ Extends (· = w) a b ∧
      (s.echo args a w visible).Formed b ∧ (s.echo args a w visible).Pristine b := by
  obtain ⟨b, hrun, hb⟩ := exists_assembled left h hlt hne hw hfed
  have hs : (a.vertex w).stage ≠ .done := by rw [hw]; exact Stage.noConfusion
  have hself := hb.self
  rw [hw] at hself
  have hformed : (s.echo args a w visible).Formed b :=
    { lt := hlt
      stands := stands_echo h hparent hlt hne hw hfed hb
      stage := congrArg Vertex.stage hself
      forward := congrArg Vertex.forward hself
      disjuncts := congrArg Vertex.disjuncts hself
      pending := congrArg Vertex.pending hself
      val := congrArg Vertex.val hself
      arcs := congrArg Vertex.arcs hself }
  exact ⟨b, hrun, hb.intact.extends_self hs, hformed, pristine_echo hw hfed hb⟩

end Formed

end Site

end SchemaMock
