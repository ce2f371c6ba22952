import SchemaMock.Proofs.Echo.File

/-! # The place of the function of a file

The struct of the functions lists the function of the file, which lies in the scope of the file and
in that of the pattern for functions. Both see the definition and the type names.
-/

namespace SchemaMock

open Arena Eval

namespace Echo

variable {a b : Arena} {name : String} {ts : List Condition} {xs : List Expr} {args : List Json}

/-- The root declares no types. -/
theorem label_notMem_baseFields {k : String} (h : (Constraint.ofTypeName? k).isSome = true) :
    Label.ofIdent k.toList ∉ baseFields.map (·.1) := by
  unfold Constraint.ofTypeName? at h
  split at h
  all_goals first | decide | exact absurd h Bool.false_ne_true

/-! ## What can be seen -/

theorem Ground.settles (h : Ground a name ts) : a.SettlesTo root root := .here h.stage h.forward

theorem Ground.rootless (h : Ground a name ts) {l : Label} (hl : l ∉ baseFields.map (·.1)) :
    a.Rootless l := by
  refine ⟨root, h.settles, ?_⟩
  rw [Vertex.arc?, h.arcs, lookup_arcsFrom_of_notMem hl]

theorem Ground.outside_base (h : Ground a name ts) {l : Label} (hl : l ∉ baseFields.map (·.1)) :
    a.Outside l baseScope := by
  have hscopes := h.scopes
  obtain ⟨imports, houter⟩ := h.outer
  exact .within (Nat.lt_of_succ_lt hscopes) h.base (Decl.any_declares_required _ hl) (by decide)
    (.root (Nat.lt_trans (by decide) hscopes) houter)

theorem Ground.outside_file (h : Ground a name ts) {l : Label} (hl : l ≠ funcsLabel) :
    a.Outside l fileScope := by
  have hscopes := h.scopes
  obtain ⟨imports, houtside⟩ := h.outside
  refine .within hscopes h.file (Decl.any_declares_required _ ?_) (by decide)
    (.root (Nat.lt_trans (by decide) hscopes) houtside)
  rintro (_ | ⟨_, ⟨⟩⟩)
  exact hl rfl

theorem Ground.clear (h : Ground a name ts) (t : Condition) : a.Clear baseScope t := fun _ hn =>
  have hl := label_notMem_baseFields (Condition.isSome_of_mem_names hn)
  ⟨h.outside_base hl, h.rootless hl⟩

theorem Ground.clear_file (h : Ground a name ts) (t : Condition) : a.Clear fileScope t :=
  fun _ hn => by
  have hl := label_notMem_baseFields (Condition.isSome_of_mem_names hn)
  refine ⟨h.outside_file ?_, h.rootless hl⟩
  rintro he
  rw [he] at hl
  exact hl (by decide)

theorem Ground.arc_definition (h : Ground a name ts) :
    (a.vertex root).arc? definitionLabel = some ⟨definitionVertex, true⟩ := by
  rw [Vertex.arc?, h.arcs]
  rfl

theorem Ground.refers (h : Ground a name ts) :
    a.Refers definitionLabel baseScope definitionVertex :=
  .declared (.here (Nat.lt_of_succ_lt h.scopes) h.base (by decide)) h.settles h.arc_definition rfl

theorem Ground.refers_file (h : Ground a name ts) :
    a.Refers definitionLabel fileScope definitionVertex :=
  .outermost (h.outside_file (by decide)) h.settles h.arc_definition rfl

/-! ## The list of the functions -/

/-- The struct of the functions has the function and the pattern. -/
theorem Ground.listing (h : Ground a name ts) (hs : Supplies a name xs) :
    Listing a funcsVertex [.field funcsLabel] functionPattern (functionField name ts)
      name (declared ts) Mock.functionOrOverloads where
  lt := h.size
  fresh := ⟨_, h.funcs⟩
  pattern := rfl
  field := rfl
  scope := Nat.lt_of_succ_lt h.scopes
  outside := h.outside_base (by decide)
  root := h.rootless (by decide)
  fills s hsel := by
    obtain ⟨i, -, p, hp, -, hsome⟩ := hs.mem_fillSelectors hsel
    obtain rfl := List.mem_singleton.mp hp
    exact (Option.some.inj hsome).symm
  bare := hs.fillsAt_of_length fun p hp => by
    obtain rfl := List.mem_singleton.mp hp
    exact (by decide : 2 ≠ 4)

/-- The site of the function, when the scopes of the list are numbered from `n` on. -/
def site (ts : List Condition) (heights : ∀ t ∈ ts, t.height ≤ maxDepth) (n : Nat) : Site where
  conditions := ts
  heights := heights
  parent := funcsVertex
  declared := n + 1
  pattern := n
  definition := definitionVertex
  outer := baseScope
  path := .field definitionLabel
  hidden := rfl

/-- Once the function is listed, it can be decided. -/
theorem Ground.stands (h : Ground a name ts) (hab : Extends (· = funcsVertex) a b)
    (hl : Listed a b funcsVertex [.field funcsLabel] functionPattern (functionField name ts) name (declared ts)
      Mock.functionOrOverloads)
    (heights : ∀ t ∈ ts, t.height ≤ maxDepth) (hname : Constraint.ofTypeName? name = none) :
    (site ts heights a.scopes.size).Stands b := by
  have hroot : b.vertex root = a.vertex root := hab.vertex_of_done h.stage
  have hscopes := h.scopes
  have hsizes := hl.scopes
  have hdefinition : b.vertex definitionVertex = a.vertex definitionVertex :=
    Intact.vertex hab (Nat.lt_trans (by decide) h.size) fun ho => absurd ho.1 (by decide)
  have hlt : definitionVertex < b.vertices.size :=
    Nat.lt_of_lt_of_le (Nat.lt_trans (by decide) h.size) hab.size
  obtain ⟨hforward, hpaths, hseeds⟩ := h.definition
  rw [← hdefinition] at hforward hpaths hseeds
  refine ⟨?_, ?_, hlt, hforward, hpaths, hseeds, fun t ht => ?_, fun t ht => ?_, ?_⟩
  · exact (h.refers_file.intact hab Extends.not_done).within (by simp only [site]; omega) hl.field
      (Decl.any_declares_required [(.regular name, declared ts)] (by simp [definitionLabel]))
      (Nat.lt_succ_of_lt hscopes)
  · exact (h.refers.intact hab Extends.not_done).within (by simp only [site]; omega) hl.pattern rfl
      (Nat.lt_of_succ_lt hscopes)
  · have hself := hl.self
    rw [h.funcs] at hself
    have ht : t = definitionVertex ∨ funcsVertex < t := ht
    have hne : funcsVertex ≠ t ∧ root ≠ t := by
      simp only [definitionVertex, funcsVertex, root] at ht ⊢
      omega
    have hstage : (b.vertex funcsVertex).stage = .done := by rw [hself]
    have hlast : (b.vertex funcsVertex).forward = none := by rw [hself]; rfl
    have hunder : b.Apart t (b.vertex funcsVertex).parent := by
      rw [hself]
      refine .under (by rw [hroot]; exact h.stage) (by rw [hroot]; exact h.forward) hne.2 ?_
      rw [hroot, h.parent]
      exact .top
    exact .under hstage hlast hne.1 hunder
  · refine ((h.clear_file t).intact hab Extends.not_done).within
      (by simp only [site]; omega) hl.field
      (Nat.lt_succ_of_lt hscopes) fun k hk => ?_
    have hsome := Condition.isSome_of_mem_names hk
    refine Decl.any_declares_required [(.regular name, declared ts)] ?_
    rw [Label.ofIdent_of_ofTypeName? hsome]
    rintro (_ | ⟨_, ⟨⟩⟩)
    rw [hname] at hsome
    cases hsome
  · exact (h.clear countType).intact hab Extends.not_done

/-! ## The function -/

theorem Supplies.args_eq_nil (h : Supplies a name xs) {extra : List Path}
    (hargs : List.Forall₂ (fun j x => ∃ left, Expr.encode left j = .ok x) args xs)
    (hbelow : a.hasFillsBelow (functionPath name :: extra) = false) : args = [] := by
  cases hargs with
  | nil => rfl
  | @cons j x js ys _ _ =>
    have hmem : (⟨argPath name 0, .expr x⟩ : Fill) ∈ a.fills := by
      rw [h.fills]
      exact mem_argFills.mpr ⟨0, x, rfl, rfl⟩
    rw [hasFillsBelow_eq_false_iff] at hbelow
    refine absurd ⟨(by decide : 2 < 4), ?_⟩ (hbelow _ hmem (functionPath name) List.mem_cons_self)
    exact Path.startsWith_iff.mpr (List.prefix_append _ [Selector.label argsLabel, Selector.index 0])

/-- From the ground on the function is listed and decided. -/
theorem exists_function (levels : Nat) (h : Ground a name ts) (hs : Supplies a name xs)
    (heights : ∀ t ∈ ts, t.height ≤ maxDepth) (hname : Constraint.ofTypeName? name = none)
    (hargs : List.Forall₂ (fun j x => ∃ left, Expr.encode left j = .ok x) args xs)
    (hcanonical : ∀ j ∈ args, j.canonical = true) (hlength : args.length ≤ ts.length) :
    ∃ b c, processAt (levels + 3) funcsVertex a = ((), b) ∧
      Listed a b funcsVertex [.field funcsLabel] functionPattern (functionField name ts)
        name (declared ts) Mock.functionOrOverloads ∧
      processAt (levels + 3) a.vertices.size b = ((), c) ∧ Extends (· = a.vertices.size) b c ∧
      (site ts heights a.scopes.size).Decided args .done c a.vertices.size := by
  let v := a.vertices.size
  let s := site ts heights a.scopes.size
  obtain ⟨b, hrun, hab, hl⟩ := (h.listing hs).exists_listed (levels + 1)
  have hstands : s.Stands b := h.stands hab hl heights hname
  have hpaths : [functionPath name] ++ b.furtherPaths v [s.path] = functionPath name ::
      b.furtherPaths v [s.path] :=
    rfl
  have hsize := h.size
  have hsizes := hl.size
  have hfed : Fed b (functionPath name :: b.furtherPaths v [s.path]) ts.length args :=
    (hs.intact hab).fed hargs hcanonical hlength fun p hp =>
      List.mem_singleton.mp (mem_of_mem_furtherPaths hp)
  have hpart : b.vertex v = .fresh (some funcsVertex) [functionPath name] s.seeds := hl.part
  have hne : definitionVertex ≠ v :=
    Nat.ne_of_lt (Nat.lt_trans (by decide : definitionVertex < funcsVertex) hsize)
  obtain ⟨c, hprocess, hbc, hdecided⟩ :=
    s.exists_processed levels hstands (by omega) hsize hne hpart rfl
    (hpaths ▸ hfed) fun hbelow => (hs.intact hab).args_eq_nil hargs hbelow
  exact ⟨b, c, hrun, hl, hprocess, hbc, hdecided⟩

end Echo

end SchemaMock
