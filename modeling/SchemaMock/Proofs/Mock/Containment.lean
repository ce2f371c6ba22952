import SchemaMock.Proofs.Eval.Inputs
import SchemaMock.Proofs.Eval.Lookup
import SchemaMock.Proofs.Mock.Compiled
import SchemaMock.Proofs.Value

/-! # Functions under the built-in schema

The built-in schema constrains the fields of `funcs` by a pattern, whose label is looked up as a
name and which is applied when the fields of `funcs` are known. A function that it reaches before
the function is evaluated has structs as overloads, whatever else the schema says about it.
-/

namespace SchemaMock

open Arena Eval

namespace Value

variable {d : Definition} {v : Value} {a : Arena} {s : Selector} {u w : Nat} {k : Kinds}

/-- The kinds of a value are those that the vertex at its path has settled with. -/
theorem kinds_eq (v : Value) : v.kinds =
    match (Eval.lookup v.path).run (.ofInputs v.sources v.fills) with
    | (.ok w, a) => (kindsOf w a).1
    | (.error _, _) => .none := query_eq v _ _

/-- A part of a value has some of the kinds that its vertex is held to, or nothing is there. -/
theorem contains_kinds_part
    (h : (Eval.lookup v.path).run (.ofInputs v.sources v.fills) = (.ok w, a)) (hl : a.Linked)
    (hd : d.Stands a) (hk : ∀ u, (a.vertex w).part? s = some u → d.Holds a k u) :
    k.contains (v.lookup ⟨[s]⟩).kinds = true := by
  rw [kinds_eq]
  show k.contains (match (Eval.lookup (v.path.child s)).run (.ofInputs v.sources v.fills) with
    | (.ok w, a) => (kindsOf w a).1
    | (.error _, _) => .none) = true
  rcases lookup_child h s with ⟨u, hu, hrun⟩ | ⟨f, c, hrun⟩
  · obtain ⟨t, b, harrive, ht, hkinds⟩ := arrive_of_holds hl hd (hk u hu)
    rw [hrun, harrive]
    show k.contains (kindsOf t b).1 = true
    rw [kindsOf_of_settlesTo ht]
    exact hkinds
  · rw [hrun]
    exact Kinds.contains_none k

theorem lookup_of_mem_fields {v w : Value} {s : Selector} {fields : List (Selector × Value)}
    (h : v.fields = .ok fields) (hw : (s, w) ∈ fields) : w = v.lookup ⟨[s]⟩ := by
  obtain ⟨selectors, -, h⟩ := Except.exists_of_bind_eq_ok h
  cases h
  obtain ⟨t, -, ht⟩ := List.mem_map.mp hw
  cases ht
  rfl

theorem lookup_of_mem_elements {e : Value} {values : List Value} (h : v.elements = .ok values)
    (he : e ∈ values) : ∃ n, e = v.lookup ⟨[.index n]⟩ := by
  obtain ⟨length, -, h⟩ := Except.exists_of_bind_eq_ok h
  cases h
  obtain ⟨n, -, rfl⟩ := List.mem_map.mp he
  exact ⟨n, rfl⟩

/-- The elements of a list at a vertex that awaits its evaluation under a definition are structs. -/
theorem contains_kinds_elements
    (h : (Eval.lookup v.path).run (.ofInputs v.sources v.fills) = (.ok w, a)) (hl : a.Linked)
    (hd : d.Stands a) (hu : (a.vertex w).part? s = some u) (hk : d.Awaits a k u)
    (hlist : (v.lookup ⟨[s]⟩).kinds = .ofList) {values : List Value}
    (hvalues : (v.lookup ⟨[s]⟩).elements = .ok values) :
    ∀ e ∈ values, Kinds.ofStruct.contains e.kinds = true := by
  intro e he
  obtain ⟨n, rfl⟩ := lookup_of_mem_elements hvalues he
  rw [kinds_eq] at hlist
  change (match (Eval.lookup (v.path.child s)).run (.ofInputs v.sources v.fills) with
    | (.ok w, a) => (kindsOf w a).1
    | (.error _, _) => .none) = Kinds.ofList at hlist
  rcases lookup_child h s with ⟨x, hx, hrun⟩ | ⟨f, c, hrun⟩
  · obtain rfl : u = x := Option.some.inj (hu.symm.trans hx)
    obtain ⟨t, b, harrive, ht, -, hlb, hdb, helems⟩ := arrive_of_awaits hl hd hk
    rw [harrive] at hrun
    rw [hrun] at hlist
    have hkinds : (b.vertex t).val.kinds = .ofList := (kindsOf_of_settlesTo ht).symm.trans hlist
    have hpart :
        (Eval.lookup (v.lookup ⟨[s]⟩).path).run (.ofInputs v.sources v.fills) = (.ok t, b) :=
      hrun
    exact contains_kinds_part (v := v.lookup ⟨[s]⟩) hpart hlb hdb fun y hy =>
      helems hkinds y (List.mem_of_getElem? hy)
  · rw [hrun] at hlist
    have hlist : Kinds.none = Kinds.ofList := hlist
    exact absurd hlist (by decide)

end Value

namespace Mock

variable {r : Registry} {vars : Vars} {text : String} {m : Mock} {f : MockFunction}

/-- When the fields of `funcs` are known, the built-in constraint is one of the seeds of the
function, which is yet to be evaluated, and `#MockFunction` stands for a struct there. -/
def Constrained (m : Mock) (name : String) : Prop :=
  ∃ w a, (Eval.lookup (m.value.path.join (.ofNames [funcsName]))).run
      (.ofInputs m.value.sources m.value.fills) = (.ok w, a) ∧
    ∃ d : Definition, d.name = "#MockFunction" ∧ d.Stands a ∧
      ∃ x, (a.vertex w).part? (.label (.regular name)) = some x ∧
        d.Awaits a (Kinds.union .ofStruct .ofList) x

/-- The overloads of a function that the built-in schema constrains are structs or lists. -/
theorem contains_kinds_of_constrained (h : compile r vars text = .ok m) (hf : f ∈ m.functions)
    (hc : m.Constrained f.name) :
    ∀ o ∈ f.overloads, (Kinds.union .ofStruct .ofList).contains o.value.kinds = true := by
  obtain ⟨scope, fields, fs, -, -, hfields, hfs, hentries⟩ := of_compile h
  have hmem : f ∈ fs := by
    simpa [functions, hentries, entryOf, List.map_map, Function.comp_def] using hf
  obtain ⟨v, hv, hof⟩ := field_of_mem_functionsOf hfs hmem
  obtain ⟨w, a, hrun, d, -, hd, x, hx, hawaits⟩ := hc
  have hl : a.Linked := by
    have hkeeps := keeps_lookup (d := d) (m.value.path.join (.ofNames [funcsName]))
      (.ofInputs m.value.sources m.value.fills)
    rw [hrun] at hkeeps
    exact hkeeps.linked (linked_ofInputs _ _)
  let funcs := m.value.lookup (.ofNames [funcsName])
  have hpart : v = funcs.lookup ⟨[.label (.regular f.name)]⟩ :=
    Value.lookup_of_mem_fields hfields hv
  rcases MockFunction.overloads_of_ofValue hof with ⟨-, ho⟩ | ⟨hlist, values, hvalues, ho⟩
  · rw [ho, hpart]
    intro o hmem
    obtain rfl := List.mem_singleton.mp hmem
    refine Value.contains_kinds_part hrun hl hd fun u hu => .inl ?_
    obtain rfl : x = u := Option.some.inj (hx.symm.trans hu)
    exact hawaits
  · rw [hpart] at hlist hvalues
    have hall := Value.contains_kinds_elements hrun hl hd hx hawaits hlist hvalues
    rw [ho]
    intro o hmem
    obtain ⟨i, hi, rfl⟩ := List.mem_mapIdx.mp hmem
    exact Kinds.contains_trans (by decide) (hall _ (List.getElem_mem hi))

/-- A field of the root captures the name that labels the built-in pattern. -/
def captureText : String := "string: int\nfuncs: F: 200"

/-- A function that the built-in schema does not reach may be a scalar. -/
theorem exists_scalar_function : ∃ m f o, compile .empty .empty captureText = .ok m ∧
    f ∈ m.functions ∧ o ∈ f.overloads ∧ o.value.kinds = .ofInt := by
  obtain ⟨m, hm, ht⟩ := exists_of_compilesTo captureText
    (fun m => m.functions.any fun f => f.overloads.any fun o => o.value.kinds == .ofInt)
    (by decide +kernel)
  obtain ⟨f, hf, ho⟩ := List.any_eq_true.mp ht
  obtain ⟨o, ho, hk⟩ := List.any_eq_true.mp ho
  exact ⟨m, f, o, hm, hf, ho, beq_iff_eq.mp hk⟩

end Mock

end SchemaMock
