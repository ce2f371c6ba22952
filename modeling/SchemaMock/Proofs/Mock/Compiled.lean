import SchemaMock.Proofs.Mock.Resolution
import SchemaMock.Proofs.Outcome

/-! # Compiled mocks

What a mock holds that was compiled from a schema: a function for each regular field of `funcs`,
whose overloads carry their positions, with a ledger that has counted nothing.
-/

namespace SchemaMock

namespace MockFunction

theorem name_of_ofValue {name : String} {v : Value} {f : MockFunction}
    (h : ofValue name v = .ok f) : f.name = name := by
  unfold ofValue at h
  split at h
  · obtain ⟨values, -, h⟩ := Except.exists_of_bind_eq_ok h
    cases h
    rfl
  · cases h; rfl

/-- The overloads of a function are its value, or the elements of its value if that is a list. -/
theorem overloads_of_ofValue {name : String} {v : Value} {f : MockFunction}
    (h : ofValue name v = .ok f) :
    (v.kinds ≠ .ofList ∧ f.overloads = [⟨0, v⟩]) ∨
    (v.kinds = .ofList ∧ ∃ values, v.elements = .ok values ∧
      f.overloads = values.mapIdx fun index value => ⟨index, value⟩) := by
  unfold ofValue at h
  split at h
  case isTrue hk =>
    obtain ⟨values, hv, h⟩ := Except.exists_of_bind_eq_ok h
    cases h
    exact .inr ⟨hk, values, hv, rfl⟩
  case isFalse hk => cases h; exact .inl ⟨hk, rfl⟩

theorem indexedFrom_mapIdx (values : List Value) :
    IndexedFrom 0 (values.mapIdx fun index value => (⟨index, value⟩ : Overload)) := by
  unfold IndexedFrom
  apply List.ext_getElem <;> simp

theorem indexed_of_ofValue {name : String} {v : Value} {f : MockFunction}
    (h : ofValue name v = .ok f) : IndexedFrom 0 f.overloads := by
  rcases overloads_of_ofValue h with ⟨-, ho⟩ | ⟨-, values, -, ho⟩
  · rw [ho]; rfl
  · rw [ho]; exact indexedFrom_mapIdx values

end MockFunction

namespace Mock

/-- Every function comes from a regular field. -/
theorem field_of_mem_functionsOf {fields : List (Selector × Value)} {fs : List MockFunction}
    (h : functionsOf fields = .ok fs) {f : MockFunction} (hf : f ∈ fs) :
    ∃ v, (.label (.regular f.name), v) ∈ fields ∧ MockFunction.ofValue f.name v = .ok f := by
  induction fields generalizing fs with
  | nil => cases h; cases hf
  | cons field fields ih =>
    obtain ⟨s, v⟩ := field
    have skip (h : functionsOf fields = .ok fs) :
        ∃ w, (.label (.regular f.name), w) ∈ (s, v) :: fields ∧
        MockFunction.ofValue f.name w = .ok f := by
      obtain ⟨w, hw, hv⟩ := ih h hf
      exact ⟨w, List.mem_cons_of_mem _ hw, hv⟩
    match s, h with
    | .label (.regular name), h =>
      rw [functionsOf] at h
      obtain ⟨g, hg, h⟩ := Except.exists_of_bind_eq_ok h
      obtain ⟨gs, hgs, h⟩ := Except.exists_of_bind_eq_ok h
      cases h
      rcases List.mem_cons.mp hf with rfl | hf
      · have hn := MockFunction.name_of_ofValue hg
        exact ⟨v, by rw [hn]; exact List.mem_cons_self, by rw [hn]; exact hg⟩
      · obtain ⟨w, hw, hv⟩ := ih hgs hf
        exact ⟨w, List.mem_cons_of_mem _ hw, hv⟩
    | .label (.definition _), h => exact skip h
    | .label (.hidden _), h => exact skip h
    | .index _, h => exact skip h

/-- A compiled mock holds the schema unified into its scope, and an entry for each function. -/
theorem of_compile {r : Registry} {vars : Vars} {text : String} {m : Mock}
    (h : compile r vars text = .ok m) :
    ∃ scope fields fs, scopeOf r vars = .ok scope ∧ Value.compile (some scope) text = .ok m.value ∧
      (m.value.lookup (.ofNames [funcsName])).fields = .ok fields ∧ functionsOf fields = .ok fs ∧
      m.entries = fs.map entryOf := by
  obtain ⟨scope, hs, h⟩ := Except.exists_of_bind_eq_ok h
  obtain ⟨value, hv, h⟩ := Except.exists_of_bind_eq_ok h
  obtain ⟨fs, hfs, h⟩ := Except.exists_of_bind_eq_ok h
  obtain ⟨fields, hf, hfs⟩ := Except.exists_of_bind_eq_ok (Except.eq_ok_of_mapError hfs)
  cases h
  exact ⟨scope, fields, fs, hs, Except.eq_ok_of_mapError hv, hf, hfs, rfl⟩

/-- A function of a compiled mock starts with an empty ledger. -/
theorem entry_of_compile {r : Registry} {vars : Vars} {text name : String} {m : Mock}
    {e : MockEntry} (h : compile r vars text = .ok m) (hf : m.find? name = some e) :
    e.Aligned ∧ e.ledger = .ofOverloads e.function.overloads.length := by
  obtain ⟨scope, fields, fs, -, -, -, hfs, he⟩ := of_compile h
  have hmem : e ∈ m.entries := List.mem_of_find?_eq_some hf
  rw [he] at hmem
  obtain ⟨f, hmf, rfl⟩ := List.mem_map.mp hmem
  obtain ⟨v, -, hv⟩ := field_of_mem_functionsOf hfs hmf
  exact ⟨⟨MockFunction.indexed_of_ofValue hv, Ledger.overloads_ofOverloads _⟩, rfl⟩

theorem aligned_of_compile {r : Registry} {vars : Vars} {text : String} {m : Mock}
    (h : compile r vars text = .ok m) : m.Aligned := fun _ _ hf => (entry_of_compile h hf).1

def compilesTo (text : String) (test : Mock → Bool) : Bool :=
  match compile .empty .empty text with
  | .ok m => test m
  | .error _ => false

theorem exists_of_compilesTo (text : String) (test : Mock → Bool)
    (h : compilesTo text test = true) :
    ∃ m, compile .empty .empty text = .ok m ∧ test m = true := by
  unfold compilesTo at h
  split at h
  case h_1 m hm => exact ⟨m, hm, h⟩
  case h_2 => cases h

/-- A function without arguments that may be called once. -/
def onceText : String := "funcs: P: {maxCalls: 1, returns: []}"

end Mock

end SchemaMock
