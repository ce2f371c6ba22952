import SchemaMock.Proofs.Mock.Echo

/-! # Typed calls

A typed call is the plain call with its results read afterwards. Each type has a partial function
that reads it, and reading looks at the results alone: what the call did to the mock stays, whatever
comes of the reading.
-/

namespace SchemaMock

theorem Value.decode_map {α β : Type} (v : Value) (d : Decoder α) (g : α → β) :
    v.decode (fun j => (d j).map g) = (v.decode d).map g := by
  unfold Value.decode
  cases v.toJson with
  | error f => rfl
  | ok j =>
    dsimp only [bind, Except.bind]
    cases d j <;> rfl

namespace Mock

variable {ι : Type} {T : ι → Type} (read : (t : ι) → Decoder (T t))

/-- Decoders for results of several types, which are read into the sum of the types. -/
def readers (types : List ι) : List (Decoder (Sigma T)) :=
  types.map fun t j => (read t j).map (Sigma.mk t)

def Reads (values : List Value) (results : List (Sigma T)) : Prop :=
  List.Forall₂ (fun v r => v.decode (read r.1) = .ok r.2) values results

/-- The value at `i` cannot be read as its type, and all before it can. -/
structure FirstFault (values : List Value) (types : List ι) (i : Nat) (f : Fault) : Prop where
  fails : ∃ v t, values[i]? = some v ∧ types[i]? = some t ∧ v.decode (read t) = .error f
  before : ∀ j < i, ∃ v t a, values[j]? = some v ∧ types[j]? = some t ∧ v.decode (read t) = .ok a

/-- What a typed call makes of the outcome of the plain call. -/
inductive TypedOutcome (name : String) (types : List ι) :
    Except MockFault (List Value) → Except MockFault (List (Sigma T)) → Prop
  | failed (fault : MockFault) : TypedOutcome name types (.error fault) (.error fault)
  | miscounted {values : List Value} (h : values.length ≠ types.length) :
      TypedOutcome name types (.ok values) (.error (.returnCount name types.length values.length))
  | unreadable {values : List Value} {i : Nat} {f : Fault} (hlength : values.length = types.length)
      (h : FirstFault read values types i f) :
      TypedOutcome name types (.ok values) (.error (.decode name i f))
  | complete {values : List Value} {results : List (Sigma T)} (htypes : results.map (·.1) = types)
      (h : Reads read values results) : TypedOutcome name types (.ok values) (.ok results)

variable {read} {name : String} {types : List ι} {values : List Value}

theorem decodeFrom_cons (k : Nat) (v : Value) (values : List Value) (t : ι) (types : List ι) :
    decodeFrom name k ((v :: values).zip (readers read (t :: types))) =
      match v.decode (read t) with
      | .error f => .error (.decode name k f)
      | .ok a => (decodeFrom name (k + 1) (values.zip (readers read types))).map (⟨t, a⟩ :: ·) := by
  simp only [readers, List.map_cons, List.zip_cons_cons, decodeFrom, Value.decode_map]
  cases v.decode (read t) with
  | error f => rfl
  | ok a => cases decodeFrom name (k + 1) _ <;> rfl

theorem Reads.decodeFrom {results : List (Sigma T)} (h : Reads read values results) (k : Nat) :
    decodeFrom name k (values.zip (readers read (results.map (·.1)))) = .ok results := by
  induction h generalizing k with
  | nil => rfl
  | cons hr _ ih =>
    rw [List.map_cons, decodeFrom_cons, hr]
    dsimp only
    rw [ih (k + 1)]
    rfl

theorem firstFault_zero {v : Value} {t : ι} {f : Fault} :
    FirstFault read (v :: values) (t :: types) 0 f ↔ v.decode (read t) = .error f := by
  constructor
  · rintro ⟨⟨v', t', hv, ht, hf⟩, -⟩
    cases hv
    cases ht
    exact hf
  · exact fun hf => ⟨⟨v, t, rfl, rfl, hf⟩, nofun⟩

theorem firstFault_succ {v : Value} {t : ι} {i : Nat} {f : Fault} :
    FirstFault read (v :: values) (t :: types) (i + 1) f ↔
      (∃ a, v.decode (read t) = .ok a) ∧ FirstFault read values types i f := by
  constructor
  · rintro ⟨hfails, hbefore⟩
    obtain ⟨v', t', a, hv, ht, ha⟩ := hbefore 0 (Nat.succ_pos i)
    cases hv
    cases ht
    exact ⟨⟨a, ha⟩, hfails, fun j hj => hbefore (j + 1) (Nat.succ_lt_succ hj)⟩
  · rintro ⟨⟨a, ha⟩, hfails, hbefore⟩
    refine ⟨hfails, fun j hj => ?_⟩
    cases j with
    | zero => exact ⟨v, t, a, rfl, rfl, ha⟩
    | succ j => exact hbefore j (Nat.lt_of_succ_lt_succ hj)

theorem FirstFault.decodeFrom {i : Nat} {f : Fault} (h : FirstFault read values types i f)
    (k : Nat) :
    decodeFrom name k (values.zip (readers read types)) = .error (.decode name (k + i) f) := by
  induction values generalizing types i k with
  | nil =>
    obtain ⟨v, t, hv, -⟩ := h.fails
    cases hv
  | cons v values ih =>
    cases types with
    | nil =>
      obtain ⟨v', t, -, ht, -⟩ := h.fails
      cases ht
    | cons t types =>
      rw [decodeFrom_cons]
      cases i with
      | zero =>
        rw [firstFault_zero.mp h]
        rfl
      | succ i =>
        obtain ⟨⟨a, ha⟩, hrest⟩ := firstFault_succ.mp h
        rw [ha]
        dsimp only
        rw [ih hrest (k + 1), Nat.succ_add_eq_add_succ]
        rfl

/-- As many values as types are all read, or one of them is the first that is not. -/
theorem exists_reads_or_firstFault (read : (t : ι) → Decoder (T t))
    (h : values.length = types.length) :
    (∃ results, results.map (·.1) = types ∧ Reads read values results) ∨
      ∃ i f, FirstFault read values types i f := by
  induction values generalizing types with
  | nil =>
    obtain rfl := List.length_eq_zero_iff.mp h.symm
    exact .inl ⟨[], rfl, .nil⟩
  | cons v values ih =>
    obtain ⟨t, types, rfl⟩ := List.exists_cons_of_length_eq_add_one h.symm
    cases hv : v.decode (read t) with
    | error f => exact .inr ⟨0, f, firstFault_zero.mpr hv⟩
    | ok a =>
      rcases ih (Nat.succ.inj h) with ⟨results, rfl, hreads⟩ | ⟨i, f, hfirst⟩
      · exact .inl ⟨⟨t, a⟩ :: results, rfl, .cons hv hreads⟩
      · exact .inr ⟨i + 1, f, firstFault_succ.mpr ⟨⟨a, hv⟩, hfirst⟩⟩

theorem exists_typedOutcome (read : (t : ι) → Decoder (T t)) (name : String) (types : List ι)
    (outcome : Except MockFault (List Value)) : ∃ r, TypedOutcome read name types outcome r := by
  cases outcome with
  | error fault => exact ⟨_, .failed fault⟩
  | ok values =>
    by_cases hlength : values.length = types.length
    · rcases exists_reads_or_firstFault read hlength with ⟨results, htypes, h⟩ | ⟨i, f, h⟩
      · exact ⟨_, .complete htypes h⟩
      · exact ⟨_, .unreadable hlength h⟩
    · exact ⟨_, .miscounted hlength⟩

/-- Counting and reading the results gives the typed outcome. -/
theorem TypedOutcome.decodeAll {outcome : Except MockFault (List Value)}
    {r : Except MockFault (List (Sigma T))} (h : TypedOutcome read name types outcome r) :
    outcome >>= decodeAll name (readers read types) = r := by
  have hcount : (readers read types).length = types.length := List.length_map _
  cases h with
  | failed fault => rfl
  | miscounted hlength =>
    show Mock.decodeAll name (readers read types) _ = _
    rw [Mock.decodeAll, hcount, if_neg hlength]
  | unreadable hlength h =>
    show Mock.decodeAll name (readers read types) _ = _
    rw [Mock.decodeAll, hcount, if_pos hlength, h.decodeFrom 0, Nat.zero_add]
  | complete htypes h =>
    show Mock.decodeAll name (readers read types) _ = _
    subst htypes
    rw [Mock.decodeAll, hcount, if_pos (by rw [List.length_map, List.Forall₂.length_eq h]),
      h.decodeFrom 0]

theorem callHost_ok (m : Mock) (name : String) (args : List Json) :
    m.callHost name (args.map .ok) = m.call name args := by
  rw [callHost, mapM_id_ok]

theorem callHost_error (m : Mock) (name : String) (args : List Json) (reason : String)
    (rest : List HostValue) : m.callHost name (args.map .ok ++ .error reason :: rest) =
      (.error (.encode (.arguments name) reason), m) := by
  have hfails : (args.map .ok ++ .error reason :: rest : List HostValue).mapM id = .error reason :=
    Except.mapM_eq_error (List.forall_mem_map.mpr fun j _ => ⟨j, rfl⟩) rfl
  rw [callHost, hfails]

/-- A typed call leaves the mock just as the plain call does, and so does one for host values. It
fails as the plain call fails; else the number of results is checked before any of them is read,
then the first that is not of its type is reported, and otherwise all results are given in order. An
argument that cannot be written ends both before the call. -/
theorem exec_iff_typedOutcome (read : (t : ι) → Decoder (T t)) (m : Mock) (name : String)
    (types : List ι) : (∀ args : List Json,
      (m.exec name (args.map .ok) (readers read types)).2 = (m.call name args).2 ∧
      (m.execValues name (args.map .ok)).2 = (m.call name args).2 ∧
      ∀ r, (m.exec name (args.map .ok) (readers read types)).1 = r ↔
        TypedOutcome read name types (m.call name args).1 r) ∧
    ∀ (args : List Json) (reason : String) (rest : List HostValue),
      let unwritten := args.map .ok ++ .error reason :: rest
      m.exec name unwritten (readers read types) = (.error (.encode (.arguments name) reason), m) ∧
      m.execValues name unwritten = (.error (.encode (.arguments name) reason), m) := by
  constructor
  · intro args
    have hexec : m.exec name (args.map .ok) (readers read types) =
        ((m.call name args).1 >>= decodeAll name (readers read types), (m.call name args).2) := by
      rw [exec, callHost_ok]
    have hvalues : (m.execValues name (args.map .ok)).2 = (m.call name args).2 := by
      rw [execValues, callHost_ok]
    rw [hexec]
    refine ⟨rfl, hvalues, fun r => ⟨?_, TypedOutcome.decodeAll⟩⟩
    rintro rfl
    obtain ⟨r, hr⟩ := exists_typedOutcome read name types (m.call name args).1
    exact hr.decodeAll.symm ▸ hr
  · intro args reason rest
    constructor
    · rw [exec, callHost_error]
      rfl
    · rw [execValues, callHost_error]
      rfl

end Mock

end SchemaMock
