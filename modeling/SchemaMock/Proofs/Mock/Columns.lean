import SchemaMock.Proofs.Agreement
import SchemaMock.Proofs.Mock.Run

/-! # Functions and counters in two columns

A mock once more, as two columns: one of the functions by their names, and one of the slots that
count their calls. The columns are filled one after the other. A call looks for the position of a
name in the first one, takes the slots at this position from the second one, and counts in those
that the overloads point to. Nothing makes the columns fit: there may be no such position or no such
slot, and then the call breaks off.

The columns of a compiled mock fit, and calls keep it so. No call breaks off, and none counts for
another function.
-/

namespace SchemaMock

/-! ## Slots -/

/-- The counters of a function in one row: one for each overload, then the one of unmatched
calls. -/
structure Slots where
  counts : List Nat
deriving DecidableEq, Repr

namespace Slots

def ofOverloads (n : Nat) : Slots := ⟨List.replicate (n + 1) 0⟩

/-- The index of the last slot, which is the number of overloads too. -/
def last? (s : Slots) : Option Nat := if s.counts.isEmpty then none else some (s.counts.length - 1)

/-- Counts in a slot, if it is there; the result is the count with it. -/
def count? (s : Slots) (index : Nat) : Option (Nat × Slots) :=
  s.counts[index]?.map fun n => (Ledger.saturatingSucc n,
    ⟨s.counts.set index (Ledger.saturatingSucc n)⟩)

end Slots

namespace Ledger

def slots (l : Ledger) : Slots := ⟨l.attempts ++ [l.unmatched]⟩

variable {l : Ledger} {i : Nat}

@[simp] theorem length_slots (l : Ledger) : l.slots.counts.length = l.overloads + 1 := by
  simp [slots, overloads]

@[simp] theorem slots_ofOverloads (n : Nat) : (ofOverloads n).slots = .ofOverloads n := by
  simp [slots, ofOverloads, Slots.ofOverloads, List.replicate_succ']

@[simp] theorem last?_slots (l : Ledger) : l.slots.last? = some l.overloads := by
  simp [Slots.last?, slots, overloads]

theorem count?_of_lt (h : i < l.overloads) :
    l.slots.count? i = some ((l.recordAttempt i).1, (l.recordAttempt i).2.slots) := by
  have hi : i < l.attempts.length := h
  have hset :
      l.attempts.modify i saturatingSucc = l.attempts.set i (saturatingSucc l.attempts[i]) := by
    rw [List.modify_eq_set_getElem?, List.getElem?_eq_getElem hi]
    rfl
  simp [Slots.count?, slots, recordAttempt, attemptsAt, List.getElem?_append_left hi, hi, hset]

theorem count?_overloads (l : Ledger) :
    l.slots.count? l.overloads = some (saturatingSucc l.unmatched, l.recordUnmatched.slots) := by
  simp [Slots.count?, slots, overloads, recordUnmatched]

end Ledger

/-- What a call comes to: its outcome, the state that it leaves, and the slots that it has counted
in. -/
structure Traced (σ ι : Type) where
  outcome : Except MockFault (List Value)
  after : σ
  accesses : List ι

/-! ## Resolution -/

namespace MockFunction

/-- Tries overloads in order. Each attempt counts in the slot that the overload points to. -/
def tryOverloads? (name : String) (args : List Value) (failed : List OverloadFailure) (s : Slots) :
    List Overload → Option (Traced Slots Nat)
  | [] => do
    let index ← s.last?
    let (_, s) ← s.count? index
    return ⟨.error (.noMatch name failed), s, [index]⟩
  | o :: rest => do
    let (attempts, s) ← s.count? o.index
    match o.judge attempts args with
    | .accepted returns => return ⟨.ok returns, s, [o.index]⟩
    | .unreadable f => return ⟨.error (.schema name f), s, [o.index]⟩
    | .rejected why =>
      let t ← tryOverloads? name args (failed ++ [⟨o.index, why⟩]) s rest
      return { t with accesses := o.index :: t.accesses }

def resolve? (f : MockFunction) (s : Slots) (args : List Value) : Option (Traced Slots Nat) :=
  tryOverloads? f.name args [] s f.overloads

/-- Where the overloads from `k` on have slots, the call goes through consecutive ones, and through
the last one only if no overload accepts it. -/
theorem tryOverloads?_slots (name : String) (args : List Value) {os : List Overload} :
    ∀ {k : Nat} {l : Ledger} (failed : List OverloadFailure), IndexedFrom k os →
      k + os.length = l.overloads → ∃ d ≤ os.length + 1,
        tryOverloads? name args failed l.slots os = some ⟨(tryOverloads name args failed l os).1,
          (tryOverloads name args failed l os).2.slots, List.range' k d⟩ ∧
        (d = os.length + 1 →
          ∃ failures, (tryOverloads name args failed l os).1 =
            .error (.noMatch name failures)) := by
  induction os with
  | nil =>
    intro k l failed _ hk
    obtain rfl : k = l.overloads := by simpa using hk
    refine ⟨1, Nat.le_refl _, ?_, fun _ => ⟨failed, rfl⟩⟩
    simp [tryOverloads?, tryOverloads, Ledger.count?_overloads]
  | cons o os ih =>
    intro k l failed hix hk
    rw [List.length_cons] at hk
    have hhead := hix.head
    have hcount := Ledger.count?_of_lt (l := l) (i := k) (by omega)
    have hsize := Ledger.overloads_recordAttempt l k
    cases hv : o.judge (l.recordAttempt k).1 args with
    | accepted returns =>
      exact ⟨1, by simp, by simp [tryOverloads?, tryOverloads, hhead, hcount, hv], by simp⟩
    | unreadable f =>
      exact ⟨1, by simp, by simp [tryOverloads?, tryOverloads, hhead, hcount, hv], by simp⟩
    | rejected why =>
      obtain ⟨d, hd, heq, hlast⟩ :=
        ih (failed ++ [⟨k, why⟩]) hix.tail (l := (l.recordAttempt k).2) (by omega)
      refine ⟨d + 1, by simpa using hd, ?_, fun h => ?_⟩
      · simp [tryOverloads?, tryOverloads, hhead, hcount, hv, heq, List.range'_succ]
      · simpa [tryOverloads, hhead, hv] using hlast (by simpa using h)

end MockFunction

theorem MockEntry.Aligned.length_slots {e : MockEntry} (h : e.Aligned) :
    e.ledger.slots.counts.length = e.function.overloads.length + 1 := by
  rw [Ledger.length_slots, h.size]

theorem MockEntry.Aligned.resolve? {e : MockEntry} (h : e.Aligned) (args : List Value) :
    ∃ d ≤ e.function.overloads.length + 1, e.function.resolve? e.ledger.slots args =
        some ⟨(e.function.resolve e.ledger args).1, (e.function.resolve e.ledger args).2.slots, List.range d⟩ ∧
      (d = e.function.overloads.length + 1 →
        ∃ failures, (e.function.resolve e.ledger args).1 =
          .error (.noMatch e.function.name failures)) := by
  simp only [List.range_eq_range']
  exact MockFunction.tryOverloads?_slots e.function.name args [] h.indexed
    (by rw [h.size, Nat.zero_add])

/-! ## Columns -/

namespace Mock

structure Access where
  position : Nat
  index : Nat
deriving DecidableEq, Repr

structure Columns where
  value : Value
  functions : List (String × MockFunction)
  ledgers : List Slots

namespace Columns

/-- A name that is there already keeps its position. -/
def insert (fs : List (String × MockFunction)) (name : String) (f : MockFunction) :
    List (String × MockFunction) :=
  if fs.any (·.1 == name) then fs.map fun (k, g) => (k, if k == name then f else g)
    else fs ++ [(name, f)]

def declare (fs : List (String × MockFunction)) :
    Selector × Value → Except Fault (List (String × MockFunction))
  | (.label (.regular name), v) => return insert fs name (← MockFunction.ofValue name v)
  | _ => .ok fs

/-- Goes through the fields for the functions, and then through the functions for their slots. -/
def ofFields (value : Value) (fields : List (Selector × Value)) : Except Fault Columns := do
  let functions ← fields.foldlM declare []
  return ⟨value, functions, functions.map fun (_, f) => .ofOverloads f.overloads.length⟩

def compile (r : Registry) (vars : Vars) (text : String) : Except MockFault Columns := do
  let scope ← scopeOf r vars
  let value ← (Value.compile (some scope) text).mapError .compile
  ((value.lookup (.ofNames [funcsName])).fields >>= ofFields value).mapError fun f => .compile [f]

/-- Calls a function by name, if there is something at its position in both columns. -/
def call? (c : Columns) (q : Request) : Option (Traced Columns Access) :=
  match c.functions.findIdx? (·.1 == q.name) with
  | none => some ⟨.error (.functionNotFound q.name), c, []⟩
  | some p =>
    match q.args.mapM Value.ofJson with
    | .error cause => some ⟨.error (.encode (.arguments q.name) (Fault.of cause).display), c, []⟩
    | .ok values => do
      let (_, f) ← c.functions[p]?
      let s ← c.ledgers[p]?
      let t ← f.resolve? s values
      return ⟨t.outcome, { c with ledgers := c.ledgers.set p t.after },
        t.accesses.map (Access.mk p)⟩

example (value : Value) (f : MockFunction) : call? ⟨value, [("P", f)], []⟩ ⟨"P", []⟩ = none := rfl

def replay? (c : Columns) (qs : List Request) : Option Columns :=
  qs.foldlM (fun c q => (c.call? q).map (·.after)) c

/-- The columns fit each other and the fields that they come from. -/
structure Aligned (c : Columns) (fields : List (Selector × Value)) : Prop where
  length : c.ledgers.length = c.functions.length
  size : ∀ (p : Nat) (name : String) (f : MockFunction), c.functions[p]? = some (name, f) →
    ∃ s, c.ledgers[p]? = some s ∧ s.last? = some f.overloads.length
  indexed : ∀ name f, (name, f) ∈ c.functions →
    ∀ (i : Nat) (o : Overload), f.overloads[i]? = some o → o.index = i
  declared : ∀ name f, (name, f) ∈ c.functions →
    f.name = name ∧ ∃ v, (.label (.regular name), v) ∈ fields ∧ MockFunction.ofValue name v = .ok f
  names : c.functions.map (·.1) = fields.filterMap (·.1.name?)
  nodup : (c.functions.map (·.1)).Nodup

/-- A call counts in slots that are there and belong to its function, one after the other, and in
the last one only if no overload accepts it. It touches nothing else. -/
structure Confined (c : Columns) (q : Request) (t : Traced Columns Access) : Prop where
  within : ∀ a ∈ t.accesses, ∃ f s, c.functions[a.position]? = some (q.name, f) ∧
    c.ledgers[a.position]? = some s ∧ a.index < s.counts.length ∧
    (a.index = f.overloads.length → ∃ failures, t.outcome = .error (.noMatch q.name failures))
  consecutive : t.accesses.map (·.index) = List.range t.accesses.length
  functions : t.after.functions = c.functions
  others : ∀ p : Nat, (∀ f, c.functions[p]? ≠ some (q.name, f)) →
    t.after.ledgers[p]? = c.ledgers[p]?

end Columns

def columns (m : Mock) : Columns :=
  ⟨m.value, m.functions.map fun f => (f.name, f), m.entries.map (·.ledger.slots)⟩

variable {m : Mock} {name : String}

/-! ### Positions -/

def names (m : Mock) : List String := m.functions.map (·.name)

/-- A function that is found has a position, where its slots are. -/
theorem exists_position {e : MockEntry} (h : m.find? name = some e) :
    ∃ p, m.columns.functions.findIdx? (·.1 == name) = some p ∧ m.entries[p]? = some e := by
  obtain ⟨hname, p, hp, rfl, hbefore⟩ := List.find?_eq_some_iff_getElem.mp h
  refine ⟨p, List.findIdx?_eq_some_iff_getElem.mpr ?_, List.getElem?_eq_getElem hp⟩
  simpa [columns, functions] using ⟨hp, by simpa using hname, by simpa using hbefore⟩

theorem findIdx?_of_find?_eq_none (h : m.find? name = none) :
    m.columns.functions.findIdx? (·.1 == name) = none := by
  simpa [columns, functions, find?] using h

theorem functions_of_getElem? {p : Nat} {e : MockEntry} (h : m.entries[p]? = some e) :
    m.columns.functions[p]? = some (e.function.name, e.function) := by
  simp [columns, functions, h]

theorem ledgers_of_getElem? {p : Nat} {e : MockEntry} (h : m.entries[p]? = some e) :
    m.columns.ledgers[p]? = some e.ledger.slots := by
  simp [columns, h]

/-- No two positions have one name. -/
theorem position_unique (h : m.names.Nodup) {p p' : Nat} {e e' : MockEntry}
    (he : m.entries[p]? = some e) (he' : m.entries[p']? = some e')
    (hname : e.function.name = e'.function.name) : p = p' := by
  have hp : p < m.names.length := by
    simpa [names, functions] using (List.getElem?_eq_some_iff.mp he).1
  refine (List.getElem?_inj hp h).mp ?_
  simp [names, functions, he, he', hname]

theorem find?_of_getElem? (h : m.names.Nodup) {p : Nat} {e : MockEntry}
    (he : m.entries[p]? = some e) : m.find? e.function.name = some e := by
  have hfound : (m.find? e.function.name).isSome = true :=
    List.find?_isSome.mpr ⟨e, List.mem_of_getElem? he, beq_self_eq_true _⟩
  obtain ⟨e', he'⟩ := Option.isSome_iff_exists.mp hfound
  obtain ⟨p', -, hp'⟩ := exists_position he'
  obtain rfl := position_unique h he hp' (name_of_find? he').symm
  rw [he', ← hp', he]

/-- The entry behind a position of the columns. -/
theorem exists_entry {p : Nat} {f : MockFunction} (h : m.columns.functions[p]? = some (name, f)) :
    ∃ e, m.entries[p]? = some e ∧ e.function = f ∧ f.name = name := by
  simp only [columns, functions, List.map_map, List.getElem?_map, Option.map_eq_some_iff] at h
  obtain ⟨e, he, hef⟩ := h
  cases hef
  exact ⟨e, he, rfl, rfl⟩

/-! ### Calls -/

/-- Another ledger for a function changes the slots at one position. -/
theorem columns_setLedger (h : m.names.Nodup) {p : Nat} {e : MockEntry}
    (he : m.entries[p]? = some e) (l : Ledger) :
    (m.setLedger e.function.name l).columns =
    { m.columns with ledgers := m.columns.ledgers.set p l.slots } := by
  have hp : p < m.entries.length := (List.getElem?_eq_some_iff.mp he).1
  have hledgers : (m.setLedger e.function.name l).entries.map (·.ledger.slots) =
      (m.entries.map (·.ledger.slots)).set p l.slots := by
    ext1 p'
    by_cases hpp : p' = p
    · subst hpp
      rw [List.getElem?_set_self (by simpa using hp)]
      simp [setLedger, he]
    · cases he' : m.entries[p']? with
      | none => simp [setLedger, he', Ne.symm hpp]
      | some e' =>
        have hne : e'.function.name ≠ e.function.name :=
          fun hname => hpp (position_unique h he' he hname)
        simp [setLedger, he', hne, Ne.symm hpp]
  rw [columns, functions_setLedger, hledgers]
  rfl

theorem Columns.confined_idle (c : Columns) (q : Request)
    (outcome : Except MockFault (List Value)) : c.Confined q ⟨outcome, c, []⟩ where
  within := by simp
  consecutive := rfl
  functions := rfl
  others _ _ := rfl

/-- A call that goes through the first slots at the position of its function. -/
theorem Columns.confined_of_range {c : Columns} {q : Request} {p d : Nat}
    {f : MockFunction} {s : Slots} {outcome : Except MockFault (List Value)}
    (hf : c.functions[p]? = some (q.name, f)) (hs : c.ledgers[p]? = some s)
    (hsize : s.counts.length = f.overloads.length + 1) (hd : d ≤ s.counts.length)
    (hlast : d = f.overloads.length + 1 → ∃ failures, outcome = .error (.noMatch q.name failures))
    (s' : Slots) :
    c.Confined q ⟨outcome, { c with ledgers := c.ledgers.set p s' }, (List.range d).map (Access.mk p)⟩ where
  within a ha := by
    obtain ⟨i, hi, rfl⟩ := List.mem_map.mp ha
    have hi : i < d := List.mem_range.mp hi
    refine ⟨f, s, hf, hs, Nat.lt_of_lt_of_le hi hd, fun hi' => hlast ?_⟩
    change i = f.overloads.length at hi'
    omega
  consecutive := by simp [Function.comp_def]
  functions := rfl
  others p' hp' := by
    have hne : p ≠ p' := fun hpp => hp' f (hpp ▸ hf)
    simp [hne]

/-- A call never breaks off. It does to the columns what it does to the mock. -/
theorem exists_call? (hm : m.Aligned) (h : m.names.Nodup) (q : Request) :
    ∃ t, m.columns.call? q = some t ∧ t.outcome = (m.step q).outcome ∧
      t.after = (m.step q).after.columns ∧ m.columns.Confined q t := by
  rcases call_cases m q.name q.args with ⟨hf, hc⟩ | ⟨e, cause, hf, hv, hc⟩ | ⟨e, values, hf, hv, hc⟩
  · refine ⟨⟨.error (.functionNotFound q.name), m.columns, []⟩, ?_, ?_, ?_,
      m.columns.confined_idle q _⟩
    · rw [Columns.call?, findIdx?_of_find?_eq_none hf]
    · rw [step, hc]
    · rw [step, hc]
  · obtain ⟨p, hp, he⟩ := exists_position hf
    refine ⟨⟨.error (.encode (.arguments q.name) (Fault.of cause).display), m.columns, []⟩, ?_, ?_,
      ?_, m.columns.confined_idle q _⟩
    · simp only [Columns.call?, hp, hv]
    · rw [step, hc]
    · rw [step, hc]
  · obtain ⟨p, hp, he⟩ := exists_position hf
    have hname : e.function.name = q.name := name_of_find? hf
    have hal := hm q.name e hf
    have hfunctions := functions_of_getElem? he
    have hledgers := ledgers_of_getElem? he
    obtain ⟨d, hd, hresolve, hlast⟩ := hal.resolve? values
    rw [hname] at hfunctions hlast
    have hafter : (m.step q).after.columns = { m.columns with
        ledgers := m.columns.ledgers.set p (e.function.resolve e.ledger values).2.slots } := by
      rw [step, hc, ← hname]
      exact columns_setLedger h he _
    have hsize := hal.length_slots
    refine ⟨_, ?_, ?_, hafter.symm, Columns.confined_of_range hfunctions hledgers hsize (hsize ▸ hd) hlast _⟩
    · simp [Columns.call?, hp, hv, hfunctions, hledgers, hresolve]
    · rw [step, hc]

/-- Whatever the arguments are, a function is resolved with the slots at its position. -/
theorem exists_resolve? (hm : m.Aligned) (h : m.names.Nodup) {p : Nat}
    {f : MockFunction} {s : Slots} (hf : m.columns.functions[p]? = some (name, f))
    (hs : m.columns.ledgers[p]? = some s) (args : List Value) :
    ∃ t, f.resolve? s args = some t ∧ ∀ i ∈ t.accesses, i < s.counts.length := by
  obtain ⟨e, he, rfl, -⟩ := exists_entry hf
  obtain rfl : e.ledger.slots = s := Option.some.inj ((ledgers_of_getElem? he).symm.trans hs)
  have hal := hm _ e (find?_of_getElem? h he)
  obtain ⟨d, hd, hresolve, -⟩ := hal.resolve? args
  refine ⟨_, hresolve, fun i hi => ?_⟩
  rw [hal.length_slots]
  exact Nat.lt_of_lt_of_le (List.mem_range.mp hi) hd

/-! ### Runs -/

theorem replay?_columns (hm : m.Aligned) (h : m.names.Nodup) (qs : List Request) :
    m.columns.replay? qs = some (m.replay qs).columns := by
  induction qs generalizing m with
  | nil => rfl
  | cons q qs ih =>
    obtain ⟨t, ht, -, hafter, -⟩ := exists_call? hm h q
    have hnames : (m.step q).after.names.Nodup := by
      rw [names, functions_step]
      exact h
    rw [Columns.replay?, List.foldlM_cons, ht, Option.map_some, hafter]
    exact ih (hm.step q) hnames

/-! ### Compiling -/

theorem names_of_functionsOf {fields : List (Selector × Value)} {fs : List MockFunction}
    (h : functionsOf fields = .ok fs) : fs.map (·.name) = fields.filterMap (·.1.name?) := by
  induction fields generalizing fs with
  | nil =>
    cases h
    rfl
  | cons field fields ih =>
    obtain ⟨s, v⟩ := field
    match s, h with
    | .label (.regular name), h =>
      rw [functionsOf] at h
      obtain ⟨f, hf, h⟩ := Except.exists_of_bind_eq_ok h
      obtain ⟨gs, hgs, h⟩ := Except.exists_of_bind_eq_ok h
      cases h
      simp [Selector.name?, MockFunction.name_of_ofValue hf, ih hgs]
    | .label (.definition _), h => exact ih h
    | .label (.hidden _), h => exact ih h
    | .index _, h => exact ih h

theorem Columns.insert_of_notMem {fs : List (String × MockFunction)} (h : name ∉ fs.map (·.1))
    (f : MockFunction) : insert fs name f = fs ++ [(name, f)] := by
  refine if_neg ?_
  simpa using h

/-- Under new names the functions come in the order of their fields. -/
theorem Columns.foldlM_declare {fields : List (Selector × Value)}
    {done : List (String × MockFunction)} (h : (done.map (·.1) ++ fields.filterMap (·.1.name?)).Nodup) :
    fields.foldlM declare done = (functionsOf fields).map fun fs => done ++
      fs.map fun f => (f.name, f) := by
  induction fields generalizing done with
  | nil =>
    show Except.ok done = .ok (done ++ [])
    rw [List.append_nil]
  | cons field fields ih =>
    obtain ⟨s, v⟩ := field
    match s, h with
    | .label (.regular name), h =>
      rw [List.foldlM_cons, functionsOf]
      cases hf : MockFunction.ofValue name v with
      | error fault => simp [declare, hf, bind, Except.bind, Except.map]
      | ok f =>
        have hnew : name ∉ done.map (·.1) := fun hmem =>
          (List.nodup_append.mp h).2.2 name hmem name List.mem_cons_self rfl
        have hdone : ((insert done name f).map (·.1) ++ fields.filterMap (·.1.name?)).Nodup := by
          rw [insert_of_notMem hnew, List.map_append, List.append_assoc]
          exact h
        have hname := MockFunction.name_of_ofValue hf
        have hstep : declare done (.label (.regular name), v) = .ok (insert done name f) := by
          rw [declare, hf]
          rfl
        rw [hstep]
        dsimp only [bind, Except.bind]
        rw [ih hdone, insert_of_notMem hnew]
        cases hgs : functionsOf fields <;> simp [Except.map, pure, Except.pure, hname]
    | .label (.definition _), h => exact ih h
    | .label (.hidden _), h => exact ih h
    | .index _, h => exact ih h

/-- Filling the columns one after the other gives the columns of the mock, or the fault that the
mock fails with. -/
theorem compile_columns (r : Registry) (vars : Vars) (text : String) :
    Columns.compile r vars text = (compile r vars text).map columns := by
  rw [Columns.compile, compile]
  cases scopeOf r vars with
  | error fault => rfl
  | ok scope =>
    dsimp only [bind, Except.bind]
    cases (Value.compile (some scope) text).mapError MockFault.compile with
    | error fault => rfl
    | ok value =>
      dsimp only
      cases hfields : (value.lookup (.ofNames [funcsName])).fields with
      | error fault => rfl
      | ok fields =>
        dsimp only
        rw [Columns.ofFields, Columns.foldlM_declare (by simpa using Value.nodup_fields hfields)]
        cases functionsOf fields with
        | error fault => rfl
        | ok fs =>
          simp [Except.map, Except.mapError, bind, Except.bind, pure, Except.pure, columns,
            functions, entryOf, Function.comp_def]

/-- The columns of a mock are aligned where its functions are those of the fields. -/
theorem Aligned.columns (hm : m.Aligned) {fields : List (Selector × Value)}
    (hfs : functionsOf fields = .ok m.functions) (h : m.names.Nodup) :
    m.columns.Aligned fields where
  length := by simp [Mock.columns, functions]
  size p name f hf := by
    obtain ⟨e, he, rfl, -⟩ := exists_entry hf
    refine ⟨e.ledger.slots, ledgers_of_getElem? he, ?_⟩
    rw [Ledger.last?_slots, (hm _ e (find?_of_getElem? h he)).size]
  indexed name f hf i o ho := by
    obtain ⟨p, hp⟩ := List.mem_iff_getElem?.mp hf
    obtain ⟨e, he, rfl, -⟩ := exists_entry hp
    exact (hm _ e (find?_of_getElem? h he)).indexed.index_of_getElem? ho
  declared name f hf := by
    obtain ⟨g, hg, hgf⟩ := List.mem_map.mp hf
    cases hgf
    exact ⟨rfl, field_of_mem_functionsOf hfs hg⟩
  names := by
    rw [← names_of_functionsOf hfs, Mock.columns, List.map_map]
    rfl
  nodup := by
    rw [Mock.columns, List.map_map]
    exact h

/-- The columns of a compiled mock stay aligned along every run: at each position there are slots
for just the overloads of the function, which carry their indices, and the names are those of the
regular fields of `funcs`, each once and in order. So functions are resolved with slots that are
there, whatever the arguments are, and a call counts in those of its own function only. -/
theorem columns_of_run {r : Registry} {vars : Vars} {text : String}
    (h : compile r vars text = .ok m) (qs : List Request) :
    Columns.compile r vars text = .ok m.columns ∧
    ∃ fields c, (m.value.lookup (.ofNames [funcsName])).fields = .ok fields ∧
      m.columns.replay? qs = some c ∧ c = (m.replay qs).columns ∧ c.Aligned fields ∧
      (∀ (p : Nat) name f s, c.functions[p]? = some (name, f) → c.ledgers[p]? = some s →
        ∀ args, ∃ t, f.resolve? s args = some t ∧ ∀ i ∈ t.accesses, i < s.counts.length) ∧
      ∀ q, ∃ t, c.call? q = some t ∧ t.outcome = ((m.replay qs).step q).outcome ∧
        t.after = ((m.replay qs).step q).after.columns ∧ c.Confined q t := by
  obtain ⟨scope, fields, fs, -, -, hfields, hfs, hentries⟩ := of_compile h
  have hfunctions : m.functions = fs := by simp [functions, hentries, entryOf, Function.comp_def]
  have hnames : m.names.Nodup := by
    rw [names, hfunctions, names_of_functionsOf hfs]
    exact Value.nodup_fields hfields
  have hm := aligned_of_compile h
  have hreplay := replay?_columns hm hnames qs
  have hm' := hm.replay qs
  have hlast := functions_replay m qs
  have hnames' : (m.replay qs).names.Nodup := by
    rw [names, hlast]
    exact hnames
  refine ⟨by rw [compile_columns, h]; rfl, fields, (m.replay qs).columns, hfields, hreplay, rfl, ?_, ?_, ?_⟩
  · exact hm'.columns (by rw [hlast, hfunctions, hfs]) hnames'
  · exact fun p name f s hf hs => exists_resolve? hm' hnames' hf hs
  · exact exists_call? hm' hnames'

/-- A function declared by a list, and one declared by a struct, around a field that declares
none. -/
def pickText : String := "funcs: \x7bPick: [\x7bmaxCalls: 0\x7d], #Own: 1, Ping: \x7b\x7d\x7d"

/-- A call that no overload accepts, and one of no function. -/
def pickCalls : List Request := [⟨"Pick", []⟩, ⟨"Own", []⟩]

def isPicked (c : Columns) : Bool :=
  c.functions.map (·.1) == ["Pick", "Ping"] && c.ledgers == [⟨[1, 1]⟩, ⟨[0, 0]⟩]

theorem columns_of_run_pick : ∃ m c, compile .empty .empty pickText = .ok m ∧
    m.columns.replay? pickCalls = some c ∧ c.functions.map (·.1) = ["Pick", "Ping"] ∧
    c.ledgers = [⟨[1, 1]⟩, ⟨[0, 0]⟩] ∧ ∀ q, ∃ t, c.call? q = some t ∧ c.Confined q t := by
  obtain ⟨m, hm, ht⟩ :=
    exists_of_compilesTo pickText (fun m => isPicked (m.replay pickCalls).columns)
    (by decide +kernel)
  rw [isPicked, Bool.and_eq_true, beq_iff_eq, beq_iff_eq] at ht
  obtain ⟨-, fields, c, -, hreplay, rfl, -, -, hcalls⟩ := columns_of_run hm pickCalls
  refine ⟨m, _, hm, hreplay, ht.1, ht.2, fun q => ?_⟩
  obtain ⟨t, hcall, -, -, hconfined⟩ := hcalls q
  exact ⟨t, hcall, hconfined⟩

end Mock

end SchemaMock
