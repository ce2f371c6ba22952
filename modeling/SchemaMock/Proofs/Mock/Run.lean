import SchemaMock.Proofs.Mock.Compiled

/-! # Runs of calls

A run makes calls one after the other and keeps an event of each: the mock before it, the request,
the outcome and the mock after it. Along a run every slot of a ledger is the number of calls that
reached it, up to the greatest count.
-/

namespace SchemaMock.Mock

open MockFunction

structure Request where
  name : String
  args : List Json

structure Event where
  before : Mock
  request : Request
  outcome : Except MockFault (List Value)
  after : Mock

def step (m : Mock) (q : Request) : Event :=
  ⟨m, q, (m.call q.name q.args).1, (m.call q.name q.args).2⟩

@[simp] theorem request_step (m : Mock) (q : Request) : (m.step q).request = q := rfl

@[simp] theorem before_step (m : Mock) (q : Request) : (m.step q).before = m := rfl

def run (m : Mock) : List Request → List Event
  | [] => []
  | q :: qs => m.step q :: (m.step q).after.run qs

def replay (m : Mock) (qs : List Request) : Mock := qs.foldl (fun m q => (m.step q).after) m

variable {m : Mock} {name : String}

@[simp] theorem length_run (m : Mock) (qs : List Request) : (m.run qs).length = qs.length := by
  induction qs generalizing m with
  | nil => rfl
  | cons q qs ih => simp [run, ih]

theorem run_append (m : Mock) (qs rs : List Request) :
    m.run (qs ++ rs) = m.run qs ++ (m.replay qs).run rs := by
  induction qs generalizing m with
  | nil => rfl
  | cons q qs ih => simp [run, replay, ih]

/-- The event at a place of a run is a step from where the requests before it lead. -/
theorem getElem?_run {qs : List Request} {k : Nat} {e : Event} (h : (m.run qs)[k]? = some e) :
    ∃ q, qs[k]? = some q ∧ e = (m.replay (qs.take k)).step q := by
  induction qs generalizing m k with
  | nil => simp [run] at h
  | cons q qs ih =>
    cases k with
    | zero => exact ⟨q, rfl, by simpa [run, replay] using h.symm⟩
    | succ k => exact ih (m := (m.step q).after) (by simpa [run] using h)

theorem step_of_mem_run {qs : List Request} {e : Event} (h : e ∈ m.run qs) :
    ∃ front q, e = (m.replay front).step q := by
  obtain ⟨k, hk⟩ := List.mem_iff_getElem?.mp h
  obtain ⟨q, -, he⟩ := getElem?_run hk
  exact ⟨qs.take k, q, he⟩

theorem take_run (m : Mock) (qs : List Request) (k : Nat) :
    (m.run qs).take k = m.run (qs.take k) := by
  induction qs generalizing m k with
  | nil => simp [run]
  | cons q qs ih => cases k <;> simp [run, ih]

namespace Event

/-- The overload at which the call of an event ended, if it ended at one; nothing when the call did
not reach the overloads. -/
def stop? (e : Event) : Option (Option Nat) := do
  let entry ← e.before.find? e.request.name
  let values ← (e.request.args.mapM Value.ofJson).toOption
  return entry.function.endOf entry.ledger values

/-- A call of a function that counts in the slot `i`. -/
def reached (name : String) (i : Nat) (e : Event) : Bool :=
  e.request.name == name && e.stop?.any (reaches · i)

/-- A call of a function that ended at the overload `i`. -/
def endedAt (name : String) (i : Nat) (e : Event) : Bool :=
  e.request.name == name && e.stop? == some (some i)

/-- A call that reaches a slot ends there or reaches the next one. -/
theorem reached_eq (name : String) (i : Nat) (e : Event) :
    (e.reached name i = true ↔ e.reached name (i + 1) = true ∨ e.endedAt name i = true) ∧
      ¬ (e.reached name (i + 1) = true ∧ e.endedAt name i = true) := by
  unfold reached endedAt
  cases e.stop? with
  | none => simp
  | some s =>
    cases s with
    | none => simp
    | some j =>
      by_cases hn : e.request.name = name <;> simp [hn]
      omega

end Event

theorem countP_reached (name : String) (i : Nat) (es : List Event) :
    es.countP (Event.reached name i) =
      es.countP (Event.reached name (i + 1)) + es.countP (Event.endedAt name i) := by
  induction es with
  | nil => rfl
  | cons e es ih =>
    obtain ⟨hor, hnot⟩ := e.reached_eq name i
    simp only [List.countP_cons, ih]
    cases h₁ : e.reached name (i + 1) <;> cases h₂ : e.endedAt name i <;> simp_all <;> omega

/-! ## What a step does to the ledgers -/

/-- A call that does not reach the overloads changes nothing. -/
theorem after_of_stop?_eq_none {q : Request} (h : (m.step q).stop? = none) :
    (m.step q).after = m := by
  rcases call_cases m q.name q.args with ⟨-, hc⟩ | ⟨e, c, -, -, hc⟩ | ⟨e, values, hf, hv, hc⟩
  · rw [step, hc]
  · rw [step, hc]
  · simp [Event.stop?, step, hf, hv, Except.toOption] at h

/-- A call of a function leaves the others as they were. -/
theorem find?_step_of_ne {q : Request} (h : q.name ≠ name) :
    (m.step q).after.find? name = m.find? name := by
  rcases call_cases m q.name q.args with ⟨-, hc⟩ | ⟨e, c, -, -, hc⟩ | ⟨e, values, hf, hv, hc⟩
  · rw [step, hc]
  · rw [step, hc]
  · rw [step, hc]
    exact (find?_setLedger _).trans (if_neg (Ne.symm h))

/-- A step keeps every function, and counts the call in the slots that it reaches. -/
theorem find?_step (hm : m.Aligned) {e : MockEntry} (hf : m.find? name = some e) (q : Request) :
    ∃ l, (m.step q).after.find? name = some ⟨e.function, l⟩ ∧
      MockEntry.Aligned ⟨e.function, l⟩ ∧
      ∀ i ≤ e.function.overloads.length, l.slot i =
        if (m.step q).reached name i then Ledger.saturatingSucc (e.ledger.slot i)
        else e.ledger.slot i := by
  have he := hm name e hf
  by_cases hn : q.name = name
  · subst hn
    rcases call_cases m q.name q.args with ⟨hnone, -⟩ | ⟨e', c, hf', hv, hc⟩ | ⟨e',
      values, hf', hv, hc⟩
    · rw [hnone] at hf; cases hf
    · refine ⟨e.ledger, by rw [step, hc]; exact hf, he, fun i _ => ?_⟩
      simp [Event.reached, Event.stop?, step, hv, Except.toOption]
    · obtain rfl : e' = e := Option.some.inj (hf'.symm.trans hf)
      refine ⟨_, ?_, he.resolve values, fun i hi => ?_⟩
      · rw [step, hc]
        exact (find?_setLedger _).trans (by rw [if_pos rfl, hf]; rfl)
      · rw [he.slot_resolve values hi]
        simp [Event.reached, Event.stop?, step, hf, hv, Except.toOption]
  · refine ⟨e.ledger, (find?_step_of_ne hn).trans hf, he, fun i _ => ?_⟩
    simp [Event.reached, step, hn]

theorem Aligned.step (hm : m.Aligned) (q : Request) : (m.step q).after.Aligned := by
  intro name e hf
  cases h : m.find? name with
  | none =>
    rcases call_cases m q.name q.args with ⟨-, hc⟩ | ⟨e', c, -, -, hc⟩ | ⟨e', values, hf', -, hc⟩
    · rw [Mock.step, hc, h] at hf; cases hf
    · rw [Mock.step, hc, h] at hf; cases hf
    · rw [Mock.step, hc, find?_setLedger, h] at hf
      split at hf <;> cases hf
  | some e' =>
    obtain ⟨l, hl, hal, -⟩ := find?_step hm h q
    rw [hl] at hf
    cases hf
    exact hal

/-- Along a run each slot grows by the number of calls that reached it, up to the greatest count. -/
theorem find?_replay (hm : m.Aligned) {e : MockEntry} (hf : m.find? name = some e)
    (hmax : ∀ i ≤ e.function.overloads.length, e.ledger.slot i ≤ unbounded) (qs : List Request) :
    ∃ l, (m.replay qs).find? name = some ⟨e.function, l⟩ ∧ MockEntry.Aligned ⟨e.function, l⟩ ∧
      ∀ i ≤ e.function.overloads.length,
        l.slot i = min (e.ledger.slot i + (m.run qs).countP (Event.reached name i)) unbounded := by
  induction qs generalizing m e with
  | nil =>
    refine ⟨e.ledger, hf, hm name e hf, fun i hi => ?_⟩
    have := hmax i hi
    simp only [run, List.countP_nil]
    omega
  | cons q qs ih =>
    obtain ⟨l, hl, hal, hslot⟩ := find?_step hm hf q
    have hmax' (i : Nat) (hi : i ≤ e.function.overloads.length) : l.slot i ≤ unbounded := by
      have := hmax i hi
      rw [hslot i hi, Ledger.saturatingSucc_eq]
      split <;> omega
    obtain ⟨l', hl', hal', hslot'⟩ := ih (hm.step q) hl hmax'
    refine ⟨l', hl', hal', fun i hi => ?_⟩
    rw [hslot' i hi, hslot i hi, run, List.countP_cons, Ledger.saturatingSucc_eq]
    split <;> omega

/-- A run of a compiled mock that is too short for a counter to reach its greatest count. -/
theorem slot_replay {r : Registry} {vars : Vars} {text : String} {e : MockEntry}
    (h : compile r vars text = .ok m) (hf : m.find? name = some e) {qs : List Request}
    (hlen : qs.length < unbounded) :
    ∃ l, (m.replay qs).find? name = some ⟨e.function, l⟩ ∧ MockEntry.Aligned ⟨e.function, l⟩ ∧
      ∀ i ≤ e.function.overloads.length, l.slot i = (m.run qs).countP (Event.reached name i) := by
  obtain ⟨hal, hl⟩ := entry_of_compile h hf
  obtain ⟨l, hl', hal', hslot⟩ := find?_replay (aligned_of_compile h) hf
    (fun i _ => by rw [hl, Ledger.slot_ofOverloads]; omega) qs
  refine ⟨l, hl', hal', fun i hi => ?_⟩
  have hcount := List.countP_le_length (p := Event.reached name i) (l := m.run qs)
  rw [length_run] at hcount
  rw [hslot i hi, hl, Ledger.slot_ofOverloads]
  omega

theorem Aligned.replay (hm : m.Aligned) (qs : List Request) : (m.replay qs).Aligned := by
  induction qs generalizing m with
  | nil => exact hm
  | cons q qs ih => exact ih (hm.step q)

/-- No call takes a function away or changes what it declares. -/
theorem functions_step (m : Mock) (q : Request) : (m.step q).after.functions = m.functions := by
  rcases call_cases m q.name q.args with ⟨-, hc⟩ | ⟨e, cause, -, -, hc⟩ | ⟨e, values, -, -, hc⟩
  · rw [step, hc]
  · rw [step, hc]
  · rw [step, hc]
    exact functions_setLedger m q.name _

theorem functions_replay (m : Mock) (qs : List Request) :
    (m.replay qs).functions = m.functions := by
  induction qs generalizing m with
  | nil => rfl
  | cons q qs ih => exact (ih (m.step q).after).trans (functions_step m q)

theorem function?_eq (m : Mock) (name : String) :
    m.function? name = m.functions.find? (·.name == name) := by
  rw [functions, List.find?_map]
  rfl

theorem function?_replay (m : Mock) (qs : List Request) (name : String) :
    (m.replay qs).function? name = m.function? name := by
  rw [function?_eq, functions_replay, ← function?_eq]

end SchemaMock.Mock
