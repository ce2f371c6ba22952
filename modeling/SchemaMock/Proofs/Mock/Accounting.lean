import SchemaMock.Proofs.Mock.Run

/-! # The accounts of a run

A call that fails before resolution counts nowhere. Every other call of a function counts in the
slots up to the one where it ended, so that neighbouring slots differ by the calls that ended
between them: what comes in at the first slot leaves at one of the overloads or in the last slot.
-/

namespace SchemaMock.Mock

open MockFunction

namespace Event

def refused (e : Event) : Bool :=
  match e.outcome with
  | .error (.functionNotFound _) => true
  | .error (.encode ..) => true
  | _ => false

/-- The call ended with a result, or with a declaration that cannot be used. -/
def settled (e : Event) : Bool :=
  match e.outcome with
  | .ok _ => true
  | .error (.schema ..) => true
  | _ => false

def resolved (name : String) (e : Event) : Bool := e.request.name == name && !e.refused

/-- A call of a function that no overload accepted. -/
def unmatched (name : String) (e : Event) : Bool :=
  e.request.name == name &&
    match e.outcome with
    | .error (.noMatch ..) => true
    | _ => false

end Event

variable {m : Mock} {name : String}

/-- A step is refused, or settled at one of the overloads, or matches none of them. -/
theorem outcome_step (hm : m.Aligned) (q : Request) :
    ((m.step q).stop? = none ∧ (m.step q).refused = true) ∨
    (∃ d e, m.find? q.name = some e ∧ d < e.function.overloads.length ∧
      (m.step q).stop? = some (some d) ∧ (m.step q).settled = true) ∨
    ((m.step q).stop? = some none ∧ ∃ failures, (m.step q).outcome = .error (.noMatch q.name failures)) := by
  rcases call_cases m q.name q.args with ⟨hf, hc⟩ | ⟨e, c, hf, hv, hc⟩ | ⟨e, values, hf, hv, hc⟩
  · exact .inl ⟨by simp [Event.stop?, step, hf], by simp [Event.refused, step, hc]⟩
  · refine .inl ⟨by simp [Event.stop?, step, hv, Except.toOption], ?_⟩
    simp [Event.refused, step, hc]
  · have hstop : (m.step q).stop? = some (e.function.endOf e.ledger values) := by
      simp [Event.stop?, step, hf, hv, Except.toOption]
    obtain ⟨hsome, hnone⟩ := (hm q.name e hf).outcome_resolve values
    cases hd : e.function.endOf e.ledger values with
    | some d =>
      obtain ⟨o, ho, hr⟩ := hsome d hd
      refine .inr (.inl ⟨d, e, hf, (List.getElem?_eq_some_iff.mp ho).1, by rw [hstop, hd], ?_⟩)
      cases hverdict : o.verdict e.ledger values <;> rw [hverdict] at hr <;>
        simp [Verdict.settled?] at hr <;> simp [Event.settled, step, hc, ← hr]
    | none =>
      refine .inr (.inr ⟨by rw [hstop, hd],
        failuresFrom 0 (verdicts e.function.overloads e.ledger values), ?_⟩)
      rw [step, hc, hnone hd, name_of_find? hf]

/-- The first slot counts the calls that were resolved. -/
theorem reached_zero_step (hm : m.Aligned) (q : Request) :
    (m.step q).reached name 0 = (m.step q).resolved name := by
  rcases outcome_step hm q with ⟨hs, hr⟩ | ⟨d, e, -, -, hs, hr⟩ | ⟨hs, failures, hr⟩
  · simp [Event.reached, Event.resolved, hs, hr]
  · have : (m.step q).refused = false := by
      unfold Event.settled at hr
      unfold Event.refused
      split at hr <;> simp_all
    simp [Event.reached, Event.resolved, hs, this]
  · simp [Event.reached, Event.resolved, Event.refused, hs, hr]

/-- The last slot counts the calls that no overload accepted. -/
theorem reached_last_step (hm : m.Aligned) {e : MockEntry} (hf : m.find? name = some e)
    (q : Request) :
    (m.step q).reached name e.function.overloads.length = (m.step q).unmatched name := by
  by_cases hn : q.name = name
  · subst hn
    rcases outcome_step hm q with ⟨hs, hr⟩ | ⟨d, e', hf', hd, hs, hr⟩ | ⟨hs, failures, hr⟩
    · unfold Event.refused at hr
      split at hr <;> simp_all [Event.reached, Event.unmatched]
    · obtain rfl : e' = e := Option.some.inj (hf'.symm.trans hf)
      have hd' : ¬ e'.function.overloads.length ≤ d := by omega
      unfold Event.settled at hr
      split at hr <;> simp_all [Event.reached, Event.unmatched]
    · simp [Event.reached, Event.unmatched, hs, hr]
  · have hne : (q.name == name) = false := by simpa using hn
    simp [Event.reached, Event.unmatched, hne]

theorem countP_run_congr {p p' : Event → Bool} (qs : List Request)
    (h : ∀ front q, p ((m.replay front).step q) = p' ((m.replay front).step q)) :
    (m.run qs).countP p = (m.run qs).countP p' := by
  refine List.countP_congr fun e he => ?_
  obtain ⟨front, q, rfl⟩ := step_of_mem_run he
  rw [h]

/-- The accounts of a function and the calls of a run agree. -/
structure Balanced (name : String) (f : MockFunction) (es : List Event) (l : Ledger) : Prop where
  size : l.overloads = f.overloads.length
  descending : ∀ i, i + 1 < l.overloads → l.attemptsAt (i + 1) ≤ l.attemptsAt i
  unmatched_le : 0 < l.overloads → l.unmatched ≤ l.attemptsAt (l.overloads - 1)
  ended : ∀ i, i + 1 < l.overloads →
    l.attemptsAt i - l.attemptsAt (i + 1) = es.countP (Event.endedAt name i)
  ended_last : 0 < l.overloads → l.attemptsAt (l.overloads - 1) - l.unmatched =
    es.countP (Event.endedAt name (l.overloads - 1))
  unmatched : l.unmatched = es.countP (Event.unmatched name)
  resolved : (if l.overloads = 0 then l.unmatched else l.attemptsAt 0) =
    es.countP (Event.resolved name)

/-- Slots that count the calls that reach them balance. -/
theorem balanced_of_slots {f : MockFunction} {es : List Event} {l : Ledger}
    (size : l.overloads = f.overloads.length)
    (slots : ∀ i ≤ l.overloads, l.slot i = es.countP (Event.reached name i))
    (first : es.countP (Event.reached name 0) = es.countP (Event.resolved name))
    (last : es.countP (Event.reached name l.overloads) = es.countP (Event.unmatched name)) :
    Balanced name f es l := by
  have attempts (i : Nat) (hi : i < l.overloads) :
      l.attemptsAt i = es.countP (Event.reached name i) := by
    rw [← slots i (by omega), Ledger.slot_of_lt hi]
  have unmatched : l.unmatched = es.countP (Event.reached name l.overloads) := by
    rw [← slots _ (Nat.le_refl _), Ledger.slot_overloads]
  have next (i : Nat) := countP_reached name i es
  refine ⟨size, fun i hi => ?_, fun h => ?_, fun i hi => ?_,
    fun h => ?_, by rw [unmatched, last], ?_⟩
  · rw [attempts i (by omega), attempts (i + 1) hi, next i]
    omega
  · have hn := next (l.overloads - 1)
    rw [Nat.sub_add_cancel h] at hn
    rw [attempts _ (by omega), unmatched, hn]
    omega
  · rw [attempts i (by omega), attempts (i + 1) hi, next i]
    omega
  · have hn := next (l.overloads - 1)
    rw [Nat.sub_add_cancel h] at hn
    rw [attempts _ (by omega), unmatched, hn]
    omega
  · rw [← first]
    split
    case isTrue h => rw [unmatched, h]
    case isFalse h => exact attempts 0 (by omega)

/-- A call of a function is settled exactly when it ends at one of its overloads. -/
theorem settled_step_iff (hm : m.Aligned) {f : MockFunction} (hf : m.function? name = some f)
    {q : Request} (hn : q.name = name) :
    (m.step q).settled = true ↔ ∃ i < f.overloads.length, (m.step q).endedAt name i = true := by
  subst hn
  rcases outcome_step hm q with ⟨hs, hr⟩ | ⟨d, e, hf', hd, hs, hr⟩ | ⟨hs, failures, hr⟩
  · unfold Event.refused at hr
    split at hr <;> simp_all [Event.settled, Event.endedAt]
  · rw [function?, hf'] at hf
    cases hf
    simp [hr, Event.endedAt, hs, hd]
  · simp [Event.settled, hr, Event.endedAt, hs]

theorem after_of_refused (hm : m.Aligned) {q : Request} (h : (m.step q).refused = true) :
    (m.step q).after = m := by
  rcases outcome_step hm q with ⟨hs, -⟩ | ⟨d, e, -, -, -, hr⟩ | ⟨-, failures, hr⟩
  · exact after_of_stop?_eq_none hs
  · unfold Event.settled at hr
    unfold Event.refused at h
    split at hr <;> simp_all
  · simp [Event.refused, hr] at h

/-- Along every run of a compiled mock that is too short for a counter to overflow, the ledger of
each function balances with the calls made of it, calls that are refused change no ledger, and no
call changes the ledger of another function. -/
theorem accounts_of_run {r : Registry} {vars : Vars} {text : String}
    (h : compile r vars text = .ok m) {qs : List Request} (hlen : qs.length < unbounded) :
    (∀ name f, m.function? name = some f →
      (∃ l, (m.replay qs).ledger? name = some l ∧ Balanced name f (m.run qs) l) ∧
      ∀ e ∈ m.run qs, e.request.name = name →
        (e.settled = true ↔ ∃ i < f.overloads.length, e.endedAt name i = true)) ∧
    ∀ e ∈ m.run qs, (e.refused = true → e.after = e.before) ∧
      ∀ other, other ≠ e.request.name → e.after.ledger? other = e.before.ledger? other := by
  have hm := aligned_of_compile h
  refine ⟨fun name f hf => ⟨?_, fun e he hn => ?_⟩, fun e he => ?_⟩
  · obtain ⟨e, he, rfl⟩ := Option.map_eq_some_iff.mp hf
    obtain ⟨l, hl, hal, hslot⟩ := slot_replay h he hlen
    have hsize : l.overloads = e.function.overloads.length := hal.size
    refine ⟨l, by rw [ledger?, hl]; rfl, balanced_of_slots hsize (by rwa [hsize]) ?_ ?_⟩
    · exact countP_run_congr qs fun front q => reached_zero_step (hm.replay front) q
    · refine countP_run_congr qs fun front q => ?_
      obtain ⟨e', he', hfun⟩ := Option.map_eq_some_iff.mp ((function?_replay m front name).trans hf)
      rw [hsize, ← hfun]
      exact reached_last_step (hm.replay front) he' q
  · obtain ⟨front, q, rfl⟩ := step_of_mem_run he
    exact settled_step_iff (hm.replay front) ((function?_replay m front name).trans hf) hn
  · obtain ⟨front, q, rfl⟩ := step_of_mem_run he
    refine ⟨after_of_refused (hm.replay front), fun other ho => ?_⟩
    exact congrArg (Option.map (·.ledger)) (find?_step_of_ne (Ne.symm ho))

/-- Calls that win, exhaust the limit and name no function. -/
def onceCalls : List Request := [⟨"P", []⟩, ⟨"P", []⟩, ⟨"Q", []⟩]

theorem accounts_of_run_once : ∃ m f l, compile .empty .empty onceText = .ok m ∧
    onceCalls.length < unbounded ∧ m.function? "P" = some f ∧
    (m.replay onceCalls).ledger? "P" = some l ∧ l = ⟨[2], 1⟩ ∧
    Balanced "P" f (m.run onceCalls) l := by
  obtain ⟨m, hm, ht⟩ := exists_of_compilesTo onceText
    (fun m => (m.replay onceCalls).ledger? "P" == some ⟨[2], 1⟩ &&
      (m.function? "P").isSome) (by decide +kernel)
  rw [Bool.and_eq_true, beq_iff_eq] at ht
  obtain ⟨f, hf⟩ := Option.isSome_iff_exists.mp ht.2
  have hlen : onceCalls.length < unbounded := by decide
  obtain ⟨l, hl, hbalanced⟩ := ((accounts_of_run hm hlen).1 "P" f hf).1
  exact ⟨m, f, l, hm, hlen, hf, hl, Option.some.inj (hl.symm.trans ht.1), hbalanced⟩

end SchemaMock.Mock
