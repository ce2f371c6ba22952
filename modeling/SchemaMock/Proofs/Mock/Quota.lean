import Mathlib.Data.List.Induction
import SchemaMock.Proofs.Mock.Run

/-! # Limits on calls

An overload is judged by the number of calls that attempted it, also those that it rejected. So the
calls that it wins are among the first ones to attempt it, as many as its limit allows.
-/

namespace SchemaMock

namespace Overload

/-- The schema of an overload takes these arguments and declares these results. -/
structure Accepts (o : Overload) (args returns : List Value) : Prop where
  arity : o.arity = .ok args.length
  valid : (o.bind args).faults true = []
  returns : returnsOf (o.bind args) = .ok returns

variable {o : Overload} {limit attempts : Nat} {args : List Value}

theorem judge_of_exceeded (hm : o.maxCalls = .ok limit) (h : limit < attempts)
    (hu : attempts < Mock.unbounded) :
    o.judge attempts args = .rejected (.maxCallsExceeded limit attempts) := by
  simp only [judge, hm]
  exact if_pos ⟨h, hu⟩

theorem judge_of_accepts {returns : List Value} (hm : o.maxCalls = .ok limit)
    (h : attempts ≤ limit) (ha : o.Accepts args returns) :
    o.judge attempts args = .accepted returns := by
  have hin : ¬ (limit < attempts ∧ attempts < Mock.unbounded) := by omega
  simp [judge, hm, hin, ha.arity, ha.valid, ha.returns]

/-- An overload that accepts a call is within its limit, unless it has been attempted without
bound. -/
theorem le_of_judge_accepted {returns : List Value} (hm : o.maxCalls = .ok limit)
    (h : o.judge attempts args = .accepted returns) (hu : attempts < Mock.unbounded) :
    attempts ≤ limit := by
  by_contra hlt
  rw [judge_of_exceeded hm (by omega) hu] at h
  cases h

theorem lt_of_judge_exceeded {shown count : Nat} (hm : o.maxCalls = .ok limit)
    (h : o.judge attempts args = .rejected (.maxCallsExceeded shown count)) :
    limit < attempts ∧ attempts < Mock.unbounded := by
  by_contra hin
  simp only [judge, hm, if_neg hin] at h
  split at h
  · cases h
  · split at h
    · cases h
    · split at h
      · cases h
      · split at h <;> cases h

end Overload

namespace Mock

open MockFunction

namespace Event

/-- A call of a function that succeeded with the overload `i`. -/
def wonBy (name : String) (i : Nat) (e : Event) : Bool := e.endedAt name i && e.outcome.isOk

/-- The verdict of the overload `i` on a call of a function. -/
def verdictAt (name : String) (i : Nat) (e : Event) : Option Verdict :=
  if e.request.name = name then do
    let entry ← e.before.find? name
    let values ← (e.request.args.mapM Value.ofJson).toOption
    let o ← entry.function.overloads[i]?
    return o.verdict entry.ledger values
  else none

theorem reached_of_wonBy {name : String} {i : Nat} {e : Event} (h : e.wonBy name i = true) :
    e.reached name i = true := by
  rw [wonBy, Bool.and_eq_true] at h
  exact ((reached_eq name i e).1).mpr (.inr h.1)

end Event

/-- If each item of a kind is preceded by fewer than `k` of a wider kind, there are at most `k`. -/
theorem countP_le_of_take {α : Type} {p q : α → Bool} {k : Nat} (xs : List α)
    (hpq : ∀ x, p x = true → q x = true)
    (h : ∀ j x, xs[j]? = some x → p x = true → (xs.take j).countP q < k) : xs.countP p ≤ k := by
  induction xs using List.reverseRecOn with
  | nil => simp
  | append_singleton xs x ih =>
    have hinit : xs.countP p ≤ k := by
      refine ih fun j y hy hp => ?_
      have hj := (List.getElem?_eq_some_iff.mp hy).1
      have := h j y (by rw [List.getElem?_append_left hj]; exact hy) hp
      rwa [List.take_append_of_le_length (by omega)] at this
    rw [List.countP_append, List.countP_singleton]
    split
    case isTrue hx =>
      have hlast := h xs.length x (by simp) hx
      rw [List.take_left'  rfl] at hlast
      have := List.countP_mono_left (l := xs) (fun y _ => hpq y)
      omega
    case isFalse => omega

variable {m : Mock} {name : String}

/-- The verdict with which a call was won. -/
theorem verdict_of_wonBy (hm : m.Aligned) {e : MockEntry} (hf : m.find? name = some e) {q : Request}
    {i : Nat} {o : Overload} (ho : e.function.overloads[i]? = some o)
    (hw : (m.step q).wonBy name i = true) :
    ∃ values returns, o.verdict e.ledger values = .accepted returns := by
  simp only [Event.wonBy, Event.endedAt, Bool.and_eq_true, beq_iff_eq, request_step] at hw
  obtain ⟨⟨rfl, hstop⟩, hok⟩ := hw
  rcases call_cases m q.name q.args with ⟨hnone, -⟩ | ⟨e', c, hf', hv, hc⟩ | ⟨e',
    values, hf', hv, hc⟩
  · rw [hnone] at hf; cases hf
  · simp [step, hc, Except.isOk, Except.toBool] at hok
  · obtain rfl : e' = e := Option.some.inj (hf'.symm.trans hf)
    have hend : e'.function.endOf e'.ledger values = some i := by
      simpa [Event.stop?, step, hf, hv, Except.toOption] using hstop
    obtain ⟨p, hp, hr⟩ := ((hm q.name e' hf).outcome_resolve values).1 i hend
    obtain rfl : p = o := Option.some.inj (hp.symm.trans ho)
    refine ⟨values, ?_⟩
    cases hverdict : p.verdict e'.ledger values with
    | accepted returns => exact ⟨returns, rfl⟩
    | rejected why => rw [hverdict] at hr; cases hr
    | unreadable fault =>
      rw [hverdict] at hr
      have hr := Option.some.inj hr
      simp [step, hc, ← hr, Except.isOk, Except.toBool] at hok

/-- The counter of an overload before an event of a run is the number of earlier calls that
attempted it. -/
theorem attempts_before {r : Registry} {vars : Vars} {text : String} {e : MockEntry}
    (h : compile r vars text = .ok m) (hf : m.find? name = some e) (qs : List Request)
    (hlen : qs.length < unbounded) {i : Nat} (hi : i < e.function.overloads.length) :
    ∃ l, (m.replay qs).find? name = some ⟨e.function, l⟩ ∧
      l.attemptsAt i = (m.run qs).countP (Event.reached name i) ∧
      Ledger.saturatingSucc (l.attemptsAt i) = (m.run qs).countP (Event.reached name i) + 1 ∧
      Ledger.saturatingSucc (l.attemptsAt i) ≤ qs.length + 1 := by
  obtain ⟨l, hl, hal, hslot⟩ := slot_replay h hf hlen
  have hsize : l.overloads = e.function.overloads.length := hal.size
  have hi' := hslot i (by omega)
  rw [Ledger.slot_of_lt (by omega)] at hi'
  have hcount := List.countP_le_length (p := Event.reached name i) (l := m.run qs)
  rw [length_run] at hcount
  refine ⟨l, hl, hi', ?_, ?_⟩ <;> rw [hi', Ledger.saturatingSucc_eq] <;> omega

/-- A call that an overload wins is preceded by fewer attempts of it than its limit. -/
theorem attempts_lt_of_wonBy {r : Registry} {vars : Vars} {text : String} {e : MockEntry}
    (h : compile r vars text = .ok m) (hf : m.find? name = some e) {qs : List Request} {q : Request}
    (hlen : qs.length + 1 < unbounded) {i limit : Nat} {o : Overload}
    (ho : e.function.overloads[i]? = some o) (hlimit : o.maxCalls = .ok limit)
    (hw : ((m.replay qs).step q).wonBy name i = true) :
    (m.run qs).countP (Event.reached name i) < limit := by
  have hi := (List.getElem?_eq_some_iff.mp ho).1
  obtain ⟨l, hl, -, hsucc, hle⟩ := attempts_before h hf qs (by omega) hi
  have hal := (aligned_of_compile h).replay qs
  obtain ⟨values, returns, hv⟩ := verdict_of_wonBy hal hl ho hw
  have hindex : o.index = i := (hal name _ hl).indexed.index_of_getElem? ho
  rw [Overload.verdict, hindex] at hv
  have hin : Ledger.saturatingSucc (l.attemptsAt i) ≤ limit := by
    refine Overload.le_of_judge_accepted hlimit hv ?_
    show Ledger.saturatingSucc (l.attemptsAt i) < unbounded
    omega
  omega

/-- The verdict in a step of a run, spelled out. -/
theorem verdictAt_step {e : MockEntry} (hf : m.find? name = some e) {q : Request} {i : Nat}
    {v : Verdict} (hv : (m.step q).verdictAt name i = some v) :
    ∃ o values, e.function.overloads[i]? = some o ∧ v = o.verdict e.ledger values := by
  unfold Event.verdictAt at hv
  split at hv
  case isTrue hn =>
    rw [before_step, hf] at hv
    simp only [Option.bind_eq_bind, Option.bind_some, Option.bind_eq_some_iff] at hv
    obtain ⟨values, -, o, ho, hv⟩ := hv
    exact ⟨o, values, ho, (Option.some.inj hv).symm⟩
  case isFalse => cases hv

/-- The outcome of a call of a function with a single overload that accepts its arguments. -/
def quotaOutcome (name : String) (limit : Nat) (returns : List Value) (j : Nat) :
    Except MockFault (List Value) :=
  if j < limit then .ok returns else .error (.noMatch name [⟨0, .maxCallsExceeded limit (j + 1)⟩])

theorem resolve_of_single {e : MockEntry} {o : Overload} (ho : e.function.overloads = [o])
    {limit j : Nat} {args returns : List Value} (hindex : o.index = 0)
    (hlimit : o.maxCalls = .ok limit) (ha : o.Accepts args returns)
    (hj : Ledger.saturatingSucc (e.ledger.attemptsAt 0) = j + 1) (hu : j + 1 < unbounded) :
    (e.function.resolve e.ledger args).1 = quotaOutcome e.function.name limit returns j := by
  simp only [resolve, ho, tryOverloads, Ledger.recordAttempt, hindex, hj, quotaOutcome]
  by_cases h : j < limit
  · rw [Overload.judge_of_accepts hlimit (by omega) ha, if_pos h]
  · rw [Overload.judge_of_exceeded hlimit (by omega) hu, if_neg h]
    rfl

/-- Calls of a function with a single overload that accepts their arguments succeed as often as its
limit allows, and fail from then on, whatever other functions are called in between. -/
theorem outcomes_of_single {r : Registry} {vars : Vars} {text : String} {f : MockFunction}
    (h : compile r vars text = .ok m) (hf : m.function? name = some f) {o : Overload}
    (ho : f.overloads = [o]) {limit : Nat} {args : List Json} {values returns : List Value}
    (hlimit : o.maxCalls = .ok limit) (hv : args.mapM Value.ofJson = .ok values)
    (ha : o.Accepts values returns) {qs : List Request} (hlen : qs.length < unbounded)
    (hargs : ∀ q ∈ qs, q.name = name → q.args = args) :
    (((m.run qs).filter (·.request.name == name)).map (·.outcome) =
      (List.range (qs.countP (·.name == name))).map (quotaOutcome name limit returns)) ∧
    (m.run qs).countP (Event.reached name 0) = qs.countP (·.name == name) := by
  obtain ⟨e, he, rfl⟩ := Option.map_eq_some_iff.mp hf
  have hpos : 0 < e.function.overloads.length := by rw [ho]; exact Nat.one_pos
  induction qs using List.reverseRecOn with
  | nil => exact ⟨rfl, rfl⟩
  | append_singleton qs q ih =>
    rw [List.length_append, List.length_singleton] at hlen
    obtain ⟨hout, hcount⟩ := ih (by omega) fun p hp => hargs p (by simp [hp])
    obtain ⟨l, hl, -, hsucc, hle⟩ := attempts_before h he qs (by omega) hpos
    have hal := (aligned_of_compile h).replay qs
    rw [run_append, List.filter_append, List.map_append, List.countP_append, List.countP_append,
      hout, hcount]
    simp only [run, List.countP_singleton]
    by_cases hn : q.name = name
    · have hq := hargs q (by simp) hn
      subst hn
      have hindex : o.index = 0 := (hal q.name _ hl).indexed.index_of_getElem? (by simp [ho])
      have houtcome : ((m.replay qs).step q).outcome =
          quotaOutcome q.name limit returns (qs.countP (·.name == q.name)) := by
        have hres := resolve_of_single (e := ⟨e.function, l⟩) ho hindex hlimit ha hsucc
          (by omega)
        rw [hcount, name_of_find? hl] at hres
        rw [step, hq, call_of_find? hl hv]
        exact hres
      have hstop : ((m.replay qs).step q).stop? = some (e.function.endOf l values) := by
        simp [Event.stop?, hl, hq, hv, Except.toOption]
      have hreached : ((m.replay qs).step q).reached q.name 0 = true := by
        simp [Event.reached, hstop]
      simp [houtcome, hreached, List.range_succ]
    · have hreached : ((m.replay qs).step q).reached name 0 = false := by
        simp [Event.reached, hn]
      simp [hn, hreached]

/-- Along every run of a compiled mock that is too short for a counter to overflow: an overload with
a limit wins at most that many calls, each of them among the first that many to attempt it; an
overload without one is never exhausted; and identical calls of a function with a single overload
that accepts them succeed exactly as often as its limit allows. -/
theorem quota_of_run {r : Registry} {vars : Vars} {text : String} {f : MockFunction}
    (h : compile r vars text = .ok m) (hf : m.function? name = some f) {qs : List Request}
    (hlen : qs.length < unbounded) :
    (∀ i o limit, f.overloads[i]? = some o → o.maxCalls = .ok limit →
      (limit < unbounded → (m.run qs).countP (Event.wonBy name i) ≤ limit ∧
        ∀ k e, (m.run qs)[k]? = some e → e.wonBy name i = true →
          ((m.run qs).take k).countP (Event.reached name i) < limit) ∧
      (limit = unbounded → ∀ e ∈ m.run qs, ∀ shown count,
        e.verdictAt name i ≠ some (.rejected (.maxCallsExceeded shown count)))) ∧
    ∀ o limit args values returns, f.overloads = [o] → o.maxCalls = .ok limit →
      args.mapM Value.ofJson = .ok values → o.Accepts values returns →
      (∀ q ∈ qs, q.name = name → q.args = args) →
      ((m.run qs).filter (·.request.name == name)).map (·.outcome) =
        (List.range (qs.countP (·.name == name))).map (quotaOutcome name limit returns) := by
  refine ⟨fun i o limit ho hlimit => ⟨fun _ => ?_, fun hu e he shown count hv => ?_⟩, ?_⟩
  · obtain ⟨entry, he, rfl⟩ := Option.map_eq_some_iff.mp hf
    have hbefore (k : Nat) (e : Event) (hk : (m.run qs)[k]? = some e) (hw : e.wonBy name i = true) :
        ((m.run qs).take k).countP (Event.reached name i) < limit := by
      obtain ⟨q, hq, rfl⟩ := getElem?_run hk
      have hkl := (List.getElem?_eq_some_iff.mp hq).1
      rw [take_run]
      exact attempts_lt_of_wonBy h he (by rw [List.length_take]; omega) ho hlimit hw
    exact ⟨countP_le_of_take _ (fun _ => Event.reached_of_wonBy) hbefore, hbefore⟩
  · obtain ⟨front, q, rfl⟩ := step_of_mem_run he
    obtain ⟨entry, hentry, rfl⟩ := Option.map_eq_some_iff.mp
      ((function?_replay m front name).trans hf)
    obtain ⟨p, values, hp, hverdict⟩ := verdictAt_step hentry hv
    obtain rfl : p = o := Option.some.inj (hp.symm.trans ho)
    have hlt := Overload.lt_of_judge_exceeded hlimit hverdict.symm
    omega
  · intro o limit args values returns ho hlimit hv ha hargs
    exact (outcomes_of_single h hf ho hlimit hv ha hlen hargs).1

/-- The single overload of the function `P` may be called once, and accepts a call. -/
def isOnce (m : Mock) : Bool :=
  match m.function? "P" with
  | some ⟨_, [o]⟩ =>
    o.maxCalls.toOption == some 1 && o.arity.toOption == some 0 &&
      ((o.bind []).faults true).isEmpty && (Overload.returnsOf (o.bind [])).isOk
  | _ => false

theorem quota_of_run_once : ∃ m f o returns, compile .empty .empty onceText = .ok m ∧
    m.function? "P" = some f ∧ f.overloads = [o] ∧ o.maxCalls = .ok 1 ∧ o.Accepts [] returns ∧
    ((m.run [⟨"P", []⟩, ⟨"P", []⟩]).filter (·.request.name == "P")).map (·.outcome) =
      [.ok returns, .error (.noMatch "P" [⟨0, .maxCallsExceeded 1 2⟩])] := by
  obtain ⟨m, hm, ht⟩ := exists_of_compilesTo onceText isOnce (by decide +kernel)
  unfold isOnce at ht
  split at ht
  case h_1 name o hf =>
    simp only [Bool.and_eq_true, beq_iff_eq, List.isEmpty_iff] at ht
    obtain ⟨⟨⟨hlimit, harity⟩, hvalid⟩, hreturns⟩ := ht
    cases hl : o.maxCalls with
    | error c => rw [hl] at hlimit; cases hlimit
    | ok limit =>
      cases ha : o.arity with
      | error c => rw [ha] at harity; cases harity
      | ok arity =>
        cases hr : Overload.returnsOf (o.bind []) with
        | error c => rw [hr] at hreturns; cases hreturns
        | ok returns =>
          rw [hl] at hlimit
          rw [ha] at harity
          cases hlimit
          cases harity
          have haccepts : o.Accepts [] returns := ⟨ha, hvalid, hr⟩
          refine ⟨m, ⟨name, [o]⟩, o, returns, hm, hf, rfl, hl, haccepts, ?_⟩
          have hlen : ([⟨"P", []⟩, ⟨"P", []⟩] : List Request).length < unbounded := by decide
          exact (quota_of_run hm hf hlen).2 o 1 [] [] returns rfl hl rfl haccepts (by simp)
  case h_2 => cases ht

end Mock

end SchemaMock
