import SchemaMock.Mock.Call

/-! # The verdicts of the overloads on a call

Each overload has a verdict on a call, which depends on its own counter only. A call ends at the
first overload that does not reject it, and it counts once in the slot of each overload up to that
one; if all reject it, it counts in all of them and in the last slot, that of unmatched calls.
-/

namespace SchemaMock

namespace Verdict

def isRejected : Verdict → Bool
  | rejected _ => true
  | _ => false

/-- What a verdict makes of a call, if the call ends with it. -/
def settled? (name : String) : Verdict → Option (Except MockFault (List Value))
  | accepted returns => some (.ok returns)
  | unreadable f => some (.error (.schema name f))
  | rejected _ => none

end Verdict

namespace Ledger

/-- The counters in order: one for each overload, then the one of unmatched calls. -/
def slot (l : Ledger) (i : Nat) : Nat := if i < l.overloads then l.attemptsAt i else l.unmatched

@[simp] theorem slot_of_lt {l : Ledger} {i : Nat} (h : i < l.overloads) :
    l.slot i = l.attemptsAt i :=
  if_pos h

@[simp] theorem slot_overloads (l : Ledger) : l.slot l.overloads = l.unmatched := if_neg (by omega)

theorem saturatingSucc_eq (n : Nat) : saturatingSucc n = min (n + 1) Mock.unbounded := rfl

theorem attemptsAt_recordAttempt {l : Ledger} {i : Nat} (h : i < l.overloads) (j : Nat) :
    (l.recordAttempt i).2.attemptsAt j =
      if j = i then saturatingSucc (l.attemptsAt i) else l.attemptsAt j := by
  have hi : i < l.attempts.length := h
  by_cases hj : j = i
  · subst hj
    simp [recordAttempt, attemptsAt, hi]
  · have hne : ¬ i = j := fun h => hj h.symm
    by_cases hlt : j < l.attempts.length <;>
      simp [recordAttempt, attemptsAt, hj, hne, hlt]

theorem slot_recordAttempt {l : Ledger} {i : Nat} (h : i < l.overloads) (j : Nat) :
    (l.recordAttempt i).2.slot j = if j = i then saturatingSucc (l.slot i) else l.slot j := by
  unfold slot
  rw [overloads_recordAttempt, attemptsAt_recordAttempt h, if_pos h]
  by_cases hj : j = i
  · subst hj
    simp [h]
  · simp [hj, recordAttempt]

theorem slot_recordUnmatched (l : Ledger) {j : Nat} (hj : j ≤ l.overloads) :
    l.recordUnmatched.slot j = if j = l.overloads then saturatingSucc (l.slot j) else l.slot j := by
  by_cases h : j = l.overloads
  · subst h
    rw [if_pos rfl, slot_overloads, ← overloads_recordUnmatched, slot_overloads]
    rfl
  · have hlt : j < l.overloads := by omega
    have hlt' : j < l.recordUnmatched.overloads := hlt
    rw [if_neg h, slot_of_lt hlt, slot_of_lt hlt']
    rfl

theorem attemptsAt_ofOverloads (n i : Nat) : (ofOverloads n).attemptsAt i = 0 := by
  by_cases h : i < n <;> simp [ofOverloads, attemptsAt, h]

theorem slot_ofOverloads (n i : Nat) : (ofOverloads n).slot i = 0 := by
  unfold slot
  split
  · exact attemptsAt_ofOverloads n i
  · rfl

end Ledger

namespace Overload

def verdict (o : Overload) (l : Ledger) (args : List Value) : Verdict :=
  o.judge (Ledger.saturatingSucc (l.attemptsAt o.index)) args

/-- A verdict depends on the counter of its own overload only. -/
theorem verdict_recordAttempt {o : Overload} {l : Ledger} {args : List Value} {k : Nat}
    (hk : k < l.overloads) (h : o.index ≠ k) :
    o.verdict (l.recordAttempt k).2 args = o.verdict l args := by
  rw [verdict, verdict, Ledger.attemptsAt_recordAttempt hk, if_neg h]

end Overload

namespace MockFunction

def verdicts (os : List Overload) (l : Ledger) (args : List Value) : List Verdict :=
  os.map (·.verdict l args)

def stop? (vs : List Verdict) : Option Nat := vs.findIdx? (!·.isRejected)

def endOf (f : MockFunction) (l : Ledger) (args : List Value) : Option Nat :=
  stop? (verdicts f.overloads l args)

/-- The rejections among verdicts, with their places from `k` on. -/
def failuresFrom (k : Nat) : List Verdict → List OverloadFailure
  | [] => []
  | .rejected why :: vs => ⟨k, why⟩ :: failuresFrom (k + 1) vs
  | _ :: vs => failuresFrom (k + 1) vs

/-- A call counts in each slot up to the one of the overload at which it ends. -/
def reaches (stop : Option Nat) (i : Nat) : Bool := stop.all fun j => decide (i ≤ j)

/-- Overloads that carry their positions, from `k` on. -/
def IndexedFrom (k : Nat) (os : List Overload) : Prop := os.map (·.index) = List.range' k os.length

theorem IndexedFrom.head {k : Nat} {o : Overload} {os : List Overload}
    (h : IndexedFrom k (o :: os)) : o.index = k := by
  simp only [IndexedFrom, List.map_cons, List.length_cons, List.range'_succ, List.cons.injEq] at h
  exact h.1

theorem IndexedFrom.tail {k : Nat} {o : Overload} {os : List Overload}
    (h : IndexedFrom k (o :: os)) : IndexedFrom (k + 1) os := by
  simp only [IndexedFrom, List.map_cons, List.length_cons, List.range'_succ, List.cons.injEq] at h
  exact h.2

theorem IndexedFrom.le_index {k : Nat} {o : Overload} {os : List Overload} (h : IndexedFrom k os)
    (ho : o ∈ os) : k ≤ o.index := by
  have hm : o.index ∈ List.range' k os.length := h ▸ List.mem_map_of_mem ho
  exact (List.mem_range'_1.mp hm).1

theorem IndexedFrom.index_of_getElem? {os : List Overload} (h : IndexedFrom 0 os) {i : Nat}
    {o : Overload} (ho : os[i]? = some o) : o.index = i := by
  obtain ⟨hi, rfl⟩ := List.getElem?_eq_some_iff.mp ho
  have hget := congrArg (·[i]?) h
  simpa [hi] using hget

/-- Counting an attempt of an overload leaves the verdicts of the later ones as they were. -/
theorem verdicts_tail {k : Nat} {o : Overload} {os : List Overload} {l : Ledger} {args : List Value}
    (h : IndexedFrom k (o :: os)) (hk : k < l.overloads) :
    verdicts os (l.recordAttempt k).2 args = verdicts os l args := by
  refine List.map_congr_left fun p hp => Overload.verdict_recordAttempt hk ?_
  have := h.tail.le_index hp
  omega

/-- The first overload either settles the call or hands it on. -/
theorem tryOverloads_cons (name : String) (args : List Value) (failed : List OverloadFailure)
    (l : Ledger) (o : Overload) (os : List Overload) :
    (∃ r, (o.verdict l args).settled? name = some r ∧
      tryOverloads name args failed l (o :: os) = (r, (l.recordAttempt o.index).2)) ∨
    (∃ why, o.verdict l args = .rejected why ∧ tryOverloads name args failed l (o :: os) =
      tryOverloads name args (failed ++ [⟨o.index, why⟩]) (l.recordAttempt o.index).2 os) := by
  have hv : o.verdict l args = o.judge (l.recordAttempt o.index).1 args := rfl
  rw [tryOverloads]
  cases h : o.judge (l.recordAttempt o.index).1 args with
  | accepted returns => exact .inl ⟨.ok returns, by rw [hv, h]; rfl, by simp only [h]⟩
  | rejected why => exact .inr ⟨why, by rw [hv, h], by simp only [h]⟩
  | unreadable f => exact .inl ⟨.error (.schema name f), by rw [hv, h]; rfl, by simp only [h]⟩

theorem stop?_cons (v : Verdict) (vs : List Verdict) :
    stop? (v :: vs) = if v.isRejected then (stop? vs).map (· + 1) else some 0 := by
  cases h : v.isRejected <;> simp [stop?, List.findIdx?_cons, h]

@[simp] theorem reaches_zero (stop : Option Nat) : reaches stop 0 = true := by
  cases stop <;> simp [reaches]

@[simp] theorem reaches_none (i : Nat) : reaches none i = true := rfl

@[simp] theorem reaches_some (j i : Nat) : reaches (some j) i = decide (i ≤ j) := rfl

@[simp] theorem reaches_map_succ (stop : Option Nat) (i : Nat) :
    reaches (stop.map (· + 1)) (i + 1) = reaches stop i := by
  cases stop <;> simp [reaches]

/-- Trying the overloads from `k` on counts the call in the slots that it reaches, and in no slot
before. -/
theorem slot_tryOverloads (name : String) (args : List Value) {os : List Overload} :
    ∀ {k : Nat} {l : Ledger} (failed : List OverloadFailure), IndexedFrom k os →
      k + os.length = l.overloads →
      (tryOverloads name args failed l os).2.overloads = l.overloads ∧
      (∀ i < k, (tryOverloads name args failed l os).2.slot i = l.slot i) ∧
      ∀ d ≤ os.length, (tryOverloads name args failed l os).2.slot (k + d) =
        if reaches (stop? (verdicts os l args)) d then Ledger.saturatingSucc (l.slot (k + d))
        else l.slot (k + d) := by
  induction os with
  | nil =>
    intro k l failed _ hk
    have hk : k = l.overloads := by simpa using hk
    refine ⟨rfl, fun i hi => ?_, fun d hd => ?_⟩
    · rw [tryOverloads, Ledger.slot_recordUnmatched l (by omega), if_neg (by omega)]
    · obtain rfl : d = 0 := by simpa using hd
      rw [tryOverloads, Ledger.slot_recordUnmatched l (by omega), if_pos (by omega),
        reaches_zero, if_pos rfl]
  | cons o os ih =>
    intro k l failed hix hk
    rw [List.length_cons] at hk
    have hlt : k < l.overloads := by omega
    have hhead := hix.head
    rcases tryOverloads_cons name args failed l o os with ⟨r, hv, heq⟩ | ⟨why, hv, heq⟩
    · have hstop : (o.verdict l args).isRejected = false := by
        cases h : o.verdict l args <;> simp_all [Verdict.settled?, Verdict.isRejected]
      rw [heq, hhead, verdicts, List.map_cons, stop?_cons, hstop]
      refine ⟨Ledger.overloads_recordAttempt l k, fun i hi => ?_, fun d _ => ?_⟩
      · rw [Ledger.slot_recordAttempt hlt, if_neg (by omega)]
      · rw [Ledger.slot_recordAttempt hlt]
        by_cases hd : d = 0 <;> simp [hd]
    · have hgo : (o.verdict l args).isRejected = true := by rw [hv]; rfl
      have hsize := Ledger.overloads_recordAttempt l k
      obtain ⟨hover, hbefore, hslot⟩ := ih (failed ++ [⟨k, why⟩]) hix.tail
        (l := (l.recordAttempt k).2) (by omega)
      rw [heq, hhead]
      refine ⟨hover.trans hsize, fun i hi => ?_, fun d hd => ?_⟩
      · rw [hbefore i (by omega), Ledger.slot_recordAttempt hlt, if_neg (by omega)]
      · rw [verdicts, List.map_cons, stop?_cons, hgo, if_pos rfl]
        cases d with
        | zero =>
          rw [hbefore (k + 0) (by omega), Ledger.slot_recordAttempt hlt, if_pos (by omega),
            reaches_zero, if_pos rfl]
          rfl
        | succ d =>
          rw [List.length_cons] at hd
          have hsucc : k + (d + 1) = k + 1 + d := by omega
          have hne : k + 1 + d ≠ k := by omega
          rw [hsucc, hslot d (by omega), verdicts_tail hix hlt, Ledger.slot_recordAttempt hlt,
            if_neg hne, reaches_map_succ]
          rfl

/-- A call that stops has the outcome of the verdict there; any other matches no overload. -/
theorem outcome_tryOverloads (name : String) (args : List Value) {os : List Overload} :
    ∀ {k : Nat} {l : Ledger} (failed : List OverloadFailure), IndexedFrom k os →
      k + os.length = l.overloads →
      (∀ d, stop? (verdicts os l args) = some d → ∃ o, os[d]? = some o ∧
        (o.verdict l args).settled? name = some (tryOverloads name args failed l os).1) ∧
      (stop? (verdicts os l args) = none → (tryOverloads name args failed l os).1 =
        .error (.noMatch name (failed ++ failuresFrom k (verdicts os l args)))) := by
  induction os with
  | nil =>
    intro k l failed _ _
    exact ⟨fun d hd => by simp [verdicts, stop?] at hd,
      fun _ => by simp [tryOverloads, verdicts, failuresFrom]⟩
  | cons o os ih =>
    intro k l failed hix hk
    rw [List.length_cons] at hk
    have hlt : k < l.overloads := by omega
    have hhead := hix.head
    rcases tryOverloads_cons name args failed l o os with ⟨r, hv, heq⟩ | ⟨why, hv, heq⟩
    · have hstop : (o.verdict l args).isRejected = false := by
        cases h : o.verdict l args <;> simp_all [Verdict.settled?, Verdict.isRejected]
      rw [heq, verdicts, List.map_cons, stop?_cons, hstop]
      refine ⟨fun d hd => ⟨o, ?_, hv⟩, fun h => by simp at h⟩
      have hd : 0 = d := by simpa using hd
      rw [← hd, List.getElem?_cons_zero]
    · have hsize := Ledger.overloads_recordAttempt l k
      obtain ⟨hsome, hnone⟩ := ih (failed ++ [⟨k, why⟩]) hix.tail
        (l := (l.recordAttempt k).2) (by omega)
      rw [verdicts_tail hix hlt] at hsome hnone
      rw [heq, hhead, verdicts, List.map_cons, stop?_cons, hv]
      refine ⟨fun d hd => ?_, fun h => ?_⟩
      · obtain ⟨d', hd', rfl⟩ : ∃ d', stop? (verdicts os l args) = some d' ∧ d' + 1 = d := by
          simpa [Verdict.isRejected, verdicts] using hd
        obtain ⟨p, hp, hr⟩ := hsome d' hd'
        have hmem : p ∈ os := List.mem_of_getElem? hp
        have hpk : p.index ≠ k := by have := hix.tail.le_index hmem; omega
        rw [Overload.verdict_recordAttempt hlt hpk] at hr
        exact ⟨p, hp, hr⟩
      · have h' : stop? (verdicts os l args) = none := by
          simpa [Verdict.isRejected, verdicts] using h
        rw [hnone h', failuresFrom, List.append_assoc]
        rfl

end MockFunction

namespace MockEntry

open MockFunction

/-- The overloads carry their positions, and the ledger has a counter for each. -/
structure Aligned (e : MockEntry) : Prop where
  indexed : IndexedFrom 0 e.function.overloads
  size : e.ledger.overloads = e.function.overloads.length

variable {e : MockEntry}

theorem Aligned.resolve (h : e.Aligned) (args : List Value) :
    Aligned { e with ledger := (e.function.resolve e.ledger args).2 } := by
  have hs := slot_tryOverloads e.function.name args [] h.indexed
    (by rw [h.size, Nat.zero_add])
  exact ⟨h.indexed, hs.1.trans h.size⟩

theorem Aligned.slot_resolve (h : e.Aligned) (args : List Value) {i : Nat}
    (hi : i ≤ e.function.overloads.length) :
    (e.function.resolve e.ledger args).2.slot i =
      if reaches (e.function.endOf e.ledger args) i then Ledger.saturatingSucc (e.ledger.slot i)
      else e.ledger.slot i := by
  have hs := slot_tryOverloads e.function.name args [] h.indexed
    (by rw [h.size, Nat.zero_add])
  have hi' := hs.2.2 i hi
  rwa [Nat.zero_add] at hi'

theorem Aligned.outcome_resolve (h : e.Aligned) (args : List Value) :
    (∀ d, e.function.endOf e.ledger args = some d → ∃ o, e.function.overloads[d]? = some o ∧
      (o.verdict e.ledger args).settled? e.function.name =
        some (e.function.resolve e.ledger args).1) ∧
    (e.function.endOf e.ledger args = none → (e.function.resolve e.ledger args).1 =
      .error (.noMatch e.function.name
        (failuresFrom 0 (verdicts e.function.overloads e.ledger args)))) := by
  have ho := outcome_tryOverloads e.function.name args [] h.indexed
    (by rw [h.size, Nat.zero_add])
  rwa [List.nil_append] at ho

end MockEntry

namespace Mock

/-- Every function that a call can reach is aligned with its ledger. -/
def Aligned (m : Mock) : Prop := ∀ name e, m.find? name = some e → e.Aligned

variable {m : Mock} {name other : String}

theorem name_of_find? {e : MockEntry} (h : m.find? name = some e) : e.function.name = name := by
  simpa using List.find?_some h

theorem find?_setLedger (l : Ledger) :
    (m.setLedger name l).find? other =
      if other = name then (m.find? other).map ({ · with ledger := l }) else m.find? other := by
  have hkey (e : MockEntry) : ((if e.function.name == name then { e with ledger := l } else e) :
      MockEntry).function.name = e.function.name := by
    split <;> rfl
  simp only [find?, setLedger, List.find?_map, Function.comp_def, hkey]
  by_cases h : other = name
  · subst h
    rw [if_pos rfl]
    cases hf : m.entries.find? (·.function.name == other) with
    | none => rfl
    | some e =>
      have hn : e.function.name = other := by simpa using List.find?_some hf
      simp [hn]
  · rw [if_neg h]
    cases hf : m.entries.find? (·.function.name == other) with
    | none => rfl
    | some e =>
      have hne : ¬ e.function.name = name := fun he => h (by
        have hn : e.function.name = other := by simpa using List.find?_some hf
        rw [← hn, he])
      simp [hne]

theorem functions_setLedger (m : Mock) (name : String) (l : Ledger) :
    (m.setLedger name l).functions = m.functions := by
  simp only [functions, setLedger, List.map_map]
  refine List.map_congr_left fun e _ => ?_
  rw [Function.comp_apply]
  split <;> rfl

/-- A call finds no function, cannot write its arguments, or resolves to an outcome and a ledger. -/
theorem call_cases (m : Mock) (name : String) (args : List Json) :
    (m.find? name = none ∧ m.call name args = (.error (.functionNotFound name), m)) ∨
    (∃ e c, m.find? name = some e ∧ args.mapM Value.ofJson = .error c ∧
      m.call name args = (.error (.encode (.arguments name) (Fault.of c).display), m)) ∨
    (∃ e values, m.find? name = some e ∧ args.mapM Value.ofJson = .ok values ∧
      m.call name args = ((e.function.resolve e.ledger values).1,
        m.setLedger name (e.function.resolve e.ledger values).2)) := by
  unfold call
  cases hf : m.find? name with
  | none => exact .inl ⟨rfl, rfl⟩
  | some e =>
    cases hv : args.mapM Value.ofJson with
    | error c => exact .inr (.inl ⟨e, c, rfl, rfl, rfl⟩)
    | ok values => exact .inr (.inr ⟨e, values, rfl, rfl, rfl⟩)

theorem call_of_find? {e : MockEntry} {args : List Json} {values : List Value}
    (hf : m.find? name = some e) (hv : args.mapM Value.ofJson = .ok values) :
    m.call name args = ((e.function.resolve e.ledger values).1,
      m.setLedger name (e.function.resolve e.ledger values).2) := by
  simp [call, hf, hv]

end Mock

end SchemaMock
