import SchemaMock.Proofs.Mock.Compiled
import Mathlib.Logic.ExistsUnique

/-! # The diagnosis of a call

The rules that an overload is judged by have an order of priority: the limit on calls, the number of
arguments, the schema. A call ends at the first overload that they do not reject it for, and counts
for that one and those before it. If they reject it for all overloads, the failure tells for each of
them why, and the call counts for all of them and as unmatched.
-/

namespace SchemaMock

/-- What the rules say of a call of an overload. -/
inductive Ruling where
  | accepted
  | rejected (why : Rejection)
  | unreadable (fault : Fault)

namespace Overload

/-- The limit can be read, and that many attempts do not exceed it. The greatest count exceeds no
limit. -/
def Open (o : Overload) (attempts : Nat) : Prop :=
  ∃ limit, o.maxCalls = .ok limit ∧ ¬ (limit < attempts ∧ attempts < Mock.unbounded)

/-- The rules for a call that brings an overload to that many attempts, in their order of
priority. -/
inductive Rules (o : Overload) (attempts : Nat) (args : List Value) : Ruling → Prop
  | limitUnreadable {f : Fault} : o.maxCalls = .error f → Rules o attempts args (.unreadable f)
  | exceeded {limit : Nat} : o.maxCalls = .ok limit → limit < attempts → attempts < Mock.unbounded →
    Rules o attempts args (.rejected (.maxCallsExceeded limit attempts))
  | arityUnreadable {f : Fault} : o.Open attempts → o.arity = .error f →
    Rules o attempts args (.unreadable f)
  | miscounted {expected : Nat} : o.Open attempts → o.arity = .ok expected →
    expected ≠ args.length → Rules o attempts args (.rejected (.argumentCount expected args.length))
  | mismatched {f : Fault} {fs : List Fault} : o.Open attempts → o.arity = .ok args.length →
    (o.bind args).faults true = f :: fs → Rules o attempts args (.rejected (.mismatch (f :: fs)))
  | accepted : o.Open attempts → o.arity = .ok args.length → (o.bind args).faults true = [] →
    Rules o attempts args .accepted

end Overload

namespace Ruling

/-- What a call comes to that ends with a ruling, if it ends. The results of an accepted call may
turn out to be unreadable. -/
def outcome? (name : String) (bound : Value) : Ruling → Option (Except MockFault (List Value))
  | accepted => some ((Overload.returnsOf bound).mapError (.schema name))
  | rejected _ => none
  | unreadable f => some (.error (.schema name f))

def verdict (bound : Value) : Ruling → Verdict
  | accepted =>
    match Overload.returnsOf bound with
    | .ok returns => .accepted returns
    | .error f => .unreadable f
  | rejected why => .rejected why
  | unreadable f => .unreadable f

theorem settled?_verdict (name : String) (bound : Value) (r : Ruling) :
    (r.verdict bound).settled? name = r.outcome? name bound := by
  cases r with
  | accepted =>
    simp only [verdict, outcome?]
    cases Overload.returnsOf bound with
    | ok returns => rfl
    | error f => rfl
  | rejected why => rfl
  | unreadable f => rfl

theorem isRejected_verdict {bound : Value} {r : Ruling} {name : String}
    {outcome : Except MockFault (List Value)} (h : r.outcome? name bound = some outcome) :
    (r.verdict bound).isRejected = false := by
  rw [← settled?_verdict] at h
  cases hv : r.verdict bound with
  | rejected why => simp [hv, Verdict.settled?] at h
  | accepted returns => rfl
  | unreadable f => rfl

end Ruling

namespace Overload

variable {o : Overload} {attempts : Nat} {args : List Value} {r r' : Ruling}

/-- An overload is judged by its rules. -/
theorem judge_of_rules (h : o.Rules attempts args r) :
    o.judge attempts args = r.verdict (o.bind args) := by
  cases h with
  | limitUnreadable hm => simp [judge, hm, Ruling.verdict]
  | exceeded hm hl hu => simp [judge, hm, hl, hu, Ruling.verdict]
  | arityUnreadable ho ha =>
    obtain ⟨limit, hm, hin⟩ := ho
    simp [judge, hm, hin, ha, Ruling.verdict]
  | miscounted ho ha hne =>
    obtain ⟨limit, hm, hin⟩ := ho
    simp [judge, hm, hin, ha, hne, Ruling.verdict]
  | mismatched ho ha hf =>
    obtain ⟨limit, hm, hin⟩ := ho
    simp [judge, hm, hin, ha, hf, Ruling.verdict]
  | accepted ho ha hf =>
    obtain ⟨limit, hm, hin⟩ := ho
    cases hr : returnsOf (o.bind args) <;> simp [judge, hm, hin, ha, hf, hr, Ruling.verdict]

/-- There is a rule for every call. -/
theorem exists_rules (o : Overload) (attempts : Nat) (args : List Value) :
    ∃ r, o.Rules attempts args r := by
  cases hm : o.maxCalls with
  | error f => exact ⟨_, .limitUnreadable hm⟩
  | ok limit =>
    by_cases hin : limit < attempts ∧ attempts < Mock.unbounded
    · exact ⟨_, .exceeded hm hin.1 hin.2⟩
    · have ho : o.Open attempts := ⟨limit, hm, hin⟩
      cases ha : o.arity with
      | error f => exact ⟨_, .arityUnreadable ho ha⟩
      | ok expected =>
        by_cases hlen : expected = args.length
        · subst hlen
          cases hf : (o.bind args).faults true with
          | nil => exact ⟨_, .accepted ho ha hf⟩
          | cons f fs => exact ⟨_, .mismatched ho ha hf⟩
        · exact ⟨_, .miscounted ho ha hlen⟩

/-- No two rules apply to one call. -/
theorem Rules.unique (h : o.Rules attempts args r) (h' : o.Rules attempts args r') : r = r' := by
  cases h <;> cases h' <;> simp_all [Open] <;> omega

theorem existsUnique_rules (o : Overload) (attempts : Nat) (args : List Value) :
    ∃! r, o.Rules attempts args r := by
  obtain ⟨r, hr⟩ := o.exists_rules attempts args
  exact ⟨r, hr, fun r' hr' => hr'.unique hr⟩

end Overload

namespace Ledger

/-- The ledger after one attempt of each overload up to the one at the index. -/
def recordUpTo (l : Ledger) (index : Nat) : Ledger :=
  { l with attempts := l.attempts.mapIdx fun i n => if i ≤ index then saturatingSucc n else n }

/-- The ledger after a call that no overload accepted. -/
def recordAll (l : Ledger) : Ledger := ⟨l.attempts.map saturatingSucc, saturatingSucc l.unmatched⟩

variable {l l' : Ledger}

/-- A ledger is its slots. -/
theorem ext_slot (hsize : l.overloads = l'.overloads)
    (hslot : ∀ i ≤ l.overloads, l.slot i = l'.slot i) : l = l' := by
  obtain ⟨attempts, unmatched⟩ := l
  obtain ⟨attempts', unmatched'⟩ := l'
  simp only [overloads] at hsize hslot
  have hattempts : attempts = attempts' := by
    apply List.ext_getElem hsize
    intro i h h'
    have hi := hslot i (Nat.le_of_lt h)
    simpa [slot, overloads, attemptsAt, h, h'] using hi
  have hunmatched := hslot attempts.length (Nat.le_refl _)
  simp [slot, overloads, ← hsize] at hunmatched
  rw [hattempts, hunmatched]

@[simp] theorem overloads_recordUpTo (l : Ledger) (index : Nat) :
    (l.recordUpTo index).overloads = l.overloads := by
  simp [recordUpTo, overloads]

@[simp] theorem overloads_recordAll (l : Ledger) : l.recordAll.overloads = l.overloads := by
  simp [recordAll, overloads]

theorem slot_recordUpTo {index i : Nat} (h : index < l.overloads) :
    (l.recordUpTo index).slot i = if i ≤ index then saturatingSucc (l.slot i) else l.slot i := by
  unfold slot
  rw [overloads_recordUpTo]
  by_cases hi : i < l.overloads
  · have hi' : i < l.attempts.length := hi
    simp [hi, attemptsAt, recordUpTo, hi']
  · have hle : ¬ i ≤ index := by omega
    simp [hi, hle, recordUpTo]

theorem slot_recordAll (l : Ledger) (i : Nat) : l.recordAll.slot i = saturatingSucc (l.slot i) := by
  unfold slot
  rw [overloads_recordAll]
  by_cases hi : i < l.overloads
  · have hi' : i < l.attempts.length := hi
    simp [hi, attemptsAt, recordAll, hi']
  · simp [hi, recordAll]

end Ledger

namespace MockFunction

/-- Verdicts that are all rejections are told in order, each with its place. -/
theorem getElem?_failuresFrom {vs : List Verdict} (h : ∀ v ∈ vs, v.isRejected = true) (k : Nat) :
    (failuresFrom k vs).length = vs.length ∧
      ∀ (i : Nat) (why : Rejection), vs[i]? = some (.rejected why) →
        (failuresFrom k vs)[i]? = some ⟨k + i, why⟩ := by
  induction vs generalizing k with
  | nil => simp [failuresFrom]
  | cons v vs ih =>
    obtain ⟨hv, hvs⟩ := List.forall_mem_cons.mp h
    obtain ⟨hlength, hget⟩ := ih hvs (k + 1)
    cases v with
    | rejected why =>
      refine ⟨by simp [failuresFrom, hlength], fun i why' hi => ?_⟩
      cases i with
      | zero => simpa [failuresFrom] using hi
      | succ i =>
        have := hget i why' (by simpa using hi)
        simpa [failuresFrom, Nat.add_right_comm, Nat.add_assoc] using this
    | accepted returns => cases hv
    | unreadable f => cases hv

end MockFunction

namespace MockEntry

open MockFunction

/-- The ruling on the overload at an index, by its counter as a call with these arguments sets
it. -/
def Ruled (e : MockEntry) (args : List Value) (i : Nat) (o : Overload) (r : Ruling) : Prop :=
  e.function.overloads[i]? = some o ∧ o.Rules (Ledger.saturatingSucc (e.ledger.attemptsAt i)) args r

variable {e : MockEntry} {args : List Value} {i : Nat} {o : Overload} {r : Ruling}

/-- The ledger that a call leaves, by where it ends. -/
theorem Aligned.ledger_resolve (h : e.Aligned) (args : List Value) :
    (e.function.resolve e.ledger args).2 =
      match e.function.endOf e.ledger args with
      | some i => e.ledger.recordUpTo i
      | none => e.ledger.recordAll := by
  have hsize : (e.function.resolve e.ledger args).2.overloads = e.ledger.overloads :=
    (h.resolve args).size.trans h.size.symm
  have hslot (i : Nat) (hi : i ≤ (e.function.resolve e.ledger args).2.overloads) :=
    h.slot_resolve args (i := i) (by rw [← h.size, ← hsize]; exact hi)
  cases hend : e.function.endOf e.ledger args with
  | none =>
    apply Ledger.ext_slot
    · rw [hsize, Ledger.overloads_recordAll]
    · intro i hi
      rw [hslot i hi, hend, reaches_none, if_pos rfl, Ledger.slot_recordAll]
  | some d =>
    have hd : d < e.ledger.overloads := by
      obtain ⟨o, ho, -⟩ := (h.outcome_resolve args).1 d hend
      rw [h.size]
      exact (List.getElem?_eq_some_iff.mp ho).1
    apply Ledger.ext_slot
    · rw [hsize, Ledger.overloads_recordUpTo]
    · intro i hi
      rw [hslot i hi, hend, reaches_some, Ledger.slot_recordUpTo hd]
      simp

/-- The verdict of an overload is the one that its ruling leads to. -/
theorem Aligned.verdict_of_ruled (h : e.Aligned) (hr : e.Ruled args i o r) :
    (verdicts e.function.overloads e.ledger args)[i]? = some (r.verdict (o.bind args)) := by
  obtain ⟨ho, hr⟩ := hr
  have hindex : o.index = i := h.indexed.index_of_getElem? ho
  have hverdict : o.verdict e.ledger args = r.verdict (o.bind args) := by
    rw [Overload.verdict, hindex, Overload.judge_of_rules hr]
  simp [verdicts, ho, hverdict]

/-- A call ends at an overload that is not rejected, if all before it are. -/
theorem Aligned.resolve_of_ruled (h : e.Aligned) {outcome : Except MockFault (List Value)}
    (hr : e.Ruled args i o r) (hout : r.outcome? e.function.name (o.bind args) = some outcome)
    (hbefore : ∀ j < i, ∃ p why, e.Ruled args j p (.rejected why)) :
    e.function.resolve e.ledger args = (outcome, e.ledger.recordUpTo i) := by
  have hi := h.verdict_of_ruled hr
  have hend : e.function.endOf e.ledger args = some i := by
    obtain ⟨hlt, hget⟩ := List.getElem?_eq_some_iff.mp hi
    rw [endOf, stop?, List.findIdx?_eq_some_iff_getElem]
    refine ⟨hlt, ?_, fun j hj => ?_⟩
    · rw [hget, Ruling.isRejected_verdict hout]
      rfl
    · obtain ⟨p, why, hrej⟩ := hbefore j hj
      obtain ⟨hlt', hget'⟩ := List.getElem?_eq_some_iff.mp (h.verdict_of_ruled hrej)
      simp [hget', Ruling.verdict, Verdict.isRejected]
  obtain ⟨p, hp, hsettled⟩ := (h.outcome_resolve args).1 i hend
  obtain rfl : p = o := Option.some.inj (hp.symm.trans hr.1)
  have hverdict : p.verdict e.ledger args = r.verdict (p.bind args) := by
    simpa [verdicts, hr.1] using hi
  rw [hverdict, Ruling.settled?_verdict, hout] at hsettled
  apply Prod.ext
  · exact (Option.some.inj hsettled).symm
  · rw [h.ledger_resolve, hend]

/-- A call whose every overload is rejected fails with the reasons of all of them. -/
theorem Aligned.resolve_of_rejected (h : e.Aligned)
    (hall : ∀ i < e.function.overloads.length, ∃ o why, e.Ruled args i o (.rejected why)) :
    ∃ failures, e.function.resolve e.ledger args =
        (.error (.noMatch e.function.name failures), e.ledger.recordAll) ∧
      failures.length = e.function.overloads.length ∧
      ∀ i o why, e.Ruled args i o (.rejected why) → failures[i]? = some ⟨i, why⟩ := by
  let vs := verdicts e.function.overloads e.ledger args
  have hlength : vs.length = e.function.overloads.length := List.length_map _
  have hvs : ∀ v ∈ vs, v.isRejected = true := by
    intro v hv
    obtain ⟨i, hi⟩ := List.mem_iff_getElem?.mp hv
    obtain ⟨o, why, hwhy⟩ := hall i (hlength ▸ (List.getElem?_eq_some_iff.mp hi).1)
    obtain rfl := Option.some.inj (hi.symm.trans (h.verdict_of_ruled hwhy))
    rfl
  have hend : e.function.endOf e.ledger args = none := by
    rw [endOf, stop?, List.findIdx?_eq_none_iff]
    intro v hv
    rw [hvs v hv]
    rfl
  obtain ⟨hcount, hget⟩ := getElem?_failuresFrom hvs 0
  refine ⟨failuresFrom 0 vs, ?_, hcount.trans hlength, fun i o why hwhy => ?_⟩
  · apply Prod.ext
    · exact (h.outcome_resolve args).2 hend
    · rw [h.ledger_resolve, hend]
  · have := hget i why (h.verdict_of_ruled hwhy)
    rwa [Nat.zero_add] at this

/-- A call goes by the rulings on the overloads, of which each overload has exactly one. The first
that is not a rejection gives the outcome, and the call counts once for that overload and for each
before it. If all are rejections, the call counts once in every slot, and its failure holds the
reason of each overload in the order of declaration. -/
theorem resolve_by_rules (h : e.Aligned) (args : List Value) :
    (∀ i o, e.function.overloads[i]? = some o → ∃! r, e.Ruled args i o r) ∧
    (∀ i o r outcome, e.Ruled args i o r → r.outcome? e.function.name (o.bind args) = some outcome →
      (∀ j < i, ∃ p why, e.Ruled args j p (.rejected why)) →
      e.function.resolve e.ledger args = (outcome, e.ledger.recordUpTo i)) ∧
    ((∀ i < e.function.overloads.length, ∃ o why, e.Ruled args i o (.rejected why)) →
      ∃ failures, e.function.resolve e.ledger args =
          (.error (.noMatch e.function.name failures), e.ledger.recordAll) ∧
        failures.length = e.function.overloads.length ∧
        ∀ i o why, e.Ruled args i o (.rejected why) → failures[i]? = some ⟨i, why⟩) := by
  refine ⟨fun i o ho => ?_, ?_, h.resolve_of_rejected⟩
  · obtain ⟨r, hr, hunique⟩ :=
      o.existsUnique_rules (Ledger.saturatingSucc (e.ledger.attemptsAt i)) args
    exact ⟨r, ⟨ho, hr⟩, fun r' hr' => hunique r' hr'.2⟩
  · intro i o r outcome hr hout hbefore
    exact h.resolve_of_ruled hr hout hbefore

/-- An overload that declares a list of arguments, a limit and a list of results. -/
def sampleOverload (index : Nat) (args : List Expr) (limit : Nat) (returns : List Expr) :
    Overload :=
  ⟨index, .ofExpr (.struct [Mock.fieldOf Mock.argsName (.list args none),
    Mock.fieldOf Mock.maxCallsName (.int limit),
    Mock.fieldOf Mock.returnsName (.list returns none)])⟩

/-- A function with an overload for one argument, one that may not be called, and one that takes no
arguments. -/
def sampleEntry : MockEntry :=
  Mock.entryOf ⟨"F", [sampleOverload 0 [.top] 9 [], sampleOverload 1 [] 0 [], sampleOverload 2 [] 9 [.int 1]]⟩

theorem resolve_by_rules_sample : sampleEntry.Aligned ∧
    (∃ returns, sampleEntry.function.resolve sampleEntry.ledger [] = (.ok returns, ⟨[1, 1, 1], 0⟩)) ∧
    sampleEntry.function.resolve sampleEntry.ledger [.ofExpr .null, .ofExpr .null] =
      (.error (.noMatch "F" [⟨0, .argumentCount 1 2⟩, ⟨1, .maxCallsExceeded 0 1⟩, ⟨2, .argumentCount 0 2⟩]),
        ⟨[1, 1, 1], 1⟩) := by
  have hal : sampleEntry.Aligned := ⟨rfl, rfl⟩
  have harity {o : Overload} {n : Nat} (h : o.arity.toOption = some n) : o.arity = .ok n :=
    Except.eq_ok_of_toOption h
  have hlimit {o : Overload} {n : Nat} (h : o.maxCalls.toOption = some n) : o.maxCalls = .ok n :=
    Except.eq_ok_of_toOption h
  have hfirst (args : List Value) (h : 1 ≠ args.length) :
      sampleEntry.Ruled args 0 _ (.rejected (.argumentCount 1 args.length)) :=
    ⟨rfl, .miscounted ⟨9, hlimit (by decide +kernel), by decide⟩ (harity (by decide +kernel)) h⟩
  have hsecond (args : List Value) :
      sampleEntry.Ruled args 1 _ (.rejected (.maxCallsExceeded 0 1)) :=
    ⟨rfl, .exceeded (hlimit (by decide +kernel)) (by decide) (by decide)⟩
  have hopen : (sampleOverload 2 [] 9 [.int 1]).Open 1 := ⟨9, hlimit (by decide +kernel), by decide⟩
  have hcount : (sampleOverload 2 [] 9 [.int 1]).arity = .ok 0 := harity (by decide +kernel)
  constructor
  · exact hal
  constructor
  · have hvalid : (((sampleOverload 2 [] 9 [.int 1]).bind []).faults true).isEmpty = true := by
      decide +kernel
    have hreturns :
        (Overload.returnsOf ((sampleOverload 2 [] 9 [.int 1]).bind [])).isOk = true := by
      decide +kernel
    obtain ⟨returns, hr⟩ := Except.exists_of_isOk hreturns
    have hthird : sampleEntry.Ruled [] 2 _ .accepted :=
      ⟨rfl, .accepted hopen hcount (List.isEmpty_iff.mp hvalid)⟩
    refine ⟨returns, (resolve_by_rules hal []).2.1 2 _ .accepted (.ok returns) hthird ?_ ?_⟩
    · rw [Ruling.outcome?, hr]
      rfl
    · intro j hj
      match j, hj with
      | 0, _ => exact ⟨_, _, hfirst [] (by decide)⟩
      | 1, _ => exact ⟨_, _, hsecond []⟩
  · let args : List Value := [.ofExpr .null, .ofExpr .null]
    have hthird : sampleEntry.Ruled args 2 _ (.rejected (.argumentCount 0 2)) :=
      ⟨rfl, .miscounted hopen hcount (by decide)⟩
    have hall : ∀ i < sampleEntry.function.overloads.length,
        ∃ o why, sampleEntry.Ruled args i o (.rejected why) := by
      intro i hi
      match i, hi with
      | 0, _ => exact ⟨_, _, hfirst args (by decide)⟩
      | 1, _ => exact ⟨_, _, hsecond args⟩
      | 2, _ => exact ⟨_, _, hthird⟩
    obtain ⟨failures, hresolve, hlength, hget⟩ := (resolve_by_rules hal args).2.2 hall
    rw [hresolve]
    match failures, hlength with
    | [f, g, h], _ =>
      obtain rfl : f = _ := Option.some.inj (hget 0 _ _ (hfirst args (by decide)))
      obtain rfl : g = _ := Option.some.inj (hget 1 _ _ (hsecond args))
      obtain rfl : h = _ := Option.some.inj (hget 2 _ _ hthird)
      rfl

end MockEntry

end SchemaMock
