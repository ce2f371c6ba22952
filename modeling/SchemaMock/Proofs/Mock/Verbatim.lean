import SchemaMock.Proofs.Mock.Diagnosis
import SchemaMock.Proofs.Mock.Echo

/-! # Results as they are exported

The results of a call are exported, written as values, and exported again for the caller. An export
is nested no deeper than a value may be and holds only what a host can hold, so nothing fails or
changes on the way: the caller gets the list that the schema declares.
-/

namespace SchemaMock

namespace Overload

variable {o : Overload} {attempts : Nat} {args returns : List Value}

/-- An overload accepts a call with the results of its schema. -/
theorem returnsOf_of_judge (h : o.judge attempts args = .accepted returns) :
    returnsOf (o.bind args) = .ok returns := by
  obtain ⟨r, hr⟩ := o.exists_rules attempts args
  rw [judge_of_rules hr] at h
  cases r with
  | accepted =>
    rw [Ruling.verdict] at h
    split at h
    case h_1 hreturns =>
      cases h
      exact hreturns
    case h_2 => cases h
  | rejected why => cases h
  | unreadable f => cases h

end Overload

namespace Mock

variable {m : Mock} {name : String}

/-- Trying overloads gives the results of one of them, or fails for its schema or for all. -/
theorem tryOverloads_cases (name : String) (args : List Value) (os : List Overload)
    (failed : List OverloadFailure) (l : Ledger) :
    (∃ o ∈ os, ∃ returns, Overload.returnsOf (o.bind args) = .ok returns ∧
      (MockFunction.tryOverloads name args failed l os).1 = .ok returns) ∨
    (∃ f, (MockFunction.tryOverloads name args failed l os).1 = .error (.schema name f)) ∨
    (∃ failures, (MockFunction.tryOverloads name args failed l os).1 = .error (.noMatch name failures)) := by
  induction os generalizing failed l with
  | nil => exact .inr (.inr ⟨failed, rfl⟩)
  | cons o os ih =>
    rcases MockFunction.tryOverloads_cons name args failed l o os with ⟨r, hv, heq⟩ | ⟨why, -, heq⟩
    · rw [heq]
      cases hverdict : o.verdict l args with
      | accepted returns =>
        simp only [hverdict, Verdict.settled?, Option.some.injEq] at hv
        exact .inl ⟨o, List.mem_cons_self, returns, Overload.returnsOf_of_judge hverdict, hv.symm⟩
      | unreadable f =>
        simp only [hverdict, Verdict.settled?, Option.some.injEq] at hv
        exact .inr (.inl ⟨f, hv.symm⟩)
      | rejected why => simp [hverdict, Verdict.settled?] at hv
    · rw [heq]
      rcases ih (failed ++ [⟨o.index, why⟩]) (l.recordAttempt o.index).2 with ⟨p, hp, h⟩ | h
      · exact .inl ⟨p, List.mem_cons_of_mem o hp, h⟩
      · exact .inr h

/-- The results of an overload are exported as the list that its schema declares. -/
theorem decodeFrom_of_returnsOf {bound : Value} {returns : List Value}
    (h : Overload.returnsOf bound = .ok returns) (name : String) :
    ∃ items, (bound.lookup (.ofNames [returnsName])).toJson = .ok (.arr items) ∧
      items.mapM Value.ofJson = .ok returns ∧
      decodeFrom name 0 (returns.map (·, some)) = .ok items := by
  obtain ⟨items, hitems, hreturns⟩ := Overload.returnsOf_eq_ok_iff.mp h
  have hc : (Json.arr items).canonical = true := Value.canonical_of_toJson hitems
  exact ⟨items, hitems, hreturns, decodeFrom_some 0 hreturns fun j hj => Json.canonical_of_mem hc hj⟩

theorem fst_execValues (m : Mock) (name : String) (args : List HostValue) :
    (m.execValues name args).1 =
      (m.callHost name args).1 >>= fun values => decodeFrom name 0 (values.map (·, some)) := rfl

/-- No call fails for a result that cannot be exported. -/
theorem execValues_ne_decode (m : Mock) (name : String) (args : List HostValue) (function : String)
    (index : Nat) (f : Fault) : (m.execValues name args).1 ≠ .error (.decode function index f) := by
  rw [fst_execValues, callHost]
  cases hargs : args.mapM id with
  | error reason =>
    intro h
    cases h
  | ok args =>
    dsimp only
    rcases call_cases m name args with ⟨-, hc⟩ | ⟨e, c, -, -, hc⟩ | ⟨e, values, -, -, hc⟩
    · rw [hc]
      intro h
      cases h
    · rw [hc]
      intro h
      cases h
    · rw [hc, MockFunction.resolve]
      rcases tryOverloads_cases e.function.name values e.function.overloads [] e.ledger with
        ⟨o, -, returns, hreturns, hr⟩ | ⟨g, hr⟩ | ⟨failures, hr⟩
      · obtain ⟨items, -, -, hdecode⟩ := decodeFrom_of_returnsOf hreturns name
        have hok : (Except.ok returns >>= fun values => decodeFrom name 0 (values.map (·, some))) =
            Except.ok items := hdecode
        rw [hr, hok]
        intro h
        cases h
      · rw [hr]
        intro h
        cases h
      · rw [hr]
        intro h
        cases h

/-- In every state that a compiled mock can reach: the items of a list that a value exports can
always be written as values, and no call fails for a result that cannot be exported. Where a call
comes to an overload that accepts it, after those that reject it, and the results there export as a
list, the call succeeds with the values of its items, and a call that asks for host values gives the
list itself. -/
theorem call_verbatim {r : Registry} {vars : Vars} {text : String} (h : compile r vars text = .ok m)
    (qs : List Request) :
    (∀ v items, Value.toJson v = .ok (.arr items) → ∃ values, items.mapM Value.ofJson = .ok values) ∧
    (∀ name args function index f,
      ((m.replay qs).execValues name args).1 ≠ .error (.decode function index f)) ∧
    ∀ name e args values i o items, (m.replay qs).find? name = some e →
      args.mapM Value.ofJson = .ok values → e.Ruled values i o .accepted →
      (∀ j < i, ∃ p why, e.Ruled values j p (.rejected why)) →
      ((o.bind values).lookup (.ofNames [returnsName])).toJson = .ok (.arr items) →
      (∃ returns, items.mapM Value.ofJson = .ok returns ∧
        ((m.replay qs).call name args).1 = .ok returns) ∧
      ((m.replay qs).execValues name (args.map .ok)).1 = .ok items := by
  refine ⟨fun v items hv => Value.exists_mapM_ofJson hv, execValues_ne_decode _, ?_⟩
  intro name e args values i o items hf hvalues haccepted hbefore hitems
  have hal : e.Aligned := (aligned_of_compile h).replay qs name e hf
  obtain ⟨returns, hwritten⟩ := Value.exists_mapM_ofJson hitems
  have hreturns : Overload.returnsOf (o.bind values) = .ok returns :=
    Overload.returnsOf_eq_ok_iff.mpr ⟨items, hitems, hwritten⟩
  have hout : Ruling.outcome? e.function.name (o.bind values) .accepted = some (.ok returns) := by
    rw [Ruling.outcome?, hreturns]
    rfl
  have hcall : ((m.replay qs).call name args).1 = .ok returns := by
    rw [call_of_find? hf hvalues, hal.resolve_of_ruled haccepted hout hbefore]
  refine ⟨⟨returns, hwritten, hcall⟩, ?_⟩
  obtain ⟨items', hitems', -, hdecode⟩ := decodeFrom_of_returnsOf hreturns name
  rw [hitems] at hitems'
  cases hitems'
  have hhost : (m.replay qs).callHost name (args.map .ok) = (m.replay qs).call name args := by
    rw [callHost, mapM_id_ok]
  rw [fst_execValues, hhost, hcall]
  exact hdecode

def resultsText : String := "funcs: P: {returns: [{n: 18446744073709551615}, [null]]}"

/-- The function `P` accepts a call without arguments, and exports these results. -/
def hasResults (m : Mock) : Bool :=
  match m.function? "P" with
  | some ⟨_, [o]⟩ =>
    o.maxCalls.toOption == some unbounded && o.arity.toOption == some 0 &&
      ((o.bind []).faults true).isEmpty &&
      match ((o.bind []).lookup (.ofNames [returnsName])).toJson with
      | .ok (.arr [.obj [(k, .int n)], .arr [.null]]) => k == "n" && n == 18446744073709551615
      | _ => false
  | _ => false

theorem call_verbatim_results : ∃ m e o, compile .empty .empty resultsText = .ok m ∧
    m.find? "P" = some e ∧ e.Ruled [] 0 o .accepted ∧
    (m.execValues "P" []).1 = .ok [.obj [("n", .int 18446744073709551615)], .arr [.null]] := by
  obtain ⟨m, hm, ht⟩ := exists_of_compilesTo resultsText hasResults (by decide +kernel)
  unfold hasResults at ht
  split at ht
  case h_2 => cases ht
  case h_1 name o hf =>
    obtain ⟨e, he, hfun⟩ := Option.map_eq_some_iff.mp hf
    simp only [Bool.and_eq_true, beq_iff_eq, List.isEmpty_iff] at ht
    obtain ⟨⟨⟨hlimit, harity⟩, hvalid⟩, hitems⟩ := ht
    split at hitems
    case h_2 => cases hitems
    case h_1 k n hjson =>
      simp only [Bool.and_eq_true, beq_iff_eq] at hitems
      obtain ⟨rfl, rfl⟩ := hitems
      have hattempts : Ledger.saturatingSucc (e.ledger.attemptsAt 0) = 1 := by
        rw [(entry_of_compile hm he).2, Ledger.attemptsAt_ofOverloads]
        rfl
      have hruled : e.Ruled [] 0 o .accepted := by
        refine ⟨by rw [hfun]; rfl, ?_⟩
        rw [hattempts]
        exact .accepted ⟨unbounded, Except.eq_ok_of_toOption hlimit, by decide⟩
          (Except.eq_ok_of_toOption harity) hvalid
      have hverbatim := (call_verbatim hm []).2.2 "P" e [] [] 0 o _ he rfl hruled (by omega) hjson
      exact ⟨m, e, o, hm, he, hruled, hverbatim.2⟩

end Mock

end SchemaMock
