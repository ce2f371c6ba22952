import SchemaMock.Proofs.Mock.Run

/-! # Calls of different functions

A call looks at one function and its ledger and changes that ledger only. However the calls of two
sets of functions are interleaved, either set therefore sees what it would see alone. A function
without a limit on its calls does not even see its own earlier calls.
-/

namespace SchemaMock

/-- The third list has the items of the first two, each in its order. -/
inductive Interleaving {α : Type} : List α → List α → List α → Prop
  | nil : Interleaving [] [] []
  | left {x : α} {s t w : List α} : Interleaving s t w → Interleaving (x :: s) t (x :: w)
  | right {x : α} {s t w : List α} : Interleaving s t w → Interleaving s (x :: t) (x :: w)

/-- Without a limit the number of attempts does not count. -/
theorem Overload.judge_of_unbounded {o : Overload} (h : o.maxCalls = .ok Mock.unbounded) (n k : Nat)
    (args : List Value) : o.judge n args = o.judge k args := by
  have hquota (n : Nat) : ¬ (Mock.unbounded < n ∧ n < Mock.unbounded) := by omega
  simp only [judge, h, if_neg (hquota n), if_neg (hquota k)]

/-- Overloads without limits resolve a call alike whatever the ledger says. -/
theorem MockFunction.tryOverloads_of_unbounded {name : String} {args : List Value}
    {os : List Overload} (h : ∀ o ∈ os, o.maxCalls = .ok Mock.unbounded)
    (failed : List OverloadFailure) (l k : Ledger) :
    (tryOverloads name args failed l os).1 = (tryOverloads name args failed k os).1 := by
  induction os generalizing failed l k with
  | nil => rfl
  | cons o os ih =>
    have ho := Overload.judge_of_unbounded (h o (by simp)) (l.recordAttempt o.index).1
      (k.recordAttempt o.index).1 args
    simp only [tryOverloads, ho]
    cases o.judge (k.recordAttempt o.index).1 args with
    | accepted returns => rfl
    | unreadable f => rfl
    | rejected why => exact ih (fun p hp => h p (by simp [hp])) _ _ _

namespace Mock

variable {m m' m₁ m₂ : Mock} {name : String}

def results (m : Mock) (qs : List Request) : List (Request × Except MockFault (List Value)) :=
  (m.run qs).map fun e => (e.request, e.outcome)

theorem results_cons (m : Mock) (q : Request) (qs : List Request) :
    m.results (q :: qs) = (q, (m.step q).outcome) :: (m.step q).after.results qs := rfl

/-- A step depends on what the mock has under the name of the request. -/
theorem step_congr {q : Request} (h : m.find? q.name = m'.find? q.name) :
    (m.step q).outcome = (m'.step q).outcome ∧
      (m.step q).after.find? q.name = (m'.step q).after.find? q.name := by
  simp only [step, call, ← h]
  cases m.find? q.name with
  | none => exact ⟨rfl, h⟩
  | some e =>
    cases q.args.mapM Value.ofJson with
    | error c => exact ⟨rfl, h⟩
    | ok values =>
      refine ⟨rfl, ?_⟩
      rw [find?_setLedger, find?_setLedger, h]

/-- The mock `m` has what `m₁` has under the names with the property, and else what `m₂` has. -/
def Splits (own : String → Prop) (m m₁ m₂ : Mock) : Prop :=
  ∀ name, (own name → m.find? name = m₁.find? name) ∧ (¬ own name → m.find? name = m₂.find? name)

variable {own : String → Prop} {q : Request}

theorem Splits.refl (own : String → Prop) (m : Mock) : Splits own m m m :=
  fun _ => ⟨fun _ => rfl, fun _ => rfl⟩

theorem Splits.left (h : Splits own m m₁ m₂) (hq : own q.name) :
    (m.step q).outcome = (m₁.step q).outcome ∧
    Splits own (m.step q).after (m₁.step q).after m₂ := by
  have hstep := step_congr ((h q.name).1 hq)
  refine ⟨hstep.1, fun name => ⟨fun hn => ?_, fun hn => ?_⟩⟩
  · by_cases hne : q.name = name
    · subst hne
      exact hstep.2
    · rw [find?_step_of_ne hne, find?_step_of_ne hne]
      exact (h name).1 hn
  · have hne : q.name ≠ name := fun he => hn (he ▸ hq)
    rw [find?_step_of_ne hne]
    exact (h name).2 hn

theorem Splits.right (h : Splits own m m₁ m₂) (hq : ¬ own q.name) :
    (m.step q).outcome = (m₂.step q).outcome ∧
    Splits own (m.step q).after m₁ (m₂.step q).after := by
  have hstep := step_congr ((h q.name).2 hq)
  refine ⟨hstep.1, fun name => ⟨fun hn => ?_, fun hn => ?_⟩⟩
  · have hne : q.name ≠ name := fun he => hq (he ▸ hn)
    rw [find?_step_of_ne hne]
    exact (h name).1 hn
  · by_cases hne : q.name = name
    · subst hne
      exact hstep.2
    · rw [find?_step_of_ne hne, find?_step_of_ne hne]
      exact (h name).2 hn

/-- A run of interleaved calls is two runs side by side. -/
theorem Splits.run {s t w : List Request} (hi : Interleaving s t w) (hs : ∀ q ∈ s, own q.name)
    (ht : ∀ q ∈ t, ¬ own q.name) (h : Splits own m m₁ m₂) :
    Interleaving (m₁.results s) (m₂.results t) (m.results w) ∧
      Splits own (m.replay w) (m₁.replay s) (m₂.replay t) := by
  induction hi generalizing m m₁ m₂ with
  | nil => exact ⟨.nil, h⟩
  | @left q s t w _ ih =>
    obtain ⟨ho, hstep⟩ := h.left (hs q List.mem_cons_self)
    obtain ⟨hresults, hlast⟩ := ih (fun p hp => hs p (List.mem_cons_of_mem q hp)) ht hstep
    rw [results_cons, results_cons, ho]
    exact ⟨hresults.left, hlast⟩
  | @right q s t w _ ih =>
    obtain ⟨ho, hstep⟩ := h.right (ht q List.mem_cons_self)
    obtain ⟨hresults, hlast⟩ := ih hs (fun p hp => ht p (List.mem_cons_of_mem q hp)) hstep
    rw [results_cons, results_cons, ho]
    exact ⟨hresults.right, hlast⟩

theorem ledger?_congr (h : m.find? name = m'.find? name) : m.ledger? name = m'.ledger? name := by
  rw [ledger?, ledger?, h]

/-- Calls of functions without limits always have the outcome of the first one. -/
theorem outcome_of_unbounded {f : MockFunction} (hf : m.function? name = some f)
    (hf' : m'.function? name = some f) (h : ∀ o ∈ f.overloads, o.maxCalls = .ok unbounded)
    (args : List Json) : (m.step ⟨name, args⟩).outcome = (m'.step ⟨name, args⟩).outcome := by
  obtain ⟨e, he, rfl⟩ := Option.map_eq_some_iff.mp hf
  obtain ⟨e', he', hfun⟩ := Option.map_eq_some_iff.mp hf'
  simp only [step, call, he, he']
  cases args.mapM Value.ofJson with
  | error c => rfl
  | ok values =>
    simp only [MockFunction.resolve, hfun]
    exact MockFunction.tryOverloads_of_unbounded h [] _ _

/-- Calls do not interfere. Interleaved sequences of calls that name different functions have the
results, and leave the ledgers, that each sequence has by itself; and a function without limits
answers after any calls as it does at first. -/
theorem calls_apart (m : Mock) :
    (∀ s t w : List Request, Interleaving s t w → (∀ p ∈ s, ∀ q ∈ t, p.name ≠ q.name) →
      Interleaving (m.results s) (m.results t) (m.results w) ∧
      ∀ name, ((∀ q ∈ t, q.name ≠ name) → (m.replay w).ledger? name = (m.replay s).ledger? name) ∧
        ((∀ p ∈ s, p.name ≠ name) → (m.replay w).ledger? name = (m.replay t).ledger? name)) ∧
    ∀ name f, m.function? name = some f → (∀ o ∈ f.overloads, o.maxCalls = .ok unbounded) →
      ∀ qs args, ((m.replay qs).step ⟨name, args⟩).outcome = (m.step ⟨name, args⟩).outcome := by
  refine ⟨fun s t w hi hne => ?_, fun name f hf h qs args => ?_⟩
  · have hs : ∀ p ∈ s, ∀ q ∈ t, q.name ≠ p.name := fun p hp q hq => (hne p hp q hq).symm
    have ht : ∀ q ∈ t, ¬ ∀ q' ∈ t, q'.name ≠ q.name := fun q hq h => h q hq rfl
    have hs' : ∀ p ∈ s, ∃ p' ∈ s, p'.name = p.name := fun p hp => ⟨p, hp, rfl⟩
    have ht' : ∀ q ∈ t, ¬ ∃ p ∈ s, p.name = q.name := fun q hq ⟨p, hp, he⟩ => hne p hp q hq he
    have hleft := (Splits.refl (fun name => ∀ q ∈ t, q.name ≠ name) m).run hi hs ht
    have hright := (Splits.refl (fun name => ∃ p ∈ s, p.name = name) m).run hi hs' ht'
    refine ⟨hleft.1, fun name => ⟨fun hn => ledger?_congr ((hleft.2 name).1 hn), fun hn => ?_⟩⟩
    exact ledger?_congr ((hright.2 name).2 fun ⟨p, hp, he⟩ => hn p hp he)
  · exact outcome_of_unbounded ((function?_replay m qs name).trans hf) hf h args

/-- A function that may be called once beside one without a limit. -/
def besideText : String := "funcs: {P: {maxCalls: 1, returns: []}, Q: {returns: []}}"

theorem calls_apart_beside : ∃ m f, compile .empty .empty besideText = .ok m ∧
    m.function? "Q" = some f ∧ f.overloads ≠ [] ∧ (∀ o ∈ f.overloads, o.maxCalls = .ok unbounded) ∧
    Interleaving (m.results [⟨"P", []⟩, ⟨"P", []⟩]) (m.results [⟨"Q", []⟩])
      (m.results [⟨"P", []⟩, ⟨"Q", []⟩, ⟨"P", []⟩]) ∧
    ((m.replay [⟨"P", []⟩, ⟨"Q", []⟩]).step ⟨"Q", []⟩).outcome = (m.step ⟨"Q", []⟩).outcome := by
  obtain ⟨m, hm, ht⟩ := exists_of_compilesTo besideText
    (fun m => (m.function? "Q").any fun f => !f.overloads.isEmpty &&
      f.overloads.all fun o => o.maxCalls.toOption == some unbounded) (by decide +kernel)
  obtain ⟨f, hf, ht⟩ := Option.any_eq_true _ _ |>.mp ht
  simp only [Bool.and_eq_true, Bool.not_eq_true', List.isEmpty_eq_false_iff, List.all_eq_true,
    beq_iff_eq] at ht
  have hlimits : ∀ o ∈ f.overloads, o.maxCalls = .ok unbounded := fun o ho =>
    Except.eq_ok_of_toOption (ht.2 o ho)
  have hapart := calls_apart m
  refine ⟨m, f, hm, hf, ht.1, hlimits, ?_, hapart.2 "Q" f hf hlimits _ _⟩
  exact (hapart.1 _ _ _ (.left (.right (.left .nil))) (by simp)).1

end Mock

end SchemaMock
