import SchemaMock.Eval.Query
import SchemaMock.Proofs.Eval.Processing

/-! # Looking up parts

The vertex at a path is found by way of the vertex one step before. What it has settled to is under
the definition that the part was under.
-/

namespace SchemaMock

open Arena Eval

namespace Eval

variable {d : Definition} {a b : Arena} {path : Path} {s : Selector} {u v w t : Nat} {k : Kinds}

/-- The end of a lookup: the vertex is processed, and so is what stands in for it. -/
def arrive (process : Nat → Eval Unit) (v : Nat) : Eval Nat := do
  let v ← settle process v
  process v
  return v

theorem lookup_eq (path : Path) : Eval.lookup path =
    path.selectors.foldlM (select evaluate) Arena.root >>= fun v =>
      Attempt.perform (arrive evaluate v) := rfl

theorem keeps_arrive {R : Arena → Arena → Prop} [Lasting R] {process : Nat → Eval Unit}
    (hp : ∀ u, Keeps R (process u)) (v : Nat) : Keeps R (arrive process v) :=
  (keeps_settle hp v).bind fun v => (hp v).bind fun _ => keeps_pure _

theorem keeps_select_path {R : Arena → Arena → Prop} [Lasting R] {process : Nat → Eval Unit}
    (hp : ∀ u, Keeps R (process u)) (selectors : List Selector) (v : Nat) :
    Keeps R (selectors.foldlM (select process) v).run := by
  induction selectors generalizing v with
  | nil => exact Attempt.keeps_pure v
  | cons s selectors ih =>
    rw [List.foldlM_cons]
    exact Attempt.keeps_bind (keeps_select hp v s) ih

theorem keeps_lookup (path : Path) : Keeps d.Beside (Eval.lookup path).run := by
  have hp := (processes_evaluate (d := d)).keeps
  rw [lookup_eq]
  refine Attempt.keeps_bind (keeps_select_path hp _ _) fun v => ?_
  exact Attempt.keeps_perform (keeps_arrive hp v)

/-- A field or an element of a vertex that is processed. -/
def partOf (v : Nat) (s : Selector) : Attempt Nat := do
  let x ← Attempt.perform (vertex v)
  if !x.disjuncts.isEmpty then Attempt.refuse (.selectFromAlternatives s)
  else match x.part? s with
    | some w => return w
    | none => throw (← Attempt.perform (view (·.missing v s)))

theorem run_select {process : Nat → Eval Unit} (h : arrive process v a = (w, b)) (s : Selector) :
    (select process v s).run a = (partOf w s).run b := by
  obtain ⟨rfl, rfl⟩ := Prod.mk.inj h
  rfl

/-- A part is selected from what a vertex has settled to. -/
theorem select_of_arrive {process : Nat → Eval Unit} (h : arrive process v a = (w, b))
    (s : Selector) :
    (∃ u, (b.vertex w).part? s = some u ∧ (select process v s).run a = (.ok u, b)) ∨
    ∃ f, (select process v s).run a = (.error f, b) := by
  rw [run_select h, partOf]
  show (∃ u, _ ∧ (if !(b.vertex w).disjuncts.isEmpty then _ else _ : Attempt Nat).run b = (.ok u, b)) ∨
    ∃ f, (if !(b.vertex w).disjuncts.isEmpty then _ else _ : Attempt Nat).run b = (.error f, b)
  split
  · exact .inr ⟨_, rfl⟩
  · cases hu : (b.vertex w).part? s with
    | some u => exact .inl ⟨u, rfl, rfl⟩
    | none => exact .inr ⟨_, rfl⟩

/-- A lookup goes on from the vertex one step before to the part there, or fails. -/
theorem lookup_child (h : (Eval.lookup path).run a = (.ok w, b)) (s : Selector) :
    (∃ u, (b.vertex w).part? s = some u ∧
      (Eval.lookup (path.child s)).run a = (.ok (arrive evaluate u b).1, (arrive evaluate u b).2)) ∨
    ∃ f c, (Eval.lookup (path.child s)).run a = (.error f, c) := by
  have hchild : Eval.lookup (path.child s) = (path.selectors.foldlM (select evaluate) Arena.root >>=
      fun v => select evaluate v s >>= fun u => Attempt.perform (arrive evaluate u)) := by
    rw [lookup_eq]
    show (path.selectors ++ [s]).foldlM _ _ >>= _ = _
    simp only [List.foldlM_append, List.foldlM_cons, List.foldlM_nil, bind_pure, bind_assoc]
  rw [lookup_eq, Attempt.run_bind] at h
  rw [hchild, Attempt.run_bind]
  rcases hsteps : (path.selectors.foldlM (select evaluate) Arena.root).run a with ⟨f | v, c⟩
  · exact .inr ⟨f, c, rfl⟩
  · rw [hsteps] at h
    dsimp only at h
    have harrive : arrive evaluate v c = (w, b) := by
      rw [Attempt.run_perform] at h
      obtain ⟨hw, hb⟩ := Prod.mk.inj h
      exact Prod.ext (Except.ok.inj hw) hb
    show (∃ u, _ ∧ (select evaluate v s >>= _ : Attempt Nat).run c = _) ∨
      ∃ f e, (select evaluate v s >>= _ : Attempt Nat).run c = (.error f, e)
    rw [Attempt.run_bind]
    rcases select_of_arrive harrive s with ⟨u, hu, hrun⟩ | ⟨f, hrun⟩
    · rw [hrun]
      exact .inl ⟨u, hu, Attempt.run_perform _ b⟩
    · rw [hrun]
      exact .inr ⟨f, b, rfl⟩

/-! ## What is found -/

theorem run_arrive (process : Nat → Eval Unit) (v : Nat) (a : Arena) :
    arrive process v a =
      ((process v a).2.follow v, (process ((process v a).2.follow v) (process v a).2).2) := rfl

theorem arrive_of_settlesTo (h : (evaluate v a).2.SettlesTo v t) :
    arrive evaluate v a = (t, (evaluate v a).2) := by
  rw [run_arrive, follow_of_settlesTo h]
  rw [evaluate_of_stage (by rw [h.stage_last]; decide)]

theorem kindsOf_of_settlesTo (h : a.SettlesTo v v) : (kindsOf v a).1 = (a.vertex v).val.kinds := by
  have hdone : evaluate v a = ((), a) := evaluate_of_stage (by rw [h.stage]; decide)
  have hsettle : settle evaluate v a = (v, a) := by
    rw [settle, run_bind, hdone]
    exact Prod.ext (follow_of_settlesTo h) rfl
  rw [kindsOf, run_bind, hsettle]
  rfl

/-- A vertex under the definition is found with its kinds. -/
theorem arrive_of_holds (hl : a.Linked) (hd : d.Stands a) (h : d.Holds a k v) :
    ∃ t b, arrive evaluate v a = (t, b) ∧ b.SettlesTo t t ∧
      k.contains (b.vertex t).val.kinds = true := by
  have hp := processes_evaluate (d := d)
  have hs : Definition.Settled (evaluate v a).2 k v := by
    rcases h with h | ⟨t, ht, hk⟩
    · exact (hp.fulfils hl hd h).settled
    · exact Definition.Settled.grown ⟨t, ht, hk⟩ (hp.keeps v a).grown nofun
  obtain ⟨t, ht, hk⟩ := hs
  exact ⟨t, _, arrive_of_settlesTo ht, ht.last, hk⟩

/-- So are the elements of a list. -/
theorem arrive_of_awaits (hl : a.Linked) (hd : d.Stands a) (h : d.Awaits a k v) :
    ∃ t b, arrive evaluate v a = (t, b) ∧ b.SettlesTo t t ∧
      k.contains (b.vertex t).val.kinds = true ∧ b.Linked ∧ d.Stands b ∧
      ((b.vertex t).val.kinds = .ofList → ∀ w ∈ (b.vertex t).elems, d.Holds b .ofStruct w) := by
  have hp := processes_evaluate (d := d)
  have hb := hp.keeps v a
  obtain ⟨t, ht, hk, helems⟩ := hp.fulfils hl hd h
  exact ⟨t, _, arrive_of_settlesTo ht, ht.last, hk, hb.linked hl, hd.grown hb.grown nofun, helems⟩

end Eval

end SchemaMock
