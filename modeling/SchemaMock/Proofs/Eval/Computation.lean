import SchemaMock.Arena

/-! # Computations on an arena

Rules to reason about a computation by its parts: what it gives when it does not fail, and how the
arena that it leaves relates to the one that it found.
-/

namespace SchemaMock

namespace Attempt

variable {α β : Type} {P : α → Prop} {Q : β → Prop}

theorem run_bind (m : Attempt α) (k : α → Attempt β) (a : Arena) :
    (m >>= k).run a = match m.run a with
      | (.ok x, b) => (k x).run b
      | (.error f, b) => (.error f, b) := by
  show ExceptT.bindCont k (m.run a).1 (m.run a).2 = _
  rcases m.run a with ⟨f | x, b⟩ <;> rfl

theorem run_perform (m : Eval α) (a : Arena) : (perform m).run a = (.ok (m a).1, (m a).2) := rfl

/-- Whatever a computation gives, unless it fails, has the property. -/
def Gives (m : Attempt α) (P : α → Prop) : Prop := ∀ a x b, m.run a = (.ok x, b) → P x

theorem gives_any (m : Attempt α) : Gives m fun _ => True := fun _ _ _ _ => trivial

theorem gives_pure {x : α} (h : P x) : Gives (pure x) P := by
  intro a y b hy
  cases hy
  exact h

theorem gives_throw (f : Fault) : Gives (throw f) P := by
  intro a y b hy
  cases hy

theorem Gives.bind {m : Attempt α} {k : α → Attempt β} (hm : Gives m P)
    (hk : ∀ x, P x → Gives (k x) Q) : Gives (m >>= k) Q := by
  intro a y b hy
  rw [run_bind] at hy
  rcases hx : m.run a with ⟨f | x, c⟩
  · rw [hx] at hy
    cases hy
  · rw [hx] at hy
    exact hk x (hm a x c hx) c y b hy

theorem gives_mapM {f : α → Attempt β} {xs : List α} (h : ∀ x ∈ xs, Gives (f x) Q) :
    Gives (xs.mapM f) fun ys => ∀ y ∈ ys, Q y := by
  induction xs with
  | nil => exact gives_pure (by simp)
  | cons x xs ih =>
    rw [List.mapM_cons]
    refine (h x (by simp)).bind fun y hy => ?_
    refine (ih fun z hz => h z (by simp [hz])).bind fun ys hys => gives_pure ?_
    intro z hz
    rcases List.mem_cons.mp hz with rfl | hz
    · exact hy
    · exact hys z hz

end Attempt

/-- A relation between an earlier arena and a later one. -/
class Lasting (R : Arena → Arena → Prop) : Prop where
  refl (a : Arena) : R a a
  trans {a b c : Arena} : R a b → R b c → R a c

namespace Eval

variable {α β : Type} {R S : Arena → Arena → Prop}

theorem run_bind (m : Eval α) (k : α → Eval β) (a : Arena) : (m >>= k) a = k (m a).1 (m a).2 := rfl

theorem run_mapM_cons (f : α → Eval β) (x : α) (xs : List α) (a : Arena) :
    (x :: xs).mapM f a =
      ((f x a).1 :: (xs.mapM f (f x a).2).1, (xs.mapM f (f x a).2).2) := by
  rw [List.mapM_cons]
  rfl

theorem run_mapM_three {f : α → Eval β} {x y z : α} {a b c d : Arena} {u v w : β}
    (hx : f x a = (u, b)) (hy : f y b = (v, c)) (hz : f z c = (w, d)) :
    [x, y, z].mapM f a = ([u, v, w], d) := by
  rw [run_mapM_cons, hx, run_mapM_cons, hy, run_mapM_cons, hz]
  rfl

/-- The arena that a computation leaves is related to the one that it found. -/
def Keeps (R : Arena → Arena → Prop) (m : Eval α) : Prop := ∀ a, R a (m a).2

theorem Keeps.mono {m : Eval α} (h : Keeps R m) (hRS : ∀ a b, R a b → S a b) : Keeps S m :=
  fun a => hRS a _ (h a)

variable [Lasting R]

theorem keeps_pure (x : α) : Keeps R (pure x : Eval α) := fun a => Lasting.refl a

theorem keeps_view (f : Arena → α) : Keeps R (view f) := fun a => Lasting.refl a

theorem keeps_vertex (v : Nat) : Keeps R (vertex v) := fun a => Lasting.refl a

theorem Keeps.bind {m : Eval α} {k : α → Eval β} (hm : Keeps R m) (hk : ∀ x, Keeps R (k x)) :
    Keeps R (m >>= k) := fun a => Lasting.trans (hm a) (hk _ _)

theorem keeps_mapM {f : α → Eval β} (hf : ∀ x, Keeps R (f x)) (xs : List α) :
    Keeps R (xs.mapM f) := by
  induction xs with
  | nil => exact keeps_pure []
  | cons x xs ih =>
    rw [List.mapM_cons]
    exact (hf x).bind fun y => ih.bind fun ys => keeps_pure _

theorem keeps_forM {f : α → Eval PUnit} (hf : ∀ x, Keeps R (f x)) (xs : List α) :
    Keeps R (xs.forM f) := by
  induction xs with
  | nil => exact keeps_pure _
  | cons x xs ih => exact (hf x).bind fun _ => ih

theorem keeps_anyM {f : α → Eval Bool} (hf : ∀ x, Keeps R (f x)) (xs : List α) :
    Keeps R (xs.anyM f) := by
  induction xs with
  | nil => exact keeps_pure _
  | cons x xs ih =>
    refine (hf x).bind fun b => ?_
    cases b
    · exact ih
    · exact keeps_pure _

theorem keeps_allM {f : α → Eval Bool} (hf : ∀ x, Keeps R (f x)) (xs : List α) :
    Keeps R (xs.allM f) := by
  induction xs with
  | nil => exact keeps_pure _
  | cons x xs ih =>
    refine (hf x).bind fun b => ?_
    cases b
    · exact keeps_pure _
    · exact ih

end Eval

namespace Attempt

open Eval

variable {α β : Type} {R : Arena → Arena → Prop} [Lasting R]

theorem keeps_pure (x : α) : Keeps R (pure x : Attempt α).run := fun a => Lasting.refl a

theorem keeps_throw (f : Fault) : Keeps R (throw f : Attempt α).run := fun a => Lasting.refl a

theorem keeps_refuse (c : Cause) : Keeps R (refuse c : Attempt α).run := fun a => Lasting.refl a

theorem keeps_ofExcept (x : Except Cause α) : Keeps R (ofExcept x).run := by
  cases x <;> exact fun a => Lasting.refl a

theorem keeps_ofResult (x : Except Fault α) : Keeps R (ofResult x).run := fun a => Lasting.refl a

omit [Lasting R] in
theorem keeps_perform {m : Eval α} (h : Keeps R m) : Keeps R (perform m).run := fun a => h a

theorem keeps_bind {m : Attempt α} {k : α → Attempt β} (hm : Keeps R m.run)
    (hk : ∀ x, Keeps R (k x).run) : Keeps R (m >>= k).run := by
  intro a
  have hm := hm a
  rw [run_bind]
  rcases hx : m.run a with ⟨f | x, b⟩ <;> rw [hx] at hm
  · exact hm
  · exact Lasting.trans hm (hk x b)

theorem keeps_mapM {f : α → Attempt β} (hf : ∀ x, Keeps R (f x).run) (xs : List α) :
    Keeps R (xs.mapM f).run := by
  induction xs with
  | nil => exact keeps_pure []
  | cons x xs ih =>
    rw [List.mapM_cons]
    exact keeps_bind (hf x) fun y => keeps_bind ih fun ys => keeps_pure _

end Attempt

/-! ## Invariants -/

/-- An invariant of arenas lasts. -/
def Preserves (I : Arena → Prop) (a b : Arena) : Prop := I a → I b

instance (I : Arena → Prop) : Lasting (Preserves I) where
  refl _ := id
  trans h h' := h' ∘ h

namespace Eval

variable {α β : Type} {I : Arena → Prop} {P : α → Prop} {Q : β → Prop}

/-- Where an invariant holds, the computation upholds it and gives something that has the
property. -/
def Upholds (I : Arena → Prop) (m : Eval α) (P : α → Prop) : Prop :=
  ∀ a, I a → I (m a).2 ∧ P (m a).1

theorem Keeps.upholds {m : Eval α} (h : Keeps (Preserves I) m) : Upholds I m fun _ => True :=
  fun a ha => ⟨h a ha, trivial⟩

theorem Upholds.keeps {m : Eval α} (h : Upholds I m P) : Keeps (Preserves I) m :=
  fun a ha => (h a ha).1

theorem upholds_pure {x : α} (h : P x) : Upholds I (pure x) P := fun _ ha => ⟨ha, h⟩

theorem upholds_view {f : Arena → α} (h : ∀ a, I a → P (f a)) : Upholds I (view f) P :=
  fun a ha => ⟨ha, h a ha⟩

theorem Upholds.bind {m : Eval α} {k : α → Eval β} (hm : Upholds I m P)
    (hk : ∀ x, P x → Upholds I (k x) Q) : Upholds I (m >>= k) Q :=
  fun a ha => hk _ (hm a ha).2 _ (hm a ha).1

theorem upholds_mapM {f : α → Eval β} {xs : List α} (h : ∀ x ∈ xs, Upholds I (f x) Q) :
    Upholds I (xs.mapM f) fun ys => ∀ y ∈ ys, Q y := by
  induction xs with
  | nil => exact upholds_pure (List.forall_mem_nil _)
  | cons x xs ih =>
    rw [List.mapM_cons]
    refine (h x List.mem_cons_self).bind fun y hy => ?_
    refine (ih fun z hz => h z (List.mem_cons_of_mem x hz)).bind fun ys hys => ?_
    exact upholds_pure (List.forall_mem_cons.mpr ⟨hy, hys⟩)

theorem upholds_forM {f : α → Eval PUnit} {xs : List α}
    (h : ∀ x ∈ xs, Upholds I (f x) fun _ => True) :
    Upholds I (xs.forM f) fun _ => True := by
  induction xs with
  | nil => exact upholds_pure trivial
  | cons x xs ih =>
    exact (h x List.mem_cons_self).bind fun _ _ => ih fun z hz => h z (List.mem_cons_of_mem x hz)

/-- What an attempt gives whenever it succeeds, and what it leaves. -/
theorem upholds_of_gives {m : Attempt α} (h : Keeps (Preserves I) m.run) (hm : m.Gives P) :
    Upholds I m.run fun r => ∀ x, r = .ok x → P x :=
  fun a ha => ⟨h a ha, fun x hx => hm a x (m.run a).2 (Prod.ext hx rfl)⟩

end Eval

end SchemaMock
