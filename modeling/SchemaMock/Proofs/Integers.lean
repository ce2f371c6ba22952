import Mathlib.Algebra.Order.Ring.Int
import SchemaMock.Builtin.Call
import SchemaMock.Proofs.Outcome

/-! # Integers of 128 bits

An operation on integers gives the exact result where that has a place in 128 bits, and an overflow
just where it has none. So no operator and no function leads out of the range.
-/

namespace SchemaMock

/-- An integer has a place in 128 bits; other scalars are never out of range. -/
def Scalar.InRange : Scalar → Prop
  | int i => -2 ^ 127 ≤ i ∧ i ≤ 2 ^ 127 - 1
  | _ => True

instance (x : Scalar) : Decidable x.InRange :=
  match x with
  | .int i => inferInstanceAs (Decidable (-2 ^ 127 ≤ i ∧ i ≤ 2 ^ 127 - 1))
  | .null | .bool _ | .float _ | .str _ => isTrue trivial

/-- An outcome is exact when it is the integer where that is in range, and an overflow where it is
not. -/
structure Scalar.Exact (r : Except Cause Scalar) (i : Int) : Prop where
  ok_iff : r = .ok (.int i) ↔ (int i).InRange
  overflow_iff : r = .error .integerOverflow ↔ ¬ (int i).InRange

/-- The integers of a host value that a function can get at are in range, its size among them. A
host holds integers and sizes of 64 bits. -/
def Json.InRange : Json → Prop
  | .int i => (Scalar.int i).InRange
  | .str s => (Scalar.int s.utf8ByteSize).InRange
  | .arr items =>
    (Scalar.int items.length).InRange ∧ ∀ i, Json.int i ∈ items → (Scalar.int i).InRange
  | .obj fields => (Scalar.int fields.length).InRange
  | _ => True

namespace Scalar

variable {x y z : Scalar}

theorem fits128_iff {i : Int} : fits128 i = true ↔ (int i).InRange := by
  simp only [fits128, Bool.and_eq_true, decide_eq_true_eq, InRange]
  omega

theorem ofInt?_exact (i : Int) : Exact (ofInt? i) i := by
  unfold ofInt?
  by_cases h : fits128 i = true
  · rw [if_pos h]
    exact ⟨iff_of_true rfl (fits128_iff.mp h), iff_of_false nofun fun hno => hno (fits128_iff.mp h)⟩
  · rw [if_neg h]
    exact ⟨iff_of_false nofun (mt fits128_iff.mpr h), iff_of_true rfl (mt fits128_iff.mpr h)⟩

theorem inRange_of_ofInt? {i : Int} (h : ofInt? i = .ok z) : z.InRange := by
  unfold ofInt? at h
  split at h
  · cases h
    exact fits128_iff.mp ‹_›
  · cases h

end Scalar

open Scalar

variable {x y z : Scalar}

/-! ## Operators -/

theorem UnaryOp.inRange_apply {op : UnaryOp} (hx : x.InRange) (h : op.apply x = .ok z) :
    z.InRange := by
  unfold UnaryOp.apply at h
  split at h
  case h_2 => exact inRange_of_ofInt? h
  case h_4 =>
    cases h
    exact hx
  case h_6 => split at h <;> cases h
  all_goals
    cases h
    trivial

namespace BinaryOp

theorem inRange_order {op : BinaryOp} {allows : Ordering → Bool} (h : order op allows x y = .ok z) :
    z.InRange := by
  unfold order at h
  split at h <;> cases h
  trivial

theorem inRange_logical {op : BinaryOp} {f : Bool → Bool → Bool} (h : logical op f x y = .ok z) :
    z.InRange := by
  unfold logical at h
  split at h <;> cases h
  trivial

/-- Integers give an integer, and a float makes the result a float. -/
theorem inRange_arithmetic {op : BinaryOp} {onInts : Int → Int → Int}
    {onFloats : Float → Float → Float} (h : arithmetic op onInts onFloats x y = .ok z) :
    z.InRange := by
  unfold arithmetic at h
  split at h
  · exact inRange_of_ofInt? h
  · split at h <;> cases h
    trivial

theorem inRange_divide (h : divide x y = .ok z) : z.InRange := by
  unfold divide at h
  split at h
  · split at h <;> cases h
    trivial
  · cases h

theorem inRange_apply {op : BinaryOp} (h : op.apply x y = .ok z) : z.InRange := by
  cases op with
  | eq | ne =>
    obtain ⟨b, -, rfl⟩ := Except.exists_of_map_eq_ok h
    trivial
  | lt | le | gt | ge => exact inRange_order h
  | and | or => exact inRange_logical h
  | add =>
    simp only [apply] at h
    split at h
    · cases h
      trivial
    · exact inRange_arithmetic h
  | sub | mul => exact inRange_arithmetic h
  | div => exact inRange_divide h
  | unify | disjoin => cases h

end BinaryOp

/-! ## Functions -/

namespace Builtin

variable {f : Builtin} {j : Json} {xs : List Scalar}

theorem inRange_numbers (hj : j.InRange) (h : numbers f j = .ok xs) : ∀ x ∈ xs, x.InRange := by
  obtain ⟨items, hitems, hxs⟩ := Except.exists_of_bind_eq_ok h
  intro x hx
  obtain ⟨item, hmem, hitem⟩ := Except.exists_of_mem_mapM hxs x hx
  cases j with
  | arr items =>
    cases hitems
    cases item with
    | int i =>
      cases hitem
      exact hj.2 i hmem
    | float x =>
      cases hitem
      trivial
    | _ => cases hitem
  | _ => cases hitems

theorem inRange_lengthOf {n : Nat} (hj : j.InRange) (h : lengthOf j = .ok n) : (int n).InRange := by
  cases j <;> cases h
  case str s => exact hj
  case arr items => exact hj.1
  case obj fields => exact hj

theorem inRange_sum (h : sum xs = .ok z) : z.InRange := by
  have hzero : (int 0).InRange := by decide
  unfold sum at h
  generalize int 0 = start at h hzero
  induction xs generalizing start with
  | nil =>
    cases h
    exact hzero
  | cons x xs ih =>
    rw [List.foldlM_cons] at h
    obtain ⟨next, hnext, h⟩ := Except.exists_of_bind_eq_ok h
    exact ih next h (BinaryOp.inRange_apply hnext)

/-- A reduction that keeps or replaces its item ends at one of the items. -/
theorem foldl_mem {α : Type} {g : α → α → α} (hg : ∀ best n, g best n = best ∨ g best n = n)
    (first : α) (rest : List α) : rest.foldl g first ∈ first :: rest := by
  induction rest generalizing first with
  | nil => exact List.mem_cons_self
  | cons n rest ih =>
    rw [List.foldl_cons]
    rcases hg first n with h | h <;> rw [h]
    · rcases List.mem_cons.mp (ih first) with he | hmem
      · rw [he]
        exact List.mem_cons_self
      · exact List.mem_cons_of_mem first (List.mem_cons_of_mem n hmem)
    · exact List.mem_cons_of_mem first (ih n)

theorem mem_of_extreme? {want : Ordering} (h : extreme? want xs = some x) : x ∈ xs := by
  cases xs with
  | nil => cases h
  | cons first rest =>
    cases h
    refine foldl_mem (fun best n => ?_) first rest
    split
    · exact .inr rfl
    · exact .inl rfl

theorem inRange_extreme {want : Ordering} (hj : j.InRange) (h : extreme f want j = .ok z) :
    z.InRange := by
  obtain ⟨xs, hxs, h⟩ := Except.exists_of_bind_eq_ok h
  split at h
  case h_1 best hbest =>
    cases h
    exact inRange_numbers hj hxs _ (mem_of_extreme? hbest)
  case h_2 => cases h

theorem inRange_textTest {test : List Char → List Char → Bool} {whole part : Json}
    (h : textTest f test whole part = .ok z) : z.InRange := by
  obtain ⟨s, -, h⟩ := Except.exists_of_bind_eq_ok h
  obtain ⟨t, -, h⟩ := Except.exists_of_bind_eq_ok h
  cases h
  trivial

theorem inRange_join {items separator : Json} (h : join items separator = .ok z) : z.InRange := by
  obtain ⟨found, -, h⟩ := Except.exists_of_bind_eq_ok h
  obtain ⟨parts, -, h⟩ := Except.exists_of_bind_eq_ok h
  obtain ⟨s, -, h⟩ := Except.exists_of_bind_eq_ok h
  cases h
  trivial

theorem inRange_call {args : List Json} (hargs : ∀ j ∈ args, j.InRange) (h : f.call args = .ok z) :
    z.InRange := by
  unfold call at h
  split at h
  case h_1 j =>
    obtain ⟨n, hn, h⟩ := Except.exists_of_bind_eq_ok h
    cases h
    exact inRange_lengthOf (hargs j List.mem_cons_self) hn
  case h_3 j =>
    obtain ⟨xs, -, h⟩ := Except.exists_of_bind_eq_ok h
    exact inRange_sum h
  case h_4 j => exact inRange_extreme (hargs j List.mem_cons_self) h
  case h_5 j => exact inRange_extreme (hargs j List.mem_cons_self) h
  case h_6 | h_7 | h_8 => exact inRange_textTest h
  case h_11 => exact inRange_join h
  case h_12 => cases h
  case h_2 | h_9 | h_10 =>
    obtain ⟨s, -, h⟩ := Except.exists_of_bind_eq_ok h
    cases h
    trivial

/-! ## Sums -/

theorem numbers_ints (f : Builtin) (items : List Int) :
    numbers f (.arr (items.map .int)) = .ok (items.map .int) := by
  show (items.map Json.int).mapM (numberArg f) = _
  induction items with
  | nil => rfl
  | cons i items ih =>
    rw [List.map_cons, List.mapM_cons, ih]
    rfl

/-- With every further item the sum stays within what is left for the items to come. -/
theorem foldlM_add {items : List Int} {start : Int} (hitems : ∀ i ∈ items, Json.fits64 i = true)
    (hlow : -2 ^ 127 ≤ start - 2 ^ 63 * items.length)
    (hhigh : start + (2 ^ 64 - 1) * items.length ≤ 2 ^ 127 - 1) :
    (items.map int).foldlM (BinaryOp.apply .add) (int start) = .ok (int (start + items.sum)) := by
  induction items generalizing start with
  | nil => rw [List.sum_nil, Int.add_zero]; rfl
  | cons i items ih =>
    rw [List.forall_mem_cons] at hitems
    have hi : -2 ^ 63 ≤ i ∧ i ≤ 2 ^ 64 - 1 := by
      have hfits := hitems.1
      simp only [Json.fits64, Bool.and_eq_true, decide_eq_true_eq] at hfits
      omega
    rw [List.length_cons] at hlow hhigh
    have hadd : BinaryOp.apply .add (int start) (int i) = .ok (int (start + i)) :=
      (ofInt?_exact (start + i)).ok_iff.mpr (by
        simp only [InRange]
        omega)
    rw [List.map_cons, List.foldlM_cons, hadd, List.sum_cons, ← Int.add_assoc]
    exact ih hitems.2 (by omega) (by omega)

theorem call_listSum {items : List Int} (hitems : ∀ i ∈ items, Json.fits64 i = true)
    (hlength : items.length < 2 ^ 63) :
    call .listSum [.arr (items.map .int)] = .ok (.int items.sum) := by
  show numbers .listSum _ >>= sum = _
  rw [numbers_ints]
  show (items.map int).foldlM (BinaryOp.apply .add) (int 0) = _
  rw [foldlM_add hitems (by omega) (by omega), Int.zero_add]

end Builtin

/-- Integers are exact in 128 bits: sums, differences, products and negations are the exact integers
where these are in range and overflow just where they are not. No operator and no function gives an
integer out of range, and the sum of fewer than 2^63 integers of a host never overflows on the
way. -/
theorem Scalar.integers_exact :
    (∀ a b : Int, Exact (BinaryOp.add.apply (int a) (int b)) (a + b) ∧
      Exact (BinaryOp.sub.apply (int a) (int b)) (a - b) ∧
      Exact (BinaryOp.mul.apply (int a) (int b)) (a * b)) ∧
    (∀ a : Int, Exact (UnaryOp.neg.apply (int a)) (-a)) ∧
    Cause.integerOverflow.message = "integer overflow" ∧
    (∀ (op : UnaryOp) (x z : Scalar), x.InRange → op.apply x = .ok z → z.InRange) ∧
    (∀ (op : BinaryOp) (x y z : Scalar), x.InRange → y.InRange → op.apply x y = .ok z → z.InRange) ∧
    (∀ (f : Builtin) (args : List Json) (z : Scalar),
      (∀ j ∈ args, j.InRange) → f.call args = .ok z → z.InRange) ∧
    ∀ items : List Int, (∀ i ∈ items, Json.fits64 i = true) → items.length < 2 ^ 63 →
      Builtin.call .listSum [.arr (items.map .int)] = .ok (int items.sum) := by
  refine ⟨fun a b => ⟨ofInt?_exact (a + b), ofInt?_exact (a - b), ofInt?_exact (a * b)⟩,
    fun a => ofInt?_exact (-a), rfl, ?_, ?_, ?_, ?_⟩
  · exact fun op x z hx h => op.inRange_apply hx h
  · exact fun op x y z _ _ h => op.inRange_apply h
  · exact fun f args z hargs h => Builtin.inRange_call hargs h
  · exact fun items hitems hlength => Builtin.call_listSum hitems hlength

/-- The ends of 128 bits, and of the integers that a host holds. -/
theorem Scalar.integers_exact_at_ends :
    BinaryOp.add.apply (int (2 ^ 127 - 1)) (int 1) = .error .integerOverflow ∧
      UnaryOp.neg.apply (int (-2 ^ 127)) = .error .integerOverflow ∧
      BinaryOp.mul.apply (int (-2 ^ 126)) (int 2) = .ok (int (-2 ^ 127)) ∧
      (int (-2 ^ 127)).InRange ∧
      Builtin.call .listMax [.arr [.int (-2 ^ 63), .int (2 ^ 64 - 1)]] = .ok (int (2 ^ 64 - 1)) ∧
      (int (2 ^ 64 - 1)).InRange ∧
      Builtin.call .listSum [.arr [.int (2 ^ 64 - 1), .int (-2 ^ 63)]] =
        .ok (int (2 ^ 63 - 1)) := by
  obtain ⟨hops, hneg, -, hunary, hbinary, hcall, hsum⟩ := Scalar.integers_exact
  have hargs : (Json.arr [.int (-2 ^ 63), .int (2 ^ 64 - 1)]).InRange := by
    refine ⟨by decide, fun i hi => ?_⟩
    simp only [List.mem_cons, Json.int.injEq, List.not_mem_nil, or_false] at hi
    rcases hi with rfl | rfl <;> decide
  have hproduct : BinaryOp.mul.apply (int (-2 ^ 126)) (int 2) = .ok (int (-2 ^ 127)) :=
    (hops (-2 ^ 126) 2).2.2.ok_iff.mpr (by decide)
  have hleast : (int (-2 ^ 127)).InRange := hbinary .mul _ _ _ (by decide) (by decide) hproduct
  exact ⟨(hops _ _).1.overflow_iff.mpr (by decide), (hneg _).overflow_iff.mpr (by decide), hproduct,
    hunary .plus _ _ hleast rfl, rfl, hcall .listMax _ _ (List.forall_mem_singleton.mpr hargs) rfl,
    hsum [2 ^ 64 - 1, -2 ^ 63] (by decide) (by decide)⟩

end SchemaMock
