import Mathlib.Logic.Basic
import SchemaMock.Eval.Structure
import SchemaMock.Proofs.Condition

/-! # List literals

A list literal has conditions for its elements and perhaps a condition for all further ones. It
describes the arrays of its own length, or of that length at least, whose items meet the conditions.
Several literals are unified at one field: in one declaration or in many. They have to agree on a
length; where one of them fixes it, this is the case when all others allow it.
-/

namespace SchemaMock

open Eval

structure ListLiteral where
  elems : List Condition
  /-- What all further elements have to meet, if there may be any. -/
  tail : Option Condition

namespace ListLiteral

def toExpr (s : ListLiteral) : Expr := .list (s.elems.map Condition.toExpr)
    (s.tail.map Condition.toExpr)

def conditions (s : ListLiteral) : List Condition := s.elems ++ s.tail.toList

def at? (s : ListLiteral) (i : Nat) : Option Condition :=
  match s.elems[i]? with
  | some t => some t
  | none => s.tail

def AllowsLength (s : ListLiteral) (n : Nat) : Prop :=
  match s.tail with
  | none => n = s.elems.length
  | some _ => s.elems.length ≤ n

instance (s : ListLiteral) (n : Nat) : Decidable (s.AllowsLength n) :=
  match h : s.tail with
  | none => decidable_of_iff (n = s.elems.length) (by rw [AllowsLength, h])
  | some _ => decidable_of_iff (s.elems.length ≤ n) (by rw [AllowsLength, h])

/-- The literal describes the array. -/
structure Describes (s : ListLiteral) (items : List Json) : Prop where
  length : s.AllowsLength items.length
  items : ∀ i (h : i < items.length), ∀ t ∈ s.at? i, Condition.admitsJson items[i] t = true

instance (s : ListLiteral) (items : List Json) : Decidable (s.Describes items) :=
  decidable_of_iff (s.AllowsLength items.length ∧
    ∀ i (h : i < items.length), ∀ t ∈ s.at? i, Condition.admitsJson items[i] t = true)
    ⟨fun h => ⟨h.1, h.2⟩, fun h => ⟨h.length, h.items⟩⟩

theorem mem_conditions {s : ListLiteral} {i : Nat} {t : Condition} (h : s.at? i = some t) :
    t ∈ s.conditions := by
  rw [at?] at h
  split at h
  · next u hu =>
    cases h
    exact List.mem_append_left _ (List.mem_of_getElem? hu)
  · exact List.mem_append_right _ (Option.mem_toList.mpr h)

def allAt (ss : List ListLiteral) (i : Nat) : List Condition := ss.filterMap (·.at? i)

/-- Literals describe an array together when they allow its length and its items meet all conditions
for their positions. -/
theorem forall_describes_iff {ss : List ListLiteral} {items : List Json} :
    (∀ s ∈ ss, s.Describes items) ↔ (∀ s ∈ ss, s.AllowsLength items.length) ∧
      ∀ i (h : i < items.length), ∀ t ∈ allAt ss i, Condition.admitsJson items[i] t = true := by
  constructor
  · refine fun h => ⟨fun s hs => (h s hs).length, fun i hi t ht => ?_⟩
    obtain ⟨s, hs, hst⟩ := List.mem_filterMap.mp ht
    exact (h s hs).items i hi t hst
  · rintro ⟨hlength, hitems⟩ s hs
    exact ⟨hlength s hs, fun i hi t ht => hitems i hi t (List.mem_filterMap.mpr ⟨s, hs, ht⟩)⟩

def part (s : ListLiteral) (scope : Nat) : ListPart :=
  ⟨s.elems.map Condition.toExpr, s.tail.map Condition.toExpr, scope, false⟩

theorem conjunct?_part (s : ListLiteral) (scope i : Nat) : ListPart.conjunct? (s.part scope) i =
    (s.at? i).map fun t => .of t.toExpr scope false := by
  simp only [ListPart.conjunct?, part, at?, List.getElem?_map]
  cases s.elems[i]? <;> simp [Function.comp_def]

end ListLiteral

/-! ## Lengths -/

def ListPart.Allows (q : ListPart) (n : Nat) : Prop :=
  match q.tail with
  | none => n = q.elems.length
  | some _ => q.elems.length ≤ n

theorem ListLiteral.allows_part {s : ListLiteral} {scope n : Nat} : (s.part scope).Allows n ↔
    s.AllowsLength n := by
  obtain ⟨elems, tail⟩ := s
  cases tail <;> simp [ListPart.Allows, AllowsLength, part]

theorem foldl_max_le {ns : List Nat} {n m : Nat} : ns.foldl max n ≤ m ↔ n ≤ m ∧
    ∀ k ∈ ns, k ≤ m := by
  induction ns generalizing n with
  | nil => simp
  | cons k ns ih =>
    rw [List.foldl_cons, ih, Nat.max_le, List.forall_mem_cons, and_assoc]

namespace Eval

variable {p : ListPart} {ps : List ListPart}

/-- What the lengths of literals are compared with, once one of them has no tail. -/
theorem agreedLength_cons (hp : p.tail = none) (ps : List ListPart) :
    agreedLength (p :: ps) =
      match ((ps.filter (·.tail.isNone)).map (·.elems.length)).find? (· != p.elems.length) with
      | some other => .error (p.elems.length, other)
      | none =>
        if p.elems.length < (ps.map (·.elems.length)).foldl max p.elems.length then
          .error (p.elems.length, (ps.map (·.elems.length)).foldl max p.elems.length)
        else .ok p.elems.length := by
  have hfixed : (p :: ps).filter (·.tail.isNone) = p :: ps.filter (·.tail.isNone) :=
    List.filter_cons_of_pos (by rw [hp]; rfl)
  rw [agreedLength, hfixed, List.map_cons, List.map_cons, List.foldl_cons]
  rfl

/-- A literal without tail fixes the length, if the others allow it. -/
theorem agreedLength_of_allows (hp : p.tail = none) (h : ∀ q ∈ ps, q.Allows p.elems.length) :
    agreedLength (p :: ps) = .ok p.elems.length := by
  have hnone :
      ((ps.filter (·.tail.isNone)).map (·.elems.length)).find? (· != p.elems.length) = none := by
    rw [List.find?_eq_none]
    intro n hn
    obtain ⟨q, hq, rfl⟩ := List.mem_map.mp hn
    obtain ⟨hq, hfixed⟩ := List.mem_filter.mp hq
    have hallows := h q hq
    rw [ListPart.Allows, Option.isNone_iff_eq_none.mp hfixed] at hallows
    simp [hallows]
  have hlongest : (ps.map (·.elems.length)).foldl max p.elems.length ≤ p.elems.length := by
    refine foldl_max_le.mpr ⟨Nat.le_refl _, fun n hn => ?_⟩
    obtain ⟨q, hq, rfl⟩ := List.mem_map.mp hn
    have hallows := h q hq
    rw [ListPart.Allows] at hallows
    split at hallows
    · exact Nat.le_of_eq hallows.symm
    · exact hallows
  rw [agreedLength_cons hp, hnone]
  exact if_neg (Nat.not_lt_of_ge hlongest)

/-- The lengths clash if one of the others does not allow it. -/
theorem exists_agreedLength_error (hp : p.tail = none) (h : ¬ ∀ q ∈ ps, q.Allows p.elems.length) :
    ∃ lengths, agreedLength (p :: ps) = .error lengths := by
  rw [agreedLength_cons hp]
  split
  · exact ⟨_, rfl⟩
  case h_2 hnone =>
    refine ⟨_, if_pos ?_⟩
    refine Nat.lt_of_not_le fun hlongest => h fun q hq => ?_
    rw [ListPart.Allows]
    split
    · next hfixed =>
      rw [List.find?_eq_none] at hnone
      have hmem : q ∈ ps.filter (·.tail.isNone) := List.mem_filter.mpr ⟨hq, by simp [hfixed]⟩
      have hsame : ¬ (q.elems.length != p.elems.length) = true := hnone _ (List.mem_map_of_mem hmem)
      rw [bne_iff_ne, ne_eq, not_not] at hsame
      exact hsame.symm
    · exact (foldl_max_le.mp hlongest).2 _ (List.mem_map_of_mem hq)

end Eval

/-! ## Declarations of lists -/

/-- What a field of lists is declared as: `_`, a literal, or several of them, unified. -/
inductive ListTerm where
  | any
  | literal (s : ListLiteral)
  | both (a b : ListTerm)

namespace ListTerm

def toExpr : ListTerm → Expr
  | any => .top
  | literal s => s.toExpr
  | both a b => .binary .unify a.toExpr b.toExpr

def literals : ListTerm → List ListLiteral
  | any => []
  | literal s => [s]
  | both a b => a.literals ++ b.literals

def own : ListTerm → List ListLiteral
  | literal s => [s]
  | _ => []

/-- What is left for the next round of unification. -/
def operands : ListTerm → List ListTerm
  | both a b => [a, b]
  | _ => []

def height : ListTerm → Nat
  | both a b => max a.height b.height + 1
  | _ => 1

def breadthFirst : Nat → List ListTerm → List ListLiteral
  | 0, _ => []
  | n + 1, ts => ts.flatMap own ++ breadthFirst n (ts.flatMap operands)

variable {ts : List ListTerm} {n : Nat}

theorem height_pos (t : ListTerm) : 0 < t.height := by
  cases t <;> simp [height]

theorem height_operands (h : ∀ t ∈ ts, t.height ≤ n + 1) :
    ∀ t ∈ ts.flatMap operands, t.height ≤ n := by
  intro t ht
  obtain ⟨u, hu, htu⟩ := List.mem_flatMap.mp ht
  have hle := h u hu
  cases u with
  | both a b =>
    simp only [height] at hle
    simp only [operands, List.mem_cons, List.not_mem_nil, or_false] at htu
    rcases htu with rfl | rfl <;> omega
  | _ => cases htu

theorem mem_literals {s : ListLiteral} {t : ListTerm} :
    s ∈ t.literals ↔ s ∈ t.own ∨ ∃ u ∈ t.operands, s ∈ u.literals := by
  cases t <;> simp [literals, own, operands]

/-- Enough rounds reach all literals. -/
theorem mem_breadthFirst {s : ListLiteral} (h : ∀ t ∈ ts, t.height ≤ n) :
    s ∈ breadthFirst n ts ↔ s ∈ ts.flatMap literals := by
  induction n generalizing ts with
  | zero =>
    have hnil : ts = [] := List.eq_nil_iff_forall_not_mem.mpr fun t ht =>
      absurd (h t ht) (Nat.not_le_of_gt t.height_pos)
    subst hnil
    rfl
  | succ n ih =>
    rw [breadthFirst, List.mem_append, ih (height_operands h)]
    constructor
    · rintro (hs | hs)
      · obtain ⟨t, ht, hs⟩ := List.mem_flatMap.mp hs
        exact List.mem_flatMap.mpr ⟨t, ht, mem_literals.mpr (.inl hs)⟩
      · obtain ⟨u, hu, hs⟩ := List.mem_flatMap.mp hs
        obtain ⟨t, ht, hu⟩ := List.mem_flatMap.mp hu
        exact List.mem_flatMap.mpr ⟨t, ht, mem_literals.mpr (.inr ⟨u, hu, hs⟩)⟩
    · intro hs
      obtain ⟨t, ht, hs⟩ := List.mem_flatMap.mp hs
      rcases mem_literals.mp hs with hs | ⟨u, hu, hs⟩
      · exact .inl (List.mem_flatMap.mpr ⟨t, ht, hs⟩)
      · exact .inr (List.mem_flatMap.mpr ⟨u, List.mem_flatMap.mpr ⟨t, ht, hu⟩, hs⟩)

end ListTerm

end SchemaMock
