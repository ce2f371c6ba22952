import SchemaMock.Json.Basic
import SchemaMock.Operator
import SchemaMock.Proofs.Lattice

/-! # Conditions on host values

A condition is a conjunction of type names, bounds and literals. A scalar meets it when it meets
every conjunct; objects and arrays meet only what excludes no kind. Unification splits a conjunction
round by round and narrows a value by one conjunct after the other. This agrees with the condition.
-/

namespace SchemaMock

def Scalar.toExpr : Scalar → Expr
  | null => .null
  | bool b => .bool b
  | int i => .int i
  | float x => .float x
  | str s => .str s

def BoundOp.toUnary : BoundOp → UnaryOp
  | notEqual => .notEqual
  | less => .less
  | lessEqual => .lessEqual
  | greater => .greater
  | greaterEqual => .greaterEqual

theorem BoundOp.ofUnary?_toUnary (op : BoundOp) : ofUnary? op.toUnary = some op := by
  cases op <;> rfl

/-- A scalar literal, or a number literal behind a minus sign. -/
inductive Constant where
  | plain (s : Scalar)
  | minusInt (i : Int) (fits : fits128 (-i) = true)
  | minusFloat (x : Float)

namespace Constant

def value : Constant → Scalar
  | plain s => s
  | minusInt i _ => .int (-i)
  | minusFloat x => .float (-x)

def toExpr : Constant → Expr
  | plain s => s.toExpr
  | minusInt i _ => .unary .neg (.int i)
  | minusFloat x => .unary .neg (.float x)

end Constant

structure TypeName where
  name : String
  known : (Constraint.ofTypeName? name).isSome = true

namespace TypeName

def constraint (t : TypeName) : Constraint := (Constraint.ofTypeName? t.name).get t.known

theorem ofTypeName?_name (t : TypeName) : Constraint.ofTypeName? t.name = some t.constraint := by
  simp [constraint]

def int : TypeName := ⟨"int", rfl⟩

def uint : TypeName := ⟨"uint", rfl⟩

def string : TypeName := ⟨"string", rfl⟩

end TypeName

inductive Condition where
  /-- Written `_`. -/
  | any
  | type (t : TypeName)
  | bound (op : BoundOp) (c : Constant)
  | equal (c : Constant)
  | both (a b : Condition)

namespace Condition

def toExpr : Condition → Expr
  | any => .top
  | type t => .ident t.name
  | bound op c => .unary op.toUnary c.toExpr
  | equal c => c.toExpr
  | both a b => .binary .unify a.toExpr b.toExpr

def names : Condition → List String
  | type t => [t.name]
  | both a b => a.names ++ b.names
  | _ => []

theorem isSome_of_mem_names {t : Condition} {name : String} (h : name ∈ t.names) :
    (Constraint.ofTypeName? name).isSome = true := by
  induction t with
  | type t =>
    obtain rfl := List.mem_singleton.mp h
    exact t.known
  | both a b iha ihb => exact (List.mem_append.mp h).elim iha ihb
  | _ => cases h

def admits (s : Scalar) : Condition → Bool
  | any => true
  | type t => t.constraint.kinds.meets s.kinds && t.constraint.bounds.all (·.admits s)
  | bound op c => Bound.admits ⟨op, c.value⟩ s
  | equal c => s.same c.value
  | both a b => a.admits s && b.admits s

/-- Whether every conjunct is `_` or the exclusion of a scalar. Objects and arrays meet no
others. -/
def admitsParts : Condition → Bool
  | any => true
  | type _ => false
  | bound op _ => op == .notEqual
  | equal _ => false
  | both a b => a.admitsParts && b.admitsParts

def admitsJson (j : Json) (t : Condition) : Bool :=
  match j with
  | .null => t.admits .null
  | .bool b => t.admits (.bool b)
  | .int i => t.admits (.int i)
  | .float x => t.admits (.float x)
  | .str s => t.admits (.str s)
  | .arr _ | .obj _ => t.admitsParts

/-! ## Rounds of unification -/

def vals : Condition → List Val
  | any => []
  | type t => [.constraint t.constraint]
  | bound op c => [.constraint (.ofBound ⟨op, c.value⟩)]
  | equal c => [.atom c.value]
  | both _ _ => []

def operands : Condition → List Condition
  | both a b => [a, b]
  | _ => []

def height : Condition → Nat
  | both a b => max a.height b.height + 1
  | _ => 1

def breadthFirst : Nat → List Condition → List Val
  | 0, _ => []
  | n + 1, ts => ts.flatMap vals ++ breadthFirst n (ts.flatMap operands)

/-- A value narrowed by conditions that take at most `n` rounds. -/
def narrow (n : Nat) (ts : List Condition) (v : Val) : Val := (breadthFirst n ts).foldl Val.meet v

theorem height_pos (t : Condition) : 0 < t.height := by
  cases t <;> simp [height]

theorem height_operands {ts : List Condition} {n : Nat} (h : ∀ t ∈ ts, t.height ≤ n + 1) :
    ∀ t ∈ ts.flatMap operands, t.height ≤ n := by
  intro t ht
  obtain ⟨u, hu, htu⟩ := List.mem_flatMap.mp ht
  have hle := h u hu
  cases u with
  | both a b =>
    simp only [height] at hle
    simp only [operands, List.mem_cons, List.not_mem_nil, or_false] at htu
    rcases htu with rfl | rfl <;> omega
  | _ => cases htu

/-- More rounds than needed say no more. -/
theorem breadthFirst_of_height_le {ts : List Condition} {n m : Nat} (h : ∀ t ∈ ts, t.height ≤ n)
    (hm : n ≤ m) : breadthFirst m ts = breadthFirst n ts := by
  induction n generalizing m ts with
  | zero =>
    have hnil : ts = [] := List.eq_nil_iff_forall_not_mem.mpr fun t ht =>
      absurd (h t ht) (Nat.not_le_of_gt t.height_pos)
    subst hnil
    have hnone (k : Nat) : breadthFirst k [] = [] := by
      induction k with
      | zero => rfl
      | succ k ih => simp [breadthFirst, ih]
    rw [hnone, hnone]
  | succ n ih =>
    obtain ⟨m, rfl⟩ : ∃ k, m = k + 1 := ⟨m - 1, by omega⟩
    rw [breadthFirst, breadthFirst, ih (height_operands h) (by omega)]

/-- Conditions without operands take a single round. -/
theorem narrow_flat {ts : List Condition} (h : ∀ t ∈ ts, t.operands = []) {n : Nat}
    (hn : 0 < n) (v : Val) : narrow n ts v = (ts.flatMap vals).foldl Val.meet v := by
  have hnone (k : Nat) : breadthFirst k [] = [] :=
    breadthFirst_of_height_le (List.forall_mem_nil _) (Nat.zero_le k)
  have hoperands : ts.flatMap operands = [] := List.flatMap_eq_nil_iff.mpr h
  obtain ⟨k, rfl⟩ : ∃ k, n = k + 1 := ⟨n - 1, by omega⟩
  rw [narrow, breadthFirst, hoperands, hnone, List.append_nil]

end Condition

/-! ## Narrowing -/

namespace Constraint

/-- Types are types of scalars. -/
theorem kinds_of_ofTypeName? {name : String} {c : Constraint} (h : ofTypeName? name = some c) :
    c.kinds.struct = false ∧ c.kinds.list = false := by
  unfold ofTypeName? at h
  split at h <;> cases h <;> exact ⟨rfl, rfl⟩

end Constraint

/-- The kind of a scalar that is within a bound is among the kinds of the bound. -/
theorem Bound.meets_kinds_of_admits {b : Bound} {s : Scalar} (h : b.admits s = true) :
    b.kinds.meets s.kinds = true := by
  obtain ⟨op, t⟩ := b
  cases op <;> cases s <;> cases t <;> first | rfl | cases h

/-- What is ordered is a scalar. -/
theorem Bound.kinds_of_ordering {b : Bound} (h : b.op ≠ .notEqual) :
    b.kinds.struct = false ∧ b.kinds.list = false := by
  obtain ⟨op, s⟩ := b
  cases op with
  | notEqual => exact absurd rfl h
  | _ => cases s <;> exact ⟨rfl, rfl⟩

namespace Val

/-- A value is not left open: if it is bottom, by a final fault. -/
def Final (v : Val) : Prop := ∀ f, v = .bottom f → f.isIncomplete = false

theorem final_meetAtom (s : Scalar) (c : Constraint) : (meetAtom s c).Final := by
  intro f h
  unfold meetAtom at h
  split at h
  · cases h; rfl
  · split at h <;> cases h; rfl

theorem Final.meet {v w : Val} (hv : v.Final) (hw : w.Final) : (v.meet w).Final := by
  cases v with
  | bottom f => cases w <;> exact hv
  | atom s =>
    cases w with
    | bottom f => exact hw
    | constraint c => exact final_meetAtom s c
    | atom t =>
      intro f h
      simp only [Val.meet] at h
      split at h <;> cases h
      rfl
  | constraint c =>
    cases w with
    | bottom f => exact hw
    | atom s => exact final_meetAtom s c
    | constraint d =>
      intro f h
      simp only [Val.meet] at h
      split at h <;> cases h
      rfl

theorem Final.foldl {ws : List Val} {v : Val} (hv : v.Final) (hws : ∀ w ∈ ws, w.Final) :
    (ws.foldl Val.meet v).Final := by
  induction ws generalizing v with
  | nil => exact hv
  | cons w ws ih =>
    exact ih (hv.meet (hws w List.mem_cons_self)) fun x hx => hws x (List.mem_cons_of_mem w hx)

theorem isBottom_foldl {v : Val} (h : v.isBottom = true) (ws : List Val) :
    (ws.foldl Val.meet v).isBottom = true := by
  induction ws generalizing v with
  | nil => exact h
  | cons w ws ih => exact ih (isBottom_meet h w)

end Val

namespace Condition

theorem final_of_mem_breadthFirst {n : Nat} {ts : List Condition} {w : Val}
    (h : w ∈ breadthFirst n ts) : w.Final := by
  induction n generalizing ts with
  | zero => cases h
  | succ n ih =>
    rcases List.mem_append.mp h with h | h
    · obtain ⟨t, -, hw⟩ := List.mem_flatMap.mp h
      intro f hf
      subst hf
      cases t <;> simp [vals] at hw
    · exact ih h

theorem final_narrow {v : Val} (hv : v.Final) (n : Nat) (ts : List Condition) :
    (narrow n ts v).Final :=
  hv.foldl fun _ => final_of_mem_breadthFirst

end Condition

end SchemaMock
