import SchemaMock.Proofs.Condition
import SchemaMock.Proofs.Scalar

/-! # The scalars that a value takes

A value takes a scalar if their meet is not bottom. A meet takes what both sides take, and so a
value that conditions have narrowed takes the scalars that meet all of them. It has become a scalar
itself just when a literal among the conditions meets all of them.
-/

namespace SchemaMock

/-! ## Bounds -/

namespace Scalar

variable {s t : Scalar}

theorem compare_congr_right (h : s.same t = true) (u : Scalar) : u.compare s = u.compare t := by
  obtain rfl | ⟨x, y, rfl, rfl, hxy⟩ := eq_or_float h
  · rfl
  · have hright (z : Float) : floatCompare z x = floatCompare z y := by
      simp only [floatCompare, lt_iff_floatKey, beq_iff_floatKey, floatSame_iff.mp hxy]
    cases u <;> simp [compare, toFloat?, hright]

theorem looselyEquals_congr_right (h : s.same t = true) (u : Scalar) :
    u.looselyEquals s = u.looselyEquals t := by
  obtain rfl | ⟨x, y, rfl, rfl, hxy⟩ := eq_or_float h
  · rfl
  · cases u with
    | int i =>
      rw [looselyEquals, looselyEquals, Bool.eq_iff_iff, beq_iff_floatKey, beq_iff_floatKey,
        floatSame_iff.mp hxy]
    | float z =>
      show same (.float z) (.float x) = same (.float z) (.float y)
      rw [Bool.eq_iff_iff]
      exact ⟨fun h' => same_trans h' h, fun h' => same_trans h' (same_symm h)⟩
    | _ => rfl

end Scalar

/-- The kind of a scalar is in two sets if it is in both. -/
theorem Kinds.meets_inter (k l : Kinds) (s : Scalar) :
    (k.inter l).meets s.kinds = (k.meets s.kinds && l.meets s.kinds) := by
  have hone (b c : Bool) (f : Bool → Kinds) (hf : ∀ b, (f b).isEmpty = !b) :
      (!(f (b && c)).isEmpty) = (!(f b).isEmpty && !(f c).isEmpty) := by
    simp [hf]
  unfold meets
  cases s with
  | null =>
    simpa [inter, Scalar.kinds, ofNull, none] using hone k.null l.null
      (fun b => { none with null := b }) (by decide)
  | bool b =>
    simpa [inter, Scalar.kinds, ofBool, none] using hone k.bool l.bool
      (fun b => { none with bool := b }) (by decide)
  | int i =>
    simpa [inter, Scalar.kinds, ofInt, none] using hone k.int l.int
      (fun b => { none with int := b }) (by decide)
  | float x =>
    simpa [inter, Scalar.kinds, ofFloat, none] using hone k.float l.float
      (fun b => { none with float := b }) (by decide)
  | str s =>
    simpa [inter, Scalar.kinds, ofString, none] using hone k.string l.string
      (fun b => { none with string := b }) (by decide)

/-- Bounds that count as the same admit the same scalars. -/
theorem Bound.admits_of_beq {b c : Bound} (h : (b == c) = true) (s : Scalar) :
    b.admits s = c.admits s := by
  obtain ⟨hop, hvalue⟩ := Bool.and_eq_true_iff.mp h
  have hsame : b.value.same c.value = true := hvalue
  rw [Bound.admits, Bound.admits, beq_iff_eq.mp hop, Scalar.looselyEquals_congr_right hsame,
    Scalar.compare_congr_right hsame]

namespace Constraint

def takes (c : Constraint) (s : Scalar) : Bool := c.kinds.meets s.kinds && c.bounds.all (·.admits s)

theorem all_addBounds (bs cs : List Bound) (s : Scalar) :
    (addBounds bs cs).all (·.admits s) = (bs.all (·.admits s) && cs.all (·.admits s)) := by
  unfold addBounds
  induction cs generalizing bs with
  | nil => simp
  | cons c cs ih =>
    rw [List.foldl_cons, ih]
    by_cases h : bs.contains c = true
    · rw [if_pos h, List.all_cons]
      obtain ⟨b, hb, hbc⟩ := List.contains_iff_exists_mem_beq.mp h
      cases hall : bs.all (·.admits s) with
      | false => rfl
      | true =>
        have hc : c.admits s = true :=
          (Bound.admits_of_beq hbc s).trans (List.all_eq_true.mp hall b hb)
        rw [hc, Bool.true_and, Bool.true_and]
    · rw [if_neg h]
      simp [Bool.and_assoc]

theorem takes_congr (c : Constraint) {s t : Scalar} (h : s.same t = true) :
    c.takes s = c.takes t := by
  rw [takes, takes, Scalar.kinds_of_same h]
  simp only [Bound.admits_congr _ h]

end Constraint

/-! ## Values -/

namespace Val

def takes (v : Val) (s : Scalar) : Bool := !(v.meet (.atom s)).isBottom

variable {v w : Val} {s t : Scalar}

theorem takes_bottom (f : Fault) (s : Scalar) : (bottom f).takes s = false := rfl

theorem takes_of_isBottom (h : v.isBottom = true) (s : Scalar) : v.takes s = false := by
  cases v with
  | bottom f => rfl
  | _ => cases h

theorem takes_atom (t s : Scalar) : (atom t).takes s = t.same s := by
  simp only [takes, meet]
  cases t.same s <;> rfl

theorem meetAtom_of_admits {c : Constraint} (hk : c.kinds.meets s.kinds = true)
    (hb : c.bounds.all (·.admits s) = true) : meetAtom s c = .atom s := by
  have hfind : c.bounds.find? (fun b => !b.admits s) = none := by
    rw [List.find?_eq_none]
    intro b hmem
    simp [List.all_eq_true.mp hb b hmem]
  simp [meetAtom, hk, hfind]

theorem isBottom_meetAtom {c : Constraint}
    (h : ¬ (c.kinds.meets s.kinds = true ∧ c.bounds.all (·.admits s) = true)) :
    (meetAtom s c).isBottom = true := by
  unfold meetAtom
  split
  · rfl
  case isFalse hk =>
    rw [Bool.not_eq_true, Bool.not_eq_false'] at hk
    split
    · rfl
    case h_2 hfind =>
      refine absurd ⟨hk, List.all_eq_true.mpr fun b hb => ?_⟩ h
      simpa using List.find?_eq_none.mp hfind b hb

theorem isBottom_meetAtom_eq (s : Scalar) (c : Constraint) :
    (meetAtom s c).isBottom = !c.takes s := by
  unfold Constraint.takes
  by_cases h : c.kinds.meets s.kinds = true ∧ c.bounds.all (·.admits s) = true
  · rw [meetAtom_of_admits h.1 h.2, h.1, h.2]
    rfl
  · rw [isBottom_meetAtom h]
    rw [← Bool.and_eq_true_iff, Bool.not_eq_true] at h
    rw [h]
    rfl

theorem takes_constraint (c : Constraint) (s : Scalar) : (constraint c).takes s = c.takes s := by
  rw [takes, meet, isBottom_meetAtom_eq, Bool.not_not]

theorem takes_meetAtom (t s : Scalar) (c : Constraint) :
    (meetAtom t c).takes s = (t.same s && c.takes s) := by
  cases hc : c.takes t with
  | true =>
    obtain ⟨hk, hb⟩ := Bool.and_eq_true_iff.mp hc
    have hatom : meetAtom t c = atom t := meetAtom_of_admits hk hb
    rw [hatom, takes_atom]
    cases hs : t.same s with
    | false => rfl
    | true => rw [← c.takes_congr hs, hc]; rfl
  | false =>
    have hbottom : (meetAtom t c).isBottom = true := by rw [isBottom_meetAtom_eq, hc]; rfl
    rw [takes_of_isBottom hbottom]
    cases hs : t.same s with
    | false => rfl
    | true => rw [← c.takes_congr hs, hc]; rfl

/-- A meet takes what both sides take. -/
theorem takes_meet (v w : Val) (s : Scalar) : (v.meet w).takes s = (v.takes s && w.takes s) := by
  cases v with
  | bottom f => cases w <;> rfl
  | atom t =>
    cases w with
    | bottom f => simp [meet, takes_bottom]
    | constraint c => rw [meet, takes_meetAtom, takes_atom, takes_constraint]
    | atom u =>
      simp only [meet, takes_atom]
      by_cases htu : t.same u = true
      · rw [if_pos htu, takes_atom, ← Scalar.same_congr htu, Bool.and_self]
      · rw [if_neg htu]
        refine (Bool.eq_false_iff.mpr fun h => htu ?_).symm
        obtain ⟨ht, hu⟩ := Bool.and_eq_true_iff.mp h
        exact Scalar.same_trans ht (Scalar.same_symm hu)
  | constraint c =>
    cases w with
    | bottom f => simp [meet, takes_bottom]
    | atom t => rw [meet, takes_meetAtom, takes_atom, takes_constraint, Bool.and_comm]
    | constraint d =>
      have hbounds := Constraint.all_addBounds c.bounds d.bounds s
      rw [takes_constraint, takes_constraint, Constraint.takes, Constraint.takes]
      simp only [meet]
      by_cases hnone : (c.kinds.inter d.kinds).isEmpty = true
      · have hinter := Kinds.meets_inter c.kinds d.kinds s
        have hempty : (c.kinds.inter d.kinds).meets s.kinds = false := by
          rw [Kinds.isEmpty, beq_iff_eq] at hnone
          rw [hnone]
          cases s <;> rfl
        rw [hempty] at hinter
        rw [if_pos hnone]
        refine (Bool.eq_false_iff.mpr fun h => ?_).symm
        simp only [Bool.and_eq_true] at h
        rw [h.1.1, h.2.1] at hinter
        cases hinter
      · rw [if_neg hnone, takes_constraint, Constraint.takes, hbounds, Kinds.meets_inter]
        ac_rfl

/-- Constraints leave the kinds that they share, of which there may be none. -/
theorem kinds_meet_constraints (c d : Constraint) :
    ((constraint c).meet (constraint d)).kinds = c.kinds.inter d.kinds := by
  simp only [meet]
  by_cases h : (c.kinds.inter d.kinds).isEmpty = true
  · rw [if_pos h]
    exact (beq_iff_eq.mp h).symm
  · rw [if_neg h]
    rfl

/-- A meet is an intersection. It takes just the scalars that both sides take, and two constraints
leave just the kinds that both allow. -/
theorem meet_intersects :
    (∀ (v w : Val) (s : Scalar), (v.meet w).takes s = true ↔ v.takes s = true ∧ w.takes s = true) ∧
      ∀ c d : Constraint, ((constraint c).meet (constraint d)).kinds = c.kinds.inter d.kinds := by
  constructor
  · intro v w s
    rw [takes_meet, Bool.and_eq_true]
  · exact kinds_meet_constraints

theorem takes_foldl (ws : List Val) (v : Val) (s : Scalar) :
    (ws.foldl Val.meet v).takes s = (v.takes s && ws.all (·.takes s)) := by
  induction ws generalizing v with
  | nil => simp
  | cons w ws ih => rw [List.foldl_cons, ih, takes_meet, List.all_cons, Bool.and_assoc]

theorem takes_top (s : Scalar) : top.takes s = true := by
  cases s <;> rfl

/-- A scalar is left only where there was one before. -/
theorem eq_of_meet_eq_atom (h : v.meet w = atom s) : v = atom s ∨ w = atom s := by
  have hatom {t : Scalar} {c : Constraint} (h : meetAtom t c = atom s) : t = s := by
    unfold meetAtom at h
    split at h
    · cases h
    · split at h
      · cases h
      · exact atom.inj h
  cases v with
  | bottom f => cases w <;> cases h
  | atom t =>
    cases w with
    | bottom f => cases h
    | atom u =>
      simp only [meet] at h
      split at h
      · exact .inl h
      · cases h
    | constraint c => exact .inl (congrArg atom (hatom h))
  | constraint c =>
    cases w with
    | bottom f => cases h
    | atom t => exact .inr (congrArg atom (hatom h))
    | constraint d =>
      simp only [meet] at h
      split at h <;> cases h

theorem mem_of_foldl_eq_atom {ws : List Val} (h : ws.foldl Val.meet v = atom s) :
    v = atom s ∨ atom s ∈ ws := by
  induction ws generalizing v with
  | nil => exact .inl h
  | cons w ws ih =>
    rcases ih h with h | h
    · rcases eq_of_meet_eq_atom h with h | rfl
      · exact .inl h
      · exact .inr List.mem_cons_self
    · exact .inr (List.mem_cons_of_mem w h)

/-- A meet is a constraint only if both sides are. -/
theorem ne_constraint_of_meet (h : (∀ c, v ≠ constraint c) ∨ ∀ c, w ≠ constraint c) :
    ∀ c, v.meet w ≠ constraint c := by
  have hatom (t : Scalar) (d : Constraint) : ∀ c, meetAtom t d ≠ constraint c := by
    intro c hc
    unfold meetAtom at hc
    split at hc
    · cases hc
    · split at hc <;> cases hc
  intro c hc
  cases v with
  | bottom f => cases w <;> cases hc
  | atom t =>
    cases w with
    | bottom f => cases hc
    | atom u =>
      simp only [meet] at hc
      split at hc <;> cases hc
    | constraint d => exact hatom t d c hc
  | constraint d =>
    cases w with
    | bottom f => cases hc
    | atom t => exact hatom t d c hc
    | constraint e => exact h.elim (fun h => h d rfl) fun h => h e rfl

theorem ne_constraint_of_foldl {ws : List Val} (h : (∀ c, v ≠ constraint c) ∨ atom s ∈ ws) :
    ∀ c, ws.foldl Val.meet v ≠ constraint c := by
  induction ws generalizing v with
  | nil => exact h.resolve_right List.not_mem_nil
  | cons w ws ih =>
    refine ih ?_
    rcases h with h | h
    · exact .inl (ne_constraint_of_meet (.inl h))
    · rcases List.mem_cons.mp h with rfl | h
      · exact .inl (ne_constraint_of_meet (.inr fun c hc => by cases hc))
      · exact .inr h

end Val

/-! ## Conditions -/

namespace Condition

variable {s t : Scalar} {n : Nat}

def literals : Condition → List Scalar
  | equal c => [c.value]
  | both a b => a.literals ++ b.literals
  | _ => []

theorem admits_eq (t : Condition) (s : Scalar) :
    t.admits s = (t.vals.all (·.takes s) && t.operands.all (·.admits s)) := by
  cases t with
  | any => rfl
  | both a b => simp [admits, vals, operands]
  | type t => simp [admits, vals, operands, Val.takes_constraint, Constraint.takes]
  | bound op c =>
    have hkinds : Bound.admits ⟨op, c.value⟩ s = true →
        (Bound.mk op c.value).kinds.meets s.kinds = true :=
      Bound.meets_kinds_of_admits
    simp only [admits, vals, operands, List.all_cons, List.all_nil, Bool.and_true,
      Val.takes_constraint, Constraint.takes, Constraint.ofBound]
    cases hb : Bound.admits ⟨op, c.value⟩ s with
    | true => rw [hkinds hb]; rfl
    | false => rw [Bool.and_false]
  | equal c =>
    simp only [admits, vals, operands, List.all_cons, List.all_nil, Bool.and_true, Val.takes_atom]
    rw [Bool.eq_iff_iff]
    exact ⟨Scalar.same_symm, Scalar.same_symm⟩

/-- What is left of a value takes the scalars that it took before and that meet the conditions. -/
theorem takes_narrow {ts : List Condition} (h : ∀ t ∈ ts, t.height ≤ n) (v : Val) (s : Scalar) :
    (narrow n ts v).takes s = (v.takes s && ts.all (·.admits s)) := by
  induction n generalizing ts v with
  | zero =>
    have hnil : ts = [] := List.eq_nil_iff_forall_not_mem.mpr fun t ht =>
      absurd (h t ht) (Nat.not_le_of_gt t.height_pos)
    rw [hnil]
    simp [narrow, breadthFirst]
  | succ n ih =>
    have hstep : narrow (n + 1) ts v = narrow n (ts.flatMap operands)
        ((ts.flatMap vals).foldl Val.meet v) := by
      simp only [narrow, breadthFirst, List.foldl_append]
    have hall : ts.all (·.admits s) =
        ((ts.flatMap vals).all (·.takes s) && (ts.flatMap operands).all (·.admits s)) := by
      clear h hstep ih
      induction ts with
      | nil => rfl
      | cons t ts ih =>
        rw [List.all_cons, ih, admits_eq, List.flatMap_cons, List.flatMap_cons, List.all_append,
          List.all_append]
        ac_rfl
    rw [hstep, ih (height_operands h), Val.takes_foldl, hall, Bool.and_assoc]

theorem admits_congr (t : Condition) {s u : Scalar} (h : s.same u = true) :
    t.admits s = t.admits u := by
  induction t with
  | any => rfl
  | type t => exact t.constraint.takes_congr h
  | bound op c => exact Bound.admits_congr _ h
  | equal c => exact Scalar.same_congr h _
  | both a b iha ihb => rw [admits, admits, iha, ihb]

theorem mem_literals_iff (t : Condition) (s : Scalar) :
    s ∈ t.literals ↔ Val.atom s ∈ t.vals ∨ s ∈ t.operands.flatMap literals := by
  cases t <;> simp [literals, vals, operands]

theorem atom_mem_breadthFirst {ts : List Condition} (h : ∀ t ∈ ts, t.height ≤ n) :
    Val.atom s ∈ breadthFirst n ts ↔ s ∈ ts.flatMap literals := by
  induction n generalizing ts with
  | zero =>
    have hnil : ts = [] := List.eq_nil_iff_forall_not_mem.mpr fun t ht =>
      absurd (h t ht) (Nat.not_le_of_gt t.height_pos)
    rw [hnil]
    simp [breadthFirst]
  | succ n ih =>
    have hsplit : s ∈ ts.flatMap literals ↔
        Val.atom s ∈ ts.flatMap vals ∨ s ∈ (ts.flatMap operands).flatMap literals := by
      constructor
      · intro hs
        obtain ⟨t, ht, hs⟩ := List.mem_flatMap.mp hs
        rcases (mem_literals_iff t s).mp hs with hv | hu
        · exact .inl (List.mem_flatMap.mpr ⟨t, ht, hv⟩)
        · rw [List.flatMap_assoc]
          exact .inr (List.mem_flatMap.mpr ⟨t, ht, hu⟩)
      · rw [List.flatMap_assoc, List.mem_flatMap, List.mem_flatMap, List.mem_flatMap]
        rintro (⟨t, ht, hv⟩ | ⟨t, ht, hu⟩)
        · exact ⟨t, ht, (mem_literals_iff t s).mpr (.inl hv)⟩
        · exact ⟨t, ht, (mem_literals_iff t s).mpr (.inr hu)⟩
    rw [breadthFirst, List.mem_append, ih (height_operands h), hsplit]

/-- Conditions leave a scalar just when a literal among them meets all of them. -/
theorem narrow_eq_atom_iff {ts : List Condition} (h : ∀ t ∈ ts, t.height ≤ n) :
    (∃ s, narrow n ts .top = .atom s) ↔ ∃ s ∈ ts.flatMap literals, ∀ t ∈ ts, t.admits s = true := by
  constructor
  · rintro ⟨s, hs⟩
    refine ⟨s, ?_, ?_⟩
    · rcases Val.mem_of_foldl_eq_atom hs with htop | hmem
      · cases htop
      · exact (atom_mem_breadthFirst h).mp hmem
    · have htakes := takes_narrow h .top s
      rw [hs, Val.takes_atom, Scalar.same_refl, Val.takes_top, Bool.true_and] at htakes
      exact List.all_eq_true.mp htakes.symm
  · rintro ⟨s, hs, hadmits⟩
    have htakes : (narrow n ts .top).takes s = true := by
      rw [takes_narrow h, Val.takes_top, Bool.true_and]
      exact List.all_eq_true.mpr hadmits
    have hmem : Val.atom s ∈ breadthFirst n ts := (atom_mem_breadthFirst h).mpr hs
    cases hval : narrow n ts .top with
    | atom u => exact ⟨u, rfl⟩
    | constraint c => exact absurd hval (Val.ne_constraint_of_foldl (.inr hmem) c)
    | bottom f => rw [hval] at htakes; cases htakes

end Condition

end SchemaMock
