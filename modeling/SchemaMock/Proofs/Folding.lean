import SchemaMock.Proofs.Admission

/-! # Folding meets

A vertex is unified with its conjuncts one after the other. What it comes to depends on which
conjuncts there are, and neither on their order nor on how often each of them comes: it is bottom if
one of them is, or if they have no scalar or no kind in common; it is a scalar if one of them is;
and else it has the kinds that they share and the bounds that any of them brings.
-/

namespace SchemaMock

instance : EquivBEq Bound where
  rfl {b} := Bool.and_eq_true_iff.mpr ⟨beq_self_eq_true b.op, Scalar.same_refl b.value⟩
  symm {b c} h := by
    obtain ⟨hop, hvalue⟩ := Bool.and_eq_true_iff.mp h
    exact Bool.and_eq_true_iff.mpr ⟨beq_iff_eq.mpr (beq_iff_eq.mp hop).symm,
      Scalar.same_symm hvalue⟩
  trans {b c d} h h' := by
    obtain ⟨hop, hvalue⟩ := Bool.and_eq_true_iff.mp h
    obtain ⟨hop', hvalue'⟩ := Bool.and_eq_true_iff.mp h'
    exact Bool.and_eq_true_iff.mpr
      ⟨beq_iff_eq.mpr ((beq_iff_eq.mp hop).trans (beq_iff_eq.mp hop')),
      Scalar.same_trans hvalue hvalue'⟩

/-- Adding bounds unites the sets. -/
theorem Constraint.contains_addBounds (bs cs : List Bound) (b : Bound) :
    (addBounds bs cs).contains b = (bs.contains b || cs.contains b) := by
  unfold addBounds
  induction cs generalizing bs with
  | nil => simp
  | cons c cs ih =>
    rw [List.foldl_cons, ih, List.contains_cons]
    by_cases h : bs.contains c = true
    · rw [if_pos h]
      cases hbc : b == c with
      | false => rw [Bool.false_or]
      | true => rw [List.contains_congr hbc, h, Bool.true_or, Bool.true_or]
    · rw [if_neg h, List.contains_append, List.contains_cons, List.contains_nil, Bool.or_false,
        Bool.or_assoc]

namespace Kinds

variable {k l m : Kinds}

theorem contains_antisymm (h : k.contains l = true) (h' : l.contains k = true) : k = l := by
  rw [contains_eq] at h h'
  rw [← h', inter_comm, h]

theorem contains_of_inter (h : k.contains m = true) (h' : l.contains m = true) :
    (k.inter l).contains m = true := by
  rw [contains_eq] at *
  rw [inter_assoc, h', h]

end Kinds

namespace Val

/-- Values that count as one: bottoms, scalars that are the same, and constraints with the same
kinds and the same set of bounds. -/
def Alike : Val → Val → Prop
  | bottom _, bottom _ => True
  | atom s, atom t => s.same t = true
  | constraint c, constraint d => c.kinds = d.kinds ∧ ∀ b, c.bounds.contains b = d.bounds.contains b
  | _, _ => False

theorem equivalence_alike : Equivalence Alike where
  refl v := by
    cases v with
    | atom s => exact s.same_refl
    | constraint c => exact ⟨rfl, fun _ => rfl⟩
    | bottom f => trivial
  symm {v w} h := by
    cases v <;> cases w <;> first | exact h.elim | skip
    case atom.atom => exact Scalar.same_symm h
    case constraint.constraint => exact ⟨h.1.symm, fun b => (h.2 b).symm⟩
    case bottom.bottom => trivial
  trans {u v w} h h' := by
    cases u <;> cases v <;> first | exact h.elim | skip
    all_goals cases w <;> first | exact h'.elim | skip
    case atom.atom.atom => exact Scalar.same_trans h h'
    case constraint.constraint.constraint => exact ⟨h.1.trans h'.1, fun b => (h.2 b).trans (h'.2 b)⟩
    case bottom.bottom.bottom => trivial

def meetAll (vs : List Val) : Val := vs.foldl meet top

def bounds : Val → List Bound
  | constraint c => c.bounds
  | _ => []

variable {v w : Val} {vs ws : List Val} {c d : Constraint} {k : Kinds}

/-! ## Bottoms -/

theorem isBottom_foldl_of_mem (hw : w.isBottom = true) (h : w ∈ vs) (v : Val) :
    (vs.foldl meet v).isBottom = true := by
  induction vs generalizing v with
  | nil => exact absurd h List.not_mem_nil
  | cons u vs ih =>
    rcases List.mem_cons.mp h with rfl | h
    · refine isBottom_foldl ?_ vs
      cases w with
      | bottom f => exact isBottom_meet_bottom v f
      | _ => cases hw
    · exact ih h _

/-- A value that no kind is left for is bottom. -/
theorem isBottom_of_kinds_foldl (hv : v.kinds = .none → v.isBottom = true) (vs : List Val)
    (h : (vs.foldl meet v).kinds = .none) : (vs.foldl meet v).isBottom = true := by
  have hatom (s : Scalar) : s.kinds ≠ .none := by cases s <;> exact nofun
  have hmeetAtom (s : Scalar) (c : Constraint) (h : (meetAtom s c).kinds = .none) :
      (meetAtom s c).isBottom = true := by
    revert h
    unfold meetAtom
    split
    · exact fun _ => rfl
    · split
      · exact fun _ => rfl
      · exact fun h => absurd h (hatom s)
  induction vs generalizing v with
  | nil => exact hv h
  | cons w vs ih =>
    refine ih (fun hmeet => ?_) h
    cases v with
    | bottom f => rfl
    | atom s =>
      cases w with
      | bottom f => rfl
      | constraint c => exact hmeetAtom s c hmeet
      | atom t =>
        revert hmeet
        simp only [meet]
        split
        · exact fun h => absurd h (hatom s)
        · exact fun _ => rfl
    | constraint c =>
      cases w with
      | bottom f => rfl
      | atom s => exact hmeetAtom s c hmeet
      | constraint d =>
        revert hmeet
        simp only [meet]
        split
        case isTrue => exact fun _ => rfl
        case isFalse hne => exact fun h => absurd (beq_iff_eq.mpr h) hne

/-! ## Constraints -/

/-- The kinds that are left are kinds of every conjunct. -/
theorem contains_kinds_foldl (vs : List Val) (v : Val) :
    v.kinds.contains (vs.foldl meet v).kinds = true ∧
      ∀ w ∈ vs, w.kinds.contains (vs.foldl meet v).kinds = true := by
  induction vs generalizing v with
  | nil => exact ⟨Kinds.contains_refl _, List.forall_mem_nil _⟩
  | cons w vs ih =>
    obtain ⟨hfirst, hrest⟩ := ih (v.meet w)
    obtain ⟨hv, hw⟩ := contains_kinds_meet v w
    exact ⟨Kinds.contains_trans hv hfirst,
      List.forall_mem_cons.mpr ⟨Kinds.contains_trans hw hfirst, hrest⟩⟩

theorem kinds_meet_constraint (hv : ∀ s, v ≠ atom s) (d : Constraint) :
    (v.meet (constraint d)).kinds = v.kinds.inter d.kinds ∧
    ∀ s, v.meet (constraint d) ≠ atom s := by
  cases v with
  | bottom f => exact ⟨rfl, fun s h => by cases h⟩
  | atom s => exact absurd rfl (hv s)
  | constraint c =>
    refine ⟨kinds_meet_constraints c d, fun s h => ?_⟩
    simp only [meet] at h
    split at h <;> cases h

/-- Constraints leave all the kinds that they share. -/
theorem kinds_foldl_contains (hvs : ∀ w ∈ vs, ∃ d, w = constraint d) (hv : ∀ s, v ≠ atom s)
    (hk : v.kinds.contains k = true) (hks : ∀ w ∈ vs, w.kinds.contains k = true) :
    (vs.foldl meet v).kinds.contains k = true := by
  induction vs generalizing v with
  | nil => exact hk
  | cons w vs ih =>
    rw [List.forall_mem_cons] at hvs hks
    obtain ⟨d, rfl⟩ := hvs.1
    obtain ⟨hkinds, hne⟩ := kinds_meet_constraint hv d
    refine ih hvs.2 hne ?_ hks.2
    rw [hkinds]
    exact Kinds.contains_of_inter hk hks.1

/-- Only constraints leave a constraint, with the bounds of all of them. -/
theorem constraints_of_foldl (h : vs.foldl meet (constraint c) = constraint d) :
    (∀ w ∈ vs, ∃ e, w = constraint e) ∧
      ∀ b, d.bounds.contains b = (c.bounds.contains b || vs.any (·.bounds.contains b)) := by
  induction vs generalizing c with
  | nil =>
    cases h
    exact ⟨List.forall_mem_nil _, fun b => (Bool.or_false _).symm⟩
  | cons w vs ih =>
    have hbottom {v : Val} (hv : v.isBottom = true) : vs.foldl meet v ≠ constraint d := by
      intro hd
      have := isBottom_foldl hv vs
      rw [hd] at this
      cases this
    rw [List.foldl_cons] at h
    cases w with
    | bottom f => exact absurd h (hbottom rfl)
    | atom s =>
      have hne := ne_constraint_of_meet (v := constraint c) (w := atom s) (.inr fun _ => nofun)
      exact absurd h (ne_constraint_of_foldl (s := s) (.inl hne) d)
    | constraint e =>
      simp only [meet] at h
      split at h
      · exact absurd h (hbottom rfl)
      · obtain ⟨hrest, hbounds⟩ := ih h
        refine ⟨List.forall_mem_cons.mpr ⟨⟨e, rfl⟩, hrest⟩, fun b => ?_⟩
        rw [hbounds, Constraint.contains_addBounds, List.any_cons, Bool.or_assoc]
        rfl

/-! ## Conjuncts -/

/-- Every conjunct of the one list is one of the other, unless it says nothing. -/
def Within (vs ws : List Val) : Prop := ∀ v ∈ vs, v ≠ top → v ∈ ws

/-- What holds of `_` and of the conjuncts of the one list holds of those of the other. -/
theorem Within.forall {P : Val → Prop} (h : Within vs ws) (htop : P top) (hP : ∀ w ∈ ws, P w) :
    ∀ v ∈ vs, P v := by
  intro v hv
  by_cases hvt : v = top
  · rw [hvt]
    exact htop
  · exact hP v (h v hv hvt)

theorem takes_meetAll_of_atom {s : Scalar} (h : meetAll vs = atom s) :
    ∀ v ∈ vs, v.takes s = true := by
  have htakes := takes_foldl vs top s
  rw [show vs.foldl meet top = atom s from h, takes_atom, Scalar.same_refl, takes_top,
    Bool.true_and] at htakes
  exact List.all_eq_true.mp htakes.symm

/-- Where some conjuncts come to a scalar, others among them that include it come to it too. -/
theorem alike_of_atom {s : Scalar} (h : meetAll vs = atom s) (hvw : Within vs ws)
    (hwv : Within ws vs) : (atom s).Alike (meetAll ws) := by
  have hmem : atom s ∈ ws := hvw _ ((mem_of_foldl_eq_atom h).resolve_left nofun) nofun
  have htakes : (meetAll ws).takes s = true := by
    rw [meetAll, takes_foldl, takes_top, Bool.true_and, List.all_eq_true]
    exact hwv.forall (takes_top s) (takes_meetAll_of_atom h)
  cases hr : meetAll ws with
  | bottom f =>
    rw [hr] at htakes
    cases htakes
  | constraint c => exact absurd hr (ne_constraint_of_foldl (.inr hmem) c)
  | atom t =>
    rw [hr, takes_atom] at htakes
    exact Scalar.same_symm htakes

theorem contains_kinds_meetAll (hws : ∀ w ∈ ws, ∃ d, w = constraint d) (hwv : Within ws vs) :
    (meetAll ws).kinds.contains (meetAll vs).kinds = true :=
  have hall := (contains_kinds_foldl vs top).2
  have htop : top.kinds.contains (meetAll vs).kinds = true := (contains_kinds_foldl vs top).1
  kinds_foldl_contains hws (fun _ => nofun) htop (hwv.forall htop hall)

/-- Where some conjuncts come to a constraint, so do the same ones in another list. -/
theorem alike_of_constraint (h : meetAll vs = constraint c) (hvw : Within vs ws)
    (hwv : Within ws vs) : (constraint c).Alike (meetAll ws) := by
  obtain ⟨hvs, hbounds⟩ := constraints_of_foldl h
  have hws : ∀ w ∈ ws, ∃ d, w = constraint d := hwv.forall ⟨_, rfl⟩ hvs
  have hkinds : (meetAll vs).kinds = (meetAll ws).kinds :=
    Kinds.contains_antisymm (contains_kinds_meetAll hvs hvw) (contains_kinds_meetAll hws hwv)
  cases hr : meetAll ws with
  | atom s =>
    obtain ⟨d, hd⟩ := hws _ ((mem_of_foldl_eq_atom hr).resolve_left nofun)
    cases hd
  | bottom f =>
    have hbottom : (meetAll vs).isBottom = true := by
      refine isBottom_of_kinds_foldl (fun h => absurd h (by decide)) vs ?_
      rw [show vs.foldl meet top = meetAll vs from rfl, hkinds, hr]
      rfl
    rw [h] at hbottom
    cases hbottom
  | constraint d =>
    rw [h, hr] at hkinds
    obtain ⟨-, hbounds'⟩ := constraints_of_foldl hr
    refine ⟨hkinds, fun b => ?_⟩
    rw [hbounds, hbounds']
    have hany {us us' : List Val} (h : Within us us') (hb : us.any (·.bounds.contains b) = true) :
        us'.any (·.bounds.contains b) = true := by
      obtain ⟨u, hu, hub⟩ := List.any_eq_true.mp hb
      refine List.any_eq_true.mpr ⟨u, h u hu ?_, hub⟩
      rintro rfl
      cases hub
    exact congrArg _ (Bool.eq_iff_iff.mpr ⟨hany hvw, hany hwv⟩)

/-- Conjuncts that include a bottom come to bottom, and else what they come to depends on nothing
but which ones there are. Neither their order matters nor how often one of them comes, and `_` says
nothing. -/
theorem meetAll_alike :
    (∀ vs ws, (∀ v, v ≠ top → (v ∈ vs ↔ v ∈ ws)) → (meetAll vs).Alike (meetAll ws)) ∧
      ∀ vs, ∀ v ∈ vs, v.isBottom = true → (meetAll vs).isBottom = true := by
  refine ⟨fun vs ws h => ?_, fun vs v hv hb => isBottom_foldl_of_mem hb hv top⟩
  have hvw : Within vs ws := fun v hv hne => (h v hne).mp hv
  have hwv : Within ws vs := fun v hv hne => (h v hne).mpr hv
  cases hr : meetAll vs with
  | atom s => exact alike_of_atom hr hvw hwv
  | constraint c => exact alike_of_constraint hr hvw hwv
  | bottom f =>
    cases hr' : meetAll ws with
    | bottom g => trivial
    | atom s =>
      have := alike_of_atom hr' hwv hvw
      rw [hr] at this
      exact this
    | constraint c =>
      have := alike_of_constraint hr' hwv hvw
      rw [hr] at this
      exact this

/-- An integer that is not negative, before the literal that it is. -/
def sampleConjuncts : List Val :=
  [ofKinds .ofInt, constraint (.ofBound ⟨.greaterEqual, .int 0⟩), atom (.int 5)]

/-- The same in another order, with the literal twice. -/
def sampleReordered : List Val :=
  [atom (.int 5), top, constraint (.ofBound ⟨.greaterEqual, .int 0⟩), atom (.int 5), ofKinds .ofInt]

theorem meetAll_alike_reordered :
    (∀ v, v ≠ top → (v ∈ sampleConjuncts ↔ v ∈ sampleReordered)) ∧
      (meetAll sampleConjuncts).Alike (meetAll sampleReordered) ∧
      meetAll sampleReordered = atom (.int 5) ∧
      (meetAll (ofCause .explicitBottom :: sampleConjuncts)).isBottom = true := by
  have hsame : ∀ v, v ≠ top → (v ∈ sampleConjuncts ↔ v ∈ sampleReordered) := by
    intro v hv
    simp only [sampleConjuncts, sampleReordered, List.mem_cons, List.not_mem_nil,
      or_false, hv, false_or]
    grind
  exact ⟨hsame, meetAll_alike.1 _ _ hsame, by rfl, meetAll_alike.2 _ _ List.mem_cons_self rfl⟩

end Val

end SchemaMock
