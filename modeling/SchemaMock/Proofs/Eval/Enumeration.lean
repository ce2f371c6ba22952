import SchemaMock.Proofs.Choice
import SchemaMock.Proofs.Combinations

/-! # Enumerating the choices of a decision

The alternatives of an expression are its leaves under `|` and `*`, from left to right, so that a
chain of `|` may be grouped in any way. A decision tries every way to take one alternative of each
disjunction, each way once and in lexicographic order, if there are not too many of them.
-/

namespace SchemaMock

/-! ## Leaves -/

namespace Expr

/-- A step from a disjunction to an operand, or from a mark to what it encloses. -/
inductive Branch where
  | left
  | right
  | inside
deriving DecidableEq

def Branch.Before (s t : Branch) : Prop := s = .left ∧ t = .right

/-- The leaf that a path leads to. -/
inductive LeafAt : Expr → List Branch → Expr → Prop
  | here {x : Expr} (h : x.isChoice = false) : LeafAt x [] x
  | left {lhs rhs x : Expr} {p : List Branch} (h : LeafAt lhs p x) :
      LeafAt (.binary .disjoin lhs rhs) (.left :: p) x
  | right {lhs rhs x : Expr} {p : List Branch} (h : LeafAt rhs p x) :
      LeafAt (.binary .disjoin lhs rhs) (.right :: p) x
  | inside {y x : Expr} {p : List Branch} (h : LeafAt y p x) : LeafAt (.marked y) (.inside :: p) x

def leaves : Expr → List (List Branch × Expr)
  | .binary .disjoin lhs rhs =>
    (lhs.leaves.map fun s => (.left :: s.1, s.2)) ++ rhs.leaves.map fun s => (.right :: s.1, s.2)
  | .marked y => y.leaves.map fun s => (.inside :: s.1, s.2)
  | x => [([], x)]

theorem isChoice_eq_false {x : Expr} (hdisjoin : ∀ lhs rhs, x = .binary .disjoin lhs rhs → False)
    (hmarked : ∀ y, x = .marked y → False) : x.isChoice = false := by
  cases x with
  | marked y => exact (hmarked y rfl).elim
  | binary op lhs rhs => cases op <;> first | rfl | exact (hdisjoin lhs rhs rfl).elim
  | _ => rfl

theorem mem_leaves {x y : Expr} {p : List Branch} : (p, y) ∈ x.leaves ↔ x.LeafAt p y := by
  fun_induction leaves x generalizing p with
  | case1 lhs rhs ihl ihr =>
    simp only [List.mem_append, List.mem_map, Prod.mk.injEq]
    constructor
    · rintro (⟨s, hs, rfl, rfl⟩ | ⟨s, hs, rfl, rfl⟩)
      · exact .left (ihl.mp hs)
      · exact .right (ihr.mp hs)
    · intro h
      cases h with
      | here h => cases h
      | left h => exact .inl ⟨(_, y), ihl.mpr h, rfl, rfl⟩
      | right h => exact .inr ⟨(_, y), ihr.mpr h, rfl, rfl⟩
  | case2 z ih =>
    simp only [List.mem_map, Prod.mk.injEq]
    constructor
    · rintro ⟨s, hs, rfl, rfl⟩
      exact .inside (ih.mp hs)
    · intro h
      cases h with
      | here h => cases h
      | inside h => exact ⟨(_, y), ih.mpr h, rfl, rfl⟩
  | case3 x hdisjoin hmarked =>
    simp only [List.mem_singleton, Prod.mk.injEq]
    constructor
    · rintro ⟨rfl, rfl⟩
      exact .here (isChoice_eq_false hdisjoin hmarked)
    · intro h
      cases h with
      | here _ => exact ⟨rfl, rfl⟩
      | left _ => exact (hdisjoin _ _ rfl).elim
      | right _ => exact (hdisjoin _ _ rfl).elim
      | inside _ => exact (hmarked _ rfl).elim

/-- The leaves stand from left to right. -/
theorem pairwise_leaves (x : Expr) :
    x.leaves.Pairwise fun s t => List.Lex Branch.Before s.1 t.1 := by
  have hcons {branch : Branch} {ss : List (List Branch × Expr)}
      (h : ss.Pairwise fun s t => List.Lex Branch.Before s.1 t.1) :
      (ss.map fun s => (branch :: s.1, s.2)).Pairwise fun s t => List.Lex Branch.Before s.1 t.1 :=
    List.pairwise_map.mpr (h.imp .cons)
  fun_induction leaves x with
  | case1 lhs rhs ihl ihr =>
    refine List.pairwise_append.mpr ⟨hcons ihl, hcons ihr, fun s hs t ht => ?_⟩
    obtain ⟨s, -, rfl⟩ := List.mem_map.mp hs
    obtain ⟨t, -, rfl⟩ := List.mem_map.mp ht
    exact .rel ⟨rfl, rfl⟩
  | case2 y ih => exact hcons ih
  | case3 x => exact List.pairwise_singleton _ _

/-- A mark holds for every leaf that it encloses. -/
theorem alternatives_eq_leaves (marked : Bool) (x : Expr) :
    x.alternatives marked = x.leaves.map fun s => (s.2, marked || decide (.inside ∈ s.1)) := by
  fun_induction alternatives marked x with
  | case1 marked lhs rhs ihl ihr => simp [leaves, ihl, ihr, Function.comp_def]
  | case2 marked y ih => simp [leaves, ih]
  | case3 marked x hdisjoin hmarked =>
    rw [leaves]
    · simp
    · exact hdisjoin
    · exact hmarked

/-- Expressions that differ in how chains of `|` are grouped. -/
inductive Regroups : Expr → Expr → Prop
  | assoc (x y z : Expr) :
      Regroups (.binary .disjoin (.binary .disjoin x y) z)
        (.binary .disjoin x (.binary .disjoin y z))
  | refl (x : Expr) : Regroups x x
  | symm {x y : Expr} (h : Regroups x y) : Regroups y x
  | trans {x y z : Expr} (hxy : Regroups x y) (hyz : Regroups y z) : Regroups x z
  | disjoin {lhs lhs' rhs rhs' : Expr} (hl : Regroups lhs lhs') (hr : Regroups rhs rhs') :
      Regroups (.binary .disjoin lhs rhs) (.binary .disjoin lhs' rhs')
  | marked {x y : Expr} (h : Regroups x y) : Regroups (.marked x) (.marked y)

namespace Regroups

variable {x y : Expr}

theorem alternatives (h : x.Regroups y) (marked : Bool) :
    x.alternatives marked = y.alternatives marked := by
  induction h generalizing marked with
  | assoc x y z => simp only [Expr.alternatives, List.append_assoc]
  | refl x => rfl
  | symm _ ih => exact (ih marked).symm
  | trans _ _ ihxy ihyz => exact (ihxy marked).trans (ihyz marked)
  | disjoin _ _ ihl ihr => simp only [Expr.alternatives, ihl, ihr]
  | marked _ ih => simp only [Expr.alternatives, ih]

/-- Only what is a disjunction can be regrouped. -/
theorem eq_or_isChoice (h : x.Regroups y) : x = y ∨ x.isChoice = true ∧ y.isChoice = true := by
  induction h with
  | assoc x y z => exact .inr ⟨rfl, rfl⟩
  | refl x => exact .inl rfl
  | symm _ ih => exact ih.imp Eq.symm And.symm
  | trans _ _ ihxy ihyz =>
    rcases ihxy with rfl | hxy
    · exact ihyz
    · rcases ihyz with rfl | hyz
      · exact .inr hxy
      · exact .inr ⟨hxy.1, hyz.2⟩
  | disjoin _ _ => exact .inr ⟨rfl, rfl⟩
  | marked _ => exact .inr ⟨rfl, rfl⟩

end Regroups

end Expr

/-! ## Marked choices -/

/-- The position is that of a marked alternative, unless none is marked. -/
def PrefersMarked (i : Nat) (list : List Alternative) : Prop :=
  (∃ x ∈ list, x.default = true) → ∃ x, list[i]? = some x ∧ x.default = true

theorem isDefaultChoice_iff {lists : List (List Alternative)} {pick : List Nat}
    (h : pick ∈ picks lists) :
    isDefaultChoice lists (itemsAt lists pick) = true ↔ List.Forall₂ PrefersMarked pick lists := by
  rw [mem_picks] at h
  induction h with
  | nil => simp [isDefaultChoice]
  | @cons i list pick lists hi h ih =>
    have hcons : isDefaultChoice (list :: lists) (itemsAt (list :: lists) (i :: pick)) =
        ((list[i].default || !list.any (·.default)) && isDefaultChoice lists (itemsAt lists pick)) := by
      rw [itemsAt_cons, List.getElem?_eq_getElem hi]
      rfl
    rw [hcons, Bool.and_eq_true, ih, List.forall₂_cons]
    refine and_congr_left' ?_
    rw [PrefersMarked, ← List.any_eq_true, Bool.or_eq_true, Bool.not_eq_true',
      List.getElem?_eq_getElem hi]
    cases list.any (·.default) <;> simp

/-! ## Decisions -/

/-- A choice that has been tried, with its vertex and its final faults. -/
structure Trial where
  choice : List Alternative
  vertex : Nat
  faults : List Fault

namespace Eval

variable (process : Nat → Eval Unit) (v : Nat) (kept : List Conjunct)

def tryAll (choices : List (List Alternative)) : Eval (List Trial) :=
  choices.mapM fun choice => do
    let (w, found) ← tryChoice process v (kept ++ choice.map (·.conjunct))
    return ⟨choice, w, found⟩

def survivorsOf (disjunctions : List (List Alternative)) (trials : List Trial) : List Survivor :=
  (trials.filter (·.faults.isEmpty)).map fun t =>
    ⟨kept ++ t.choice.map (·.conjunct), t.vertex, isDefaultChoice disjunctions t.choice⟩

def decideAmong (disjunctions choices : List (List Alternative)) : Eval Unit := do
  let paths := (← vertex v).paths
  let trials ← withholding paths (tryAll process v kept choices)
  let survivors := survivorsOf kept disjunctions trials
  if survivors.isEmpty then meet v (.bottom ⟨.noAlternative, "", trials.flatMap (·.faults)⟩)
  else
    match ← narrow process survivors with
    | [s] => forwardTo process v s
    | survivors => leaveOpen v survivors

variable {process v kept}

theorem run_tryAll_cons (choice : List Alternative) (choices : List (List Alternative))
    (a : Arena) : tryAll process v kept (choice :: choices) a =
      let r := tryChoice process v (kept ++ choice.map (·.conjunct)) a
      let rest := tryAll process v kept choices r.2
      (⟨choice, r.1.1, r.1.2⟩ :: rest.1, rest.2) :=
  run_mapM_cons _ choice choices a

theorem survivorsOf_cons (disjunctions : List (List Alternative)) (t : Trial) (ts : List Trial) :
    survivorsOf kept disjunctions (t :: ts) =
      (if t.faults.isEmpty then
        [⟨kept ++ t.choice.map (·.conjunct), t.vertex, isDefaultChoice disjunctions t.choice⟩]
          else []) ++
      survivorsOf kept disjunctions ts := by
  unfold survivorsOf
  cases h : t.faults.isEmpty <;> simp [h]

/-- Survivors and faults are parted from what the trials of all choices came to. -/
theorem tryChoices_eq (disjunctions choices : List (List Alternative)) :
    tryChoices process v kept disjunctions choices = do
      let trials ← tryAll process v kept choices
      return (survivorsOf kept disjunctions trials, trials.flatMap (·.faults)) := by
  funext a
  induction choices generalizing a with
  | nil => rfl
  | cons choice choices ih =>
    have hrest := ih (tryChoice process v (kept ++ choice.map (·.conjunct)) a).2
    rw [run_bind] at hrest ⊢
    rw [run_tryChoices, run_tryAll_cons]
    dsimp only
    rw [hrest, survivorsOf_cons, List.flatMap_cons]
    rfl

/-- A decision reports that there are too many choices, or decides among all of them. -/
theorem decideChoice_eq {lists : List (List Alternative)} (h : ∀ list ∈ lists, list ≠ []) :
    decideChoice process v kept lists =
      if maxCombinations < (picks lists).length then meet v (.ofCause .tooManyAlternatives)
      else decideAmong process v kept lists ((picks lists).map (itemsAt lists)) := by
  by_cases hmany : maxCombinations < (picks lists).length
  · rw [if_pos hmany, decideChoice, combinations_eq h, if_pos hmany]
  · rw [if_neg hmany, decideChoice, combinations_eq h, if_neg hmany, decideAmong]
    simp only [tryChoices_eq]
    rfl

/-- A disjunction counts for a vertex by its alternatives, whatever their grouping. -/
theorem addConjunct_regroups {x y : Expr} (h : x.Regroups y) (c : Conjunct) :
    addConjunct process v { c with source := .expr x } =
      addConjunct process v { c with source := .expr y } := by
  rcases h.eq_or_isChoice with rfl | ⟨hx, hy⟩
  · rfl
  · funext a
    rw [addConjunct_choice process rfl hx, addConjunct_choice process rfl hy, Conjunct.alternatives,
      Conjunct.alternatives, h.alternatives false]

/-- The alternatives of an expression are exactly its leaves, from left to right, each of them a
default if a mark encloses it, so that it makes no difference how a chain of `|` is grouped. A
decision reports that there are too many alternatives if there are more than 256 ways to take one
alternative of each disjunction; otherwise it tries exactly these ways, each once and in
lexicographic order. A way is a default if it takes a marked alternative of each disjunction that
has one. -/
theorem choices_enumerated (process : Nat → Eval Unit) (v : Nat) (kept : List Conjunct) :
    (∀ (c : Conjunct) (x : Expr), ∃ leaves : List (List Expr.Branch × Expr),
      leaves.Pairwise (fun s t => List.Lex Expr.Branch.Before s.1 t.1) ∧
      (∀ p y, (p, y) ∈ leaves ↔ x.LeafAt p y) ∧ c.alternatives x ≠ [] ∧
      c.alternatives x =
        leaves.map fun s => ⟨{ c with source := .expr s.2 }, decide (.inside ∈ s.1)⟩) ∧
    (∀ (c : Conjunct) (x y : Expr), x.Regroups y → c.alternatives x = c.alternatives y ∧
      addConjunct process v { c with source := .expr x } =
        addConjunct process v { c with source := .expr y }) ∧
    Cause.tooManyAlternatives.message = "too many disjunction alternatives" ∧
    ∀ lists : List (List Alternative), (∀ list ∈ lists, list ≠ []) →
      ∃ picks : List (List Nat), picks.Pairwise (· < ·) ∧
        (∀ pick, pick ∈ picks ↔ List.Forall₂ (fun i list => i < list.length) pick lists) ∧
        picks.length = (lists.map List.length).prod ∧
        decideChoice process v kept lists =
          (if 256 < picks.length then meet v (.ofCause .tooManyAlternatives)
          else decideAmong process v kept lists (picks.map (itemsAt lists))) ∧
        ∀ pick ∈ picks, isDefaultChoice lists (itemsAt lists pick) = true ↔
          List.Forall₂ PrefersMarked pick lists := by
  refine ⟨fun c x => ⟨x.leaves, x.pairwise_leaves, fun p y => Expr.mem_leaves, ?_, ?_⟩,
    fun c x y h => ⟨?_, addConjunct_regroups h c⟩, rfl, fun lists hlists => ?_⟩
  · exact mt List.map_eq_nil_iff.mp (x.alternatives_ne_nil false)
  · rw [Conjunct.alternatives, Expr.alternatives_eq_leaves, List.map_map]
    simp [Function.comp_def]
  · rw [Conjunct.alternatives, h.alternatives false, Conjunct.alternatives]
  · exact ⟨picks lists, pairwise_picks lists, fun pick => mem_picks, length_picks lists,
      decideChoice_eq hlists, fun pick hpick => isDefaultChoice_iff hpick⟩

def sampleAlternatives : List Alternative :=
  [⟨.of (.int 1) 0 false, true⟩, ⟨.of (.int 2) 0 false, false⟩]

/-- Nine disjunctions of two alternatives are too many; of two, the way of the two marks is a
default. -/
theorem choices_enumerated_pairs :
    decideChoice evaluate 0 [] (List.replicate 9 sampleAlternatives) =
        meet 0 (.ofCause .tooManyAlternatives) ∧
      isDefaultChoice [sampleAlternatives, sampleAlternatives]
        (itemsAt [sampleAlternatives, sampleAlternatives] [0, 0]) = true ∧
      addConjunct evaluate 0 (.of (.binary .disjoin (.binary .disjoin .null .top) (.marked .top)) 0 false) =
        addConjunct evaluate 0 (.of (.binary .disjoin .null (.binary .disjoin .top (.marked .top))) 0 false) := by
  obtain ⟨-, hregroups, -, hlists⟩ := choices_enumerated evaluate 0 []
  have hne : sampleAlternatives ≠ [] := List.cons_ne_nil _ _
  refine ⟨?_, ?_, ?_⟩
  · obtain ⟨picks, -, -, hlength, hdecide, -⟩ :=
      hlists (List.replicate 9 sampleAlternatives) fun list h => List.eq_of_mem_replicate h ▸ hne
    rw [hdecide, hlength, if_pos (by decide)]
  · obtain ⟨picks, -, hmem, -, -, hdefault⟩ :=
      hlists [sampleAlternatives, sampleAlternatives] (by simp [hne])
    refine (hdefault [0, 0] ((hmem [0, 0]).mpr ?_)).mpr ?_
    · simp [sampleAlternatives]
    · simp [sampleAlternatives, PrefersMarked]
  · exact (hregroups (.of .top 0 false) _ _ (.assoc .null .top (.marked .top))).2

end Eval

end SchemaMock
