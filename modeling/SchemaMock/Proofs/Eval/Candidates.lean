import SchemaMock.Proofs.Eval.Filling
import SchemaMock.Proofs.Eval.Narrowing

/-! # Candidates of a disjunction

A vertex has a disjunction of conditions, beside conditions that are kept in any case. Of the
alternatives that are not contradicted the marked ones are candidates, or all of them if none is
marked. One candidate is enough where all of them are exported as the same data.
-/

namespace SchemaMock

open Arena Eval

/-! ## Candidates -/

/-- A condition as an alternative, and whether it is marked as a default. -/
structure Disjunct where
  condition : Condition
  marked : Bool

/-- The conditions are the alternatives of the expression. -/
def Expr.Offers (x : Expr) (ds : List Disjunct) : Prop :=
  x.alternatives false = ds.map fun d => (d.condition.toExpr, d.marked)

/-- Marked alternatives are preferred where there are any. -/
def Disjunct.preferred (ds : List Disjunct) : List Disjunct :=
  if ds.any (·.marked) then ds.filter (·.marked) else ds

theorem Disjunct.preferred_eq_nil {ds : List Disjunct} : preferred ds = [] ↔ ds = [] := by
  unfold preferred
  split
  · rename_i hany
    obtain ⟨d, hd, hmarked⟩ := List.any_eq_true.mp hany
    refine ⟨fun h => absurd (List.mem_filter.mpr ⟨hd, hmarked⟩) (h ▸ List.not_mem_nil), ?_⟩
    rintro rfl
    rfl
  · exact Iff.rfl

/-- An expression that is a disjunction, perhaps of a single marked alternative. -/
def Expr.isChoice : Expr → Bool
  | .marked _ => true
  | .binary .disjoin _ _ => true
  | _ => false

/-- The host data that a value without parts is exported as. -/
def Val.json? : Val → Option Json
  | .atom s => s.toJson.toOption
  | _ => none

/-- The data that all of several values are exported as. -/
def Json.agreed : List (Option Json) → Option Json
  | some j :: rest => if rest.all (·.any (j == ·)) then some j else none
  | _ => none

/-- Conditions that a vertex keeps, and a disjunction of conditions. -/
structure Offer where
  kept : List Conjunct
  conditions : List Condition
  conjunct : Conjunct
  disjuncts : List Disjunct

namespace Offer

variable (o : Offer)

def alternative (d : Disjunct) : Alternative :=
  ⟨{ o.conjunct with source := .expr d.condition.toExpr }, d.marked⟩

def seeds (d : Disjunct) : List Conjunct := o.kept ++ [(o.alternative d).conjunct]

def val (d : Disjunct) : Val := Condition.narrow maxDepth (o.conditions ++ [d.condition]) .top

/-- The stand-in for an alternative when it has been tried. -/
def stand (x : Vertex) (d : Disjunct) : Vertex :=
  { x.standIn (o.seeds d) with val := o.val d, stage := .done }

def survives (d : Disjunct) : Bool := !(o.val d).isBottom

def candidates : List Disjunct := Disjunct.preferred (o.disjuncts.filter o.survives)

def outcome : Option Json := Json.agreed (o.candidates.map fun d => (o.val d).json?)

/-- Where no alternative is marked, all of them are defaults. -/
def isDefault (d : Disjunct) : Bool := d.marked || !o.disjuncts.any (·.marked)

/-- The alternatives that are not contradicted, with the vertices from `n` on. -/
def placed (n : Nat) (ds : List Disjunct) : List (Disjunct × Nat) :=
  (ds.zipIdx n).filter fun p => o.survives p.1

def survivor (p : Disjunct × Nat) : Survivor := ⟨o.seeds p.1, p.2, o.isDefault p.1⟩

def chosen (n : Nat) : List (Disjunct × Nat) :=
  let all := o.placed n o.disjuncts
  if all.any (o.isDefault ·.1) then all.filter (o.isDefault ·.1) else all

variable {o}

theorem map_fst_filter {p : Disjunct → Bool} (ps : List (Disjunct × Nat)) :
    (ps.filter fun q => p q.1).map (·.1) = (ps.map (·.1)).filter p := List.filter_map.symm

theorem map_fst_placed (n : Nat) (ds : List Disjunct) :
    (o.placed n ds).map (·.1) = ds.filter o.survives := by
  rw [placed, map_fst_filter, List.zipIdx_map_fst]

theorem map_fst_chosen (n : Nat) : (o.chosen n).map (·.1) = o.candidates := by
  have hany : (o.placed n o.disjuncts).any (o.isDefault ·.1) =
      (o.disjuncts.filter o.survives).any o.isDefault := by
    rw [← map_fst_placed n, List.any_map]
    rfl
  simp only [chosen, candidates, Disjunct.preferred, hany, apply_ite (List.map Prod.fst),
    map_fst_filter, map_fst_placed]
  by_cases hmarked : o.disjuncts.any (·.marked) = true
  · have hsame : o.isDefault = (·.marked) := by
      funext d
      simp [isDefault, hmarked]
    rw [hsame]
  · have hall : o.isDefault = fun _ => true := by
      funext d
      simp [isDefault, hmarked]
    have hnone : (o.disjuncts.filter o.survives).any (·.marked) = false := by
      simp only [List.any_eq_true, not_exists, not_and, Bool.not_eq_true] at hmarked
      simp only [List.any_eq_false, List.mem_filter, Bool.not_eq_true]
      exact fun d hd => hmarked d hd.1
    rw [hall, hnone]
    simp

/-! ## Values without parts -/

end Offer

/-- Of struct and list, a value may be both or neither. -/
def Val.Even (v : Val) : Prop := v.kinds.struct = v.kinds.list

theorem Val.Even.meet {v w : Val} (hv : v.Even) (hw : w.Even) : (v.meet w).Even := by
  unfold Val.Even at hv hw ⊢
  have hatom {s : Scalar} {c : Constraint} :
      (meetAtom s c).kinds.struct = (meetAtom s c).kinds.list := by
    unfold meetAtom
    split
    · rfl
    · split
      · rfl
      · cases s <;> rfl
  cases v with
  | bottom f => cases w <;> rfl
  | atom s =>
    cases w with
    | bottom f => rfl
    | constraint c => exact hatom
    | atom t =>
      simp only [Val.meet]
      split
      · exact hv
      · rfl
  | constraint c =>
    cases w with
    | bottom f => rfl
    | atom s => exact hatom
    | constraint d =>
      simp only [Val.meet]
      split
      · rfl
      · simp only [Val.kinds, Kinds.inter] at hv hw ⊢
        rw [hv, hw]

theorem Val.Even.foldl {ws : List Val} {v : Val} (hv : v.Even) (hws : ∀ w ∈ ws, w.Even) :
    (ws.foldl Val.meet v).Even := by
  induction ws generalizing v with
  | nil => exact hv
  | cons w ws ih =>
    exact ih (hv.meet (hws w List.mem_cons_self)) fun x hx => hws x (List.mem_cons_of_mem w hx)

namespace Condition

theorem even_of_mem_breadthFirst {n : Nat} {ts : List Condition} {w : Val}
    (h : w ∈ breadthFirst n ts) : w.Even := by
  induction n generalizing ts with
  | zero => cases h
  | succ n ih =>
    rcases List.mem_append.mp h with h | h
    · obtain ⟨t, -, hw⟩ := List.mem_flatMap.mp h
      cases t with
      | any => cases hw
      | both a b => cases hw
      | type t =>
        obtain rfl := List.mem_singleton.mp hw
        obtain ⟨hs, hl⟩ := Constraint.kinds_of_ofTypeName? t.ofTypeName?_name
        exact hs.trans hl.symm
      | bound op c =>
        obtain rfl := List.mem_singleton.mp hw
        cases op with
        | notEqual => rfl
        | _ =>
          cases hc : c.value <;> simp [Val.Even, Val.kinds, Constraint.ofBound, Bound.kinds] <;> rfl
      | equal c =>
        obtain rfl := List.mem_singleton.mp hw
        cases hc : c.value <;> simp [Val.Even, Val.kinds, Scalar.kinds] <;> rfl
    · exact ih h

/-- Conditions on everything are no struct and no list. -/
theorem even_narrow (n : Nat) (ts : List Condition) : (narrow n ts .top).Even :=
  Val.Even.foldl (v := .top) rfl fun _ => even_of_mem_breadthFirst

end Condition

namespace Eval

variable {process : Nat → Eval Unit} {a b : Arena} {v w : Nat} {y : Val}

/-- A value without parts is exported if it is a scalar that has host data; a constraint is not yet
concrete. -/
theorem exists_exportAt_of_plain (left : Nat) (hsettle : settle process v a = (w, b))
    (h : b.Plain w y) (heven : y.Even) (hbottom : y.isBottom = false) :
    ∃ r, (exportAt process (left + 1) v).run a = (r, b) ∧ r.toOption = y.json? ∧
      ((∃ c, y = .constraint c) → ∃ f, r = .error f ∧ f.isIncomplete = true) := by
  rw [run_exportAt_of_not_isBottom hsettle (by rw [h.val]; exact hbottom) h.pending h.stage]
  have hval : (b.vertex w).val = y := h.val
  cases y with
  | bottom f => cases hbottom
  | atom s =>
    simp only [exportVal, hval, Val.json?]
    cases s.toJson with
    | ok j =>
      refine ⟨.ok j, rfl, rfl, fun hc => ?_⟩
      obtain ⟨c, hc⟩ := hc
      cases hc
    | error f =>
      refine ⟨_, rfl, rfl, fun hc => ?_⟩
      obtain ⟨c, hc⟩ := hc
      cases hc
  | constraint c =>
    have hkinds (k : Kinds) (hk : k.struct ≠ k.list) : ¬ (Val.constraint c).kinds = k := fun he =>
      hk (he ▸ heven)
    simp only [exportVal, hval, hkinds .ofStruct (by decide), hkinds .ofList (by decide), if_false]
    refine ⟨_, rfl, rfl, fun _ => ⟨_, rfl, ?_⟩⟩
    rw [Fault.isIncomplete_atPath]
    rfl

/-! ## Narrowing -/

variable {o : Offer} {x : Vertex} {levels n : Nat}

theorem plain_stand {d : Disjunct} (h : a.vertex w = o.stand x d) : a.Plain w (o.val d) := by
  constructor
  all_goals rw [h]; rfl

/-- The stand-ins are compared by what they are exported as. -/
theorem exists_exportVertex_stand (levels : Nat) {d : Disjunct} (hd : o.survives d = true)
    (h : a.vertex w = o.stand x d) : ∃ r, (exportVertex (processAt levels) w).run a = (r, a) ∧
      r.toOption = (o.val d).json? := by
  have hplain := plain_stand h
  have hsettle : settle (processAt levels) w a = (w, a) :=
    settle_of_forward (processAt_of_stage levels (by rw [hplain.stage]; decide)) hplain.forward
  obtain ⟨r, hr, hjson, -⟩ := exists_exportAt_of_plain maxDepth hsettle hplain
    (Condition.even_narrow _ _) (by simpa [Offer.survives] using hd)
  exact ⟨r, hr, hjson⟩

theorem run_exportAlike_some (first : Json) {ps : List (Disjunct × Nat)}
    (h : ∀ p ∈ ps, o.survives p.1 = true ∧ a.vertex p.2 = o.stand x p.1) :
    exportAlike (processAt levels) (some first) (ps.map (·.2)) a =
      ((ps.map fun p => (o.val p.1).json?).all (·.any (first == ·)), a) := by
  induction ps with
  | nil => rfl
  | cons p ps ih =>
    rw [List.forall_mem_cons] at h
    obtain ⟨r, hr, hjson⟩ := exists_exportVertex_stand levels h.1.1 h.1.2
    rw [List.map_cons, exportAlike, run_bind, hr]
    rw [List.map_cons, List.all_cons, ← hjson]
    cases r with
    | error f => rfl
    | ok j =>
      show (if first == j then exportAlike (processAt levels) (some first) (ps.map (·.2))
        else pure false : Eval Bool) a = _
      cases hj : first == j with
      | true =>
        rw [if_pos rfl, ih h.2]
        simp [Except.toOption, hj]
      | false => simp [Except.toOption, hj]; rfl

theorem run_exportAlike_none {ps : List (Disjunct × Nat)} (hne : ps ≠ [])
    (h : ∀ p ∈ ps, o.survives p.1 = true ∧ a.vertex p.2 = o.stand x p.1) :
    exportAlike (processAt levels) none (ps.map (·.2)) a =
      ((Json.agreed (ps.map fun p => (o.val p.1).json?)).isSome, a) := by
  obtain ⟨p, ps, rfl⟩ := List.exists_cons_of_ne_nil hne
  rw [List.forall_mem_cons] at h
  obtain ⟨r, hr, hjson⟩ := exists_exportVertex_stand levels h.1.1 h.1.2
  rw [List.map_cons, exportAlike, run_bind, hr]
  rw [List.map_cons, ← hjson]
  cases r with
  | error f => rfl
  | ok j =>
    refine (run_exportAlike_some j h.2).trans ?_
    simp only [Json.agreed, Except.toOption]
    generalize (ps.map fun p => (o.val p.1).json?).all _ = alike
    cases alike <;> rfl

theorem survivors_chosen (o : Offer) (n : Nat) :
    (let survivors := (o.placed n o.disjuncts).map o.survivor
      if survivors.any (·.default) then survivors.filter (·.default) else survivors) =
      (o.chosen n).map o.survivor := by
  simp only [Offer.chosen, List.any_map, List.filter_map, apply_ite (List.map o.survivor)]
  rfl

theorem mem_placed_of_mem_chosen {q : Disjunct × Nat} (h : q ∈ o.chosen n) :
    q ∈ o.placed n o.disjuncts := by
  unfold Offer.chosen at h
  dsimp only at h
  split at h
  · exact List.mem_of_mem_filter h
  · exact h

/-- One of the candidates stays if all of them are exported as the same data. -/
theorem run_narrow (h : ∀ q ∈ o.placed n o.disjuncts, a.vertex q.2 = o.stand x q.1) :
    narrow (processAt levels) ((o.placed n o.disjuncts).map o.survivor) a =
      (if 1 < (o.chosen n).length ∧ o.outcome.isSome = true then ((o.chosen n).map o.survivor).take 1
        else (o.chosen n).map o.survivor, a) := by
  have hchosen : ∀ q ∈ o.chosen n, o.survives q.1 = true ∧ a.vertex q.2 = o.stand x q.1 := by
    intro q hq
    have hplaced := mem_placed_of_mem_chosen hq
    exact ⟨(List.mem_filter.mp hplaced).2, h q hplaced⟩
  have houtcome : Json.agreed ((o.chosen n).map fun q => (o.val q.1).json?) = o.outcome := by
    rw [Offer.outcome, ← Offer.map_fst_chosen n, List.map_map]
    rfl
  rw [narrow]
  dsimp only
  rw [survivors_chosen, List.length_map]
  by_cases hlength : 1 < (o.chosen n).length
  · have hne : o.chosen n ≠ [] := List.ne_nil_of_length_pos (Nat.lt_of_succ_lt hlength)
    have hvertices : ((o.chosen n).map o.survivor).map (·.vertex) = (o.chosen n).map (·.2) :=
      List.map_map
    rw [if_pos hlength, hvertices, run_bind, run_exportAlike_none hne hchosen, houtcome]
    dsimp only
    cases o.outcome.isSome with
    | true => simp only [hlength, true_and, if_true]; rfl
    | false => simp; rfl
  · rw [if_neg hlength, if_neg (fun hno => hlength hno.1)]
    rfl

end Eval

end SchemaMock
