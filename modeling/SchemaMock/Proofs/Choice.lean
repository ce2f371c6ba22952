import SchemaMock.Proofs.Eval.Selection
import SchemaMock.Proofs.Fields
import SchemaMock.Proofs.Scalar

/-! # Fields with alternatives

A field is a disjunction of types, bounds and literals. Without a value the preferred alternatives
decide what it is exported as. A scalar that is filled in is exported as it is if an alternative
admits it, whatever the marks are, and otherwise no alternative is left.
-/

namespace SchemaMock

open Arena Eval

/-! ## Alternatives -/

namespace Scalar

variable {s t : Scalar} {j k : Json}

/-- A scalar with host data is written as the literal, and is what the host data denotes. -/
theorem encode_of_toJson (h : s.toJson = .ok j) :
    j.canonical = true ∧ j.toVal [] = .atom s ∧ Expr.ofJson j = .ok s.toExpr := by
  cases s with
  | int i =>
    simp only [toJson] at h
    split at h
    · cases h
      exact ⟨‹_›, rfl, rfl⟩
    · cases h
  | float x =>
    simp only [toJson] at h
    split at h
    · cases h
      exact ⟨‹_›, rfl, rfl⟩
    · cases h
  | _ =>
    cases h
    exact ⟨rfl, rfl, rfl⟩

/-- Host data is equal when the scalars are the same. -/
theorem beq_toJson (hs : s.toJson = .ok j) (ht : t.toJson = .ok k) : (j == k) = s.same t := by
  obtain ⟨hj, hsval, -⟩ := encode_of_toJson hs
  obtain ⟨-, htval, -⟩ := encode_of_toJson ht
  clear hs ht
  cases j <;> cases hsval <;> cases k <;> cases htval <;> try rfl
  exact (floatSame_of_isFinite hj _).symm

end Scalar

theorem Constraint.kinds_ne_none_of_ofTypeName? {name : String} {c : Constraint}
    (h : ofTypeName? name = some c) : c.kinds ≠ .none := by
  unfold ofTypeName? at h
  split at h <;> cases h <;> decide

theorem Bound.kinds_ne_none (b : Bound) : b.kinds ≠ .none := by
  unfold kinds
  split <;> decide

namespace Condition

def isAlternative : Condition → Bool
  | type _ => true
  | bound _ _ => true
  | equal c => c.value.toJson.toOption.isSome
  | _ => false

def json? : Condition → Option Json
  | equal c => c.value.toJson.toOption
  | _ => none

variable {t : Condition}

/-- The host data of a literal is that of a scalar. -/
theorem exists_toJson_of_json? {j : Json} (h : t.json? = some j) :
    ∃ s : Scalar, s.toJson = .ok j := by
  cases t with
  | equal c => exact ⟨c.value, Except.eq_ok_of_toOption h⟩
  | _ => cases h

theorem top_meet_constraint {c : Constraint} (h : c.kinds ≠ .none) :
    ∃ k, Val.top.meet (.constraint c) = .constraint k := by
  have hinter : Kinds.top.inter c.kinds = c.kinds := by simp [Kinds.inter, Kinds.top]
  have hsome : ¬ ((Kinds.top.inter c.kinds).isEmpty = true) := by
    rw [hinter, Kinds.isEmpty, beq_iff_eq]
    exact h
  exact ⟨_, if_neg hsome⟩

/-- An alternative says one thing, which contradicts no value by itself. -/
theorem exists_val_of_isAlternative (h : t.isAlternative = true) :
    t.operands = [] ∧ t.height ≤ maxDepth ∧ ∃ w, t.vals = [w] ∧
      ((∃ k, t.json? = none ∧ Val.top.meet w = .constraint k) ∨
        ∃ s j, Val.top.meet w = .atom s ∧ s.toJson = .ok j ∧ t.json? = some j) := by
  have hone : 1 ≤ maxDepth := by decide
  cases t with
  | type t =>
    obtain ⟨k, hk⟩ :=
      top_meet_constraint (Constraint.kinds_ne_none_of_ofTypeName? t.ofTypeName?_name)
    exact ⟨rfl, hone, _, rfl, .inl ⟨k, rfl, hk⟩⟩
  | bound op c =>
    obtain ⟨k, hk⟩ := top_meet_constraint (c := .ofBound ⟨op, c.value⟩) (Bound.kinds_ne_none _)
    exact ⟨rfl, hone, _, rfl, .inl ⟨k, rfl, hk⟩⟩
  | equal c =>
    obtain ⟨j, hj⟩ := Option.isSome_iff_exists.mp h
    have hok : c.value.toJson = .ok j := Except.eq_ok_of_toOption hj
    have hval : Val.top.meet (.atom c.value) = .atom c.value := by
      rw [← (Scalar.encode_of_toJson hok).2.1]
      exact j.top_meet_toVal
    exact ⟨rfl, hone, _, rfl, .inr ⟨c.value, j, hval, hok, hj⟩⟩
  | _ => cases h

end Condition

/-! ## A field -/

namespace Offer

variable {s : Scalar} {x : Expr} {ds : List Disjunct} {d : Disjunct}

def ofField (filled : Option Scalar) (x : Expr) (ds : List Disjunct) : Offer where
  kept := filled.toList.map fun s => .of s.toExpr plainScope false
  conditions := filled.toList.map fun s => .equal (.plain s)
  conjunct := .of x fieldScope false
  disjuncts := ds

theorem json?_atom {j : Json} (h : s.toJson = .ok j) : (Val.atom s).json? = some j := by
  rw [Val.json?, h]
  rfl

/-- An alternative keeps the scalar that is filled in if it admits it, and fails otherwise. -/
theorem val_ofField_some (x : Expr) (ds : List Disjunct) {j : Json} (hs : s.toJson = .ok j)
    (hd : d.condition.isAlternative = true) :
    (d.condition.admits s = true ∧ (ofField (some s) x ds).val d = .atom s) ∨
    (d.condition.admits s = false ∧ ((ofField (some s) x ds).val d).isBottom = true) := by
  obtain ⟨hoperands, -, w, hw, -⟩ := Condition.exists_val_of_isAlternative hd
  obtain ⟨-, hval, -⟩ := Scalar.encode_of_toJson hs
  have hjson : Condition.admitsJson j d.condition = d.condition.admits s := by
    rcases j.scalar_or_parts with ⟨t, ht, hadmits⟩ | ⟨k, -, hk, -⟩
    · rw [ht] at hval
      obtain rfl := Val.atom.inj hval
      exact hadmits _
    · rw [hk] at hval
      cases hval
  have hstart : (ofField (some s) x ds).val d = (j.toVal []).meet w := by
    have hflat : ∀ t ∈ (ofField (some s) x ds).conditions ++ [d.condition], t.operands = [] :=
      List.forall_mem_cons.mpr ⟨rfl, List.forall_mem_singleton.mpr hoperands⟩
    rw [Offer.val, Condition.narrow_flat hflat (by decide : 0 < maxDepth)]
    show (.atom s :: (d.condition.vals ++ [])).foldl Val.meet .top = _
    rw [hw, ← hval]
    exact congrArg (Val.meet · w) j.top_meet_toVal
  rw [hstart, ← hjson]
  rcases Condition.keeps_or_loses (t := d.condition) j (hw ▸ List.mem_singleton_self w) with
    ⟨hadmits, hkeeps⟩ | ⟨hadmits, hloses⟩
  · obtain ⟨bounds, hb⟩ := hkeeps []
    refine .inl ⟨hadmits, hb.trans ?_⟩
    cases j <;> first | exact hval | cases hval
  · exact .inr ⟨hadmits, hloses []⟩

/-- Without a value an alternative leaves what it says. -/
theorem val_ofField_none (hd : d.condition.isAlternative = true) :
    ((ofField none x ds).val d).isBottom = false ∧
      ((ofField none x ds).val d).json? = d.condition.json? ∧
      ∀ s, (ofField none x ds).val d = .atom s → ∃ j, s.toJson = .ok j := by
  obtain ⟨hoperands, -, w, hw, hcases⟩ := Condition.exists_val_of_isAlternative hd
  have hstart : (ofField none x ds).val d = Val.top.meet w := by
    have hflat : ∀ t ∈ (ofField none x ds).conditions ++ [d.condition], t.operands = [] :=
      List.forall_mem_singleton.mpr hoperands
    rw [Offer.val, Condition.narrow_flat hflat (by decide : 0 < maxDepth)]
    simp [ofField, hw]
  rw [hstart]
  rcases hcases with ⟨k, hj, hk⟩ | ⟨s, j, hs, hsj, hj⟩
  · rw [hk, hj]
    refine ⟨rfl, rfl, fun s hs => ?_⟩
    cases hs
  · rw [hs, hj]
    refine ⟨rfl, json?_atom hsj, ?_⟩
    rintro t ⟨⟩
    exact ⟨j, hsj⟩

theorem agreed_eq_some {j : Json} {os : List (Option Json)} (hne : os ≠ [])
    (hos : ∀ o ∈ os, o = some j) (hj : (j == j) = true) : Json.agreed os = some j := by
  obtain ⟨o, rest, rfl⟩ := List.exists_cons_of_ne_nil hne
  rw [List.forall_mem_cons] at hos
  obtain ⟨rfl, hrest⟩ := hos
  have hall : rest.all (·.any (j == ·)) = true := by
    rw [List.all_eq_true]
    intro o ho
    rw [hrest o ho]
    exact hj
  rw [Json.agreed, if_pos hall]

/-- A scalar has candidates if an alternative admits it, and they are all exported as it. -/
theorem candidates_ofField_some {j : Json} (hs : s.toJson = .ok j)
    (hds : ∀ d ∈ ds, d.condition.isAlternative = true) :
    ((ofField (some s) x ds).candidates ≠ [] ↔ ∃ d ∈ ds, d.condition.admits s = true) ∧
      ((ofField (some s) x ds).candidates ≠ [] → (ofField (some s) x ds).outcome = some j) := by
  have hsurvives : ∀ d ∈ ds, (ofField (some s) x ds).survives d = d.condition.admits s := by
    intro d hd
    rcases val_ofField_some x ds hs (hds d hd) with ⟨ha, hv⟩ | ⟨ha, hv⟩
    · rw [survives, hv, ha]
      rfl
    · rw [survives, hv, ha]
      rfl
  constructor
  · rw [Ne, candidates_eq_nil_iff]
    constructor
    · intro hsome
      by_contra hno
      refine hsome fun d hd => ?_
      rw [hsurvives d hd, Bool.eq_false_iff]
      exact fun ha => hno ⟨d, hd, ha⟩
    · rintro ⟨d, hd, ha⟩ hnone
      have := hnone d hd
      rw [hsurvives d hd, ha] at this
      cases this
  · intro hne
    have hself : (j == j) = true := by
      rw [Scalar.beq_toJson hs hs]
      exact s.same_refl
    refine agreed_eq_some (by simpa using hne) ?_ hself
    rw [List.forall_mem_map]
    intro d hd
    obtain ⟨hmem, hsurvive⟩ := mem_candidates hd
    rcases val_ofField_some x ds hs (hds d hmem) with ⟨-, hv⟩ | ⟨-, hv⟩
    · rw [hv]
      exact json?_atom hs
    · rw [survives, hv] at hsurvive
      cases hsurvive

/-- Without a value the preferred alternatives are the candidates. -/
theorem candidates_ofField_none (hds : ∀ d ∈ ds, d.condition.isAlternative = true) :
    (ofField none x ds).candidates = Disjunct.preferred ds ∧
      (ofField none x ds).outcome =
        Json.agreed ((Disjunct.preferred ds).map (·.condition.json?)) := by
  have hall : ds.filter (ofField none x ds).survives = ds := by
    rw [List.filter_eq_self]
    intro d hd
    rw [survives, (val_ofField_none (hds d hd)).1]
    rfl
  have hcandidates : (ofField none x ds).candidates = Disjunct.preferred ds :=
    congrArg Disjunct.preferred hall
  refine ⟨hcandidates, ?_⟩
  rw [outcome]
  refine congrArg Json.agreed ?_
  rw [hcandidates]
  apply List.map_congr_left
  intro d hd
  exact (val_ofField_none (hds d (mem_candidates (hcandidates ▸ hd)).1)).2.1

end Offer

/-- Literals agree on data just when all of them have equal data. -/
theorem Condition.agreed_iff {ts : List Condition} {s : Scalar} {j : Json} (hs : s.toJson = .ok j) :
    (∃ k, Json.agreed (ts.map (·.json?)) = some k ∧ (k == j) = true) ↔
      ts ≠ [] ∧ ∀ t ∈ ts, ∃ k, t.json? = some k ∧ (k == j) = true := by
  cases ts with
  | nil => simp [Json.agreed]
  | cons t ts =>
    rw [and_iff_right (List.cons_ne_nil t ts), List.forall_mem_cons]
    constructor
    · rintro ⟨k, hk, hkj⟩
      rw [List.map_cons] at hk
      cases ht : t.json? with
      | none => rw [ht] at hk; cases hk
      | some l =>
        rw [ht, Json.agreed] at hk
        split at hk
        · obtain rfl := Option.some.inj hk
          refine ⟨⟨l, rfl, hkj⟩, fun u hu => ?_⟩
          have hall := List.all_eq_true.mp ‹_› u.json? (List.mem_map_of_mem hu)
          cases hm : u.json? with
          | none => rw [hm] at hall; cases hall
          | some m =>
            rw [hm] at hall
            refine ⟨m, rfl, ?_⟩
            obtain ⟨p, hp⟩ := exists_toJson_of_json? ht
            obtain ⟨q, hq⟩ := exists_toJson_of_json? hm
            rw [Scalar.beq_toJson hp hs] at hkj
            rw [Option.any_some, Scalar.beq_toJson hp hq] at hall
            rw [Scalar.beq_toJson hq hs]
            exact Scalar.same_trans (Scalar.same_symm hall) hkj
        · cases hk
    · rintro ⟨⟨l, ht, hlj⟩, hrest⟩
      refine ⟨l, ?_, hlj⟩
      obtain ⟨p, hp⟩ := exists_toJson_of_json? ht
      rw [List.map_cons, ht, Json.agreed, if_pos]
      rw [List.all_eq_true, List.forall_mem_map]
      intro u hu
      obtain ⟨m, hm, hmj⟩ := hrest u hu
      obtain ⟨q, hq⟩ := exists_toJson_of_json? hm
      rw [hm, Option.any_some, Scalar.beq_toJson hp hq]
      rw [Scalar.beq_toJson hp hs] at hlj
      rw [Scalar.beq_toJson hq hs] at hmj
      exact Scalar.same_trans hlj (Scalar.same_symm hmj)

/-- What literals agree on is the data of a scalar. -/
theorem Condition.exists_toJson_of_agreed {ts : List Condition} {j : Json}
    (h : Json.agreed (ts.map (·.json?)) = some j) : ∃ s : Scalar, s.toJson = .ok j := by
  cases ts with
  | nil => cases h
  | cons t ts =>
    rw [List.map_cons] at h
    cases ht : t.json? with
    | none => rw [ht] at h; cases h
    | some k =>
      rw [ht, Json.agreed] at h
      split at h
      · exact Option.some.inj h ▸ exists_toJson_of_json? ht
      · cases h

theorem Expr.alternatives_ne_nil (x : Expr) (marked : Bool) : x.alternatives marked ≠ [] := by
  fun_induction Expr.alternatives marked x with
  | case1 marked l r ihl _ => exact List.append_ne_nil_of_left_ne_nil ihl _
  | case2 marked x ih => exact ih
  | case3 marked x => exact List.cons_ne_nil _ _

/-- The preferred alternatives are all literals equal to the host data. -/
def Disjunct.PreferOnly (ds : List Disjunct) (j : Json) : Prop :=
  ∀ d ∈ preferred ds, ∃ k, d.condition.json? = some k ∧ (k == j) = true

namespace Value

variable {x : Expr} {ds : List Disjunct}

def fieldLabel : Label := .regular "x"

theorem isChoice_of_offers (h : x.Offers ds) (hmarked : ∀ d, ds = [d] → d.marked = true) :
    x.isChoice = true := by
  have hleaf (hx : x.alternatives false = [(x, false)]) : x.isChoice = true := by
    rw [Expr.Offers, hx] at h
    obtain ⟨d, rest, rfl⟩ := List.exists_cons_of_ne_nil (l := ds) (by rintro rfl; cases h)
    obtain ⟨hd, hrest⟩ := List.cons.inj h
    obtain rfl := List.map_eq_nil_iff.mp hrest.symm
    have := hmarked d rfl
    rw [← (Prod.mk.inj hd).2] at this
    cases this
  cases x with
  | marked y => rfl
  | binary op l r =>
    cases op with
    | disjoin => rfl
    | _ => exact hleaf rfl
  | _ => exact hleaf rfl

/-- No type has the name of the field. -/
theorem fieldLabel_ne_of_ofTypeName? {name : String}
    (h : (Constraint.ofTypeName? name).isSome = true) :
    Label.ofIdent name.toList ≠ fieldLabel := by
  unfold Constraint.ofTypeName? at h
  split at h
  all_goals first | decide | exact absurd h Bool.false_ne_true

def fileOf (package : Option String) (imports : List String) (x : Expr) : SchemaFile :=
  ⟨package, imports, [.field fieldLabel false x]⟩

def fillOf (filled : Option Scalar) : List Fill :=
  filled.toList.map fun s => ⟨.field fieldLabel, .expr s.toExpr⟩

/-- The field has settled, and shows what its disjunction comes to. -/
theorem exists_rests (package : Option String) (imports : List String) (filled : Option Scalar)
    (hx : x.Offers ds) (hcount : ds.length ≤ maxCombinations)
    (hmarked : ∀ d, ds = [d] → d.marked = true) (hds : ∀ d ∈ ds, d.condition.isAlternative = true)
    (hfilled : ∀ s ∈ filled, ∃ j, s.toJson = .ok j) :
    ∃ b c w, evaluate root (ofInputs [.file (fileOf package imports x)] (fillOf filled)) = ((), b) ∧
      b.Rooted [(fieldLabel, x)] (fillOf filled) ∧ settle evaluate 1 b = (w, c) ∧
      c.Rests (.ofField filled x ds) w := by
  let o : Offer := .ofField filled x ds
  have haddressed : Addressed [fieldLabel] (fillOf filled) := by
    intro fill hfill
    obtain ⟨s, -, rfl⟩ := List.mem_map.mp hfill
    exact ⟨fieldLabel, List.mem_singleton_self _, rfl⟩
  have hlabels : ([(fieldLabel, x)].map (·.1)).Nodup := List.nodup_singleton _
  obtain ⟨b, hrun, hb⟩ := exists_rooted package imports hlabels haddressed
  have hpart : b.vertex 1 = .fresh (some root) [.field fieldLabel] (o.kept ++ [o.conjunct]) := by
    have hat : (fillOf filled).filter (fun fill => [Path.field fieldLabel].contains fill.path) =
        fillOf filled := by
      rw [List.filter_eq_self]
      intro fill hfill
      obtain ⟨s, -, rfl⟩ := List.mem_map.mp hfill
      simp
    have hfills : b.fillsAt [.field fieldLabel] = o.kept := by
      rw [hb.fillsAt, hat, fillOf, List.map_map]
      rfl
    rw [hb.part (i := 0) Nat.zero_lt_one, ← hfills]
    rfl
  have hoffered : b.Offered o 1 := by
    refine ⟨?_, ⟨_, _, hpart, ?_⟩, ⟨x, rfl, isChoice_of_offers hx hmarked, hx⟩, ?_, ?_, ?_,
      ?_, ?_, hcount⟩
    · rw [hb.size]
      exact Nat.one_lt_two
    · rw [hasFillsBelow_eq_false_iff, hb.entries]
      intro fill hfill path hpath hbelow
      obtain ⟨s, -, rfl⟩ := List.mem_map.mp hfill
      obtain rfl := List.mem_singleton.mp hpath
      exact Nat.lt_irrefl _ hbelow.1
    · show List.Forall₂ _ (filled.toList.map _) (filled.toList.map _)
      rw [List.forall₂_map_left_iff, List.forall₂_map_right_iff, List.forall₂_same]
      exact fun s _ => ⟨rfl, List.forall_mem_nil _⟩
    · intro t ht
      obtain ⟨s, -, rfl⟩ := List.mem_map.mp ht
      rfl
    · cases filled with
      | none => rfl
      | some s =>
        obtain ⟨j, hj⟩ := hfilled s rfl
        obtain ⟨-, hval, -⟩ := Scalar.encode_of_toJson hj
        show (Val.top.meet (.atom s)).isBottom = false
        rw [← hval, j.top_meet_toVal, j.isBottom_toVal]
    · intro d _
      refine hb.clear fun name hname => ?_
      rw [List.map_singleton, List.mem_singleton]
      exact fieldLabel_ne_of_ofTypeName? (Condition.isSome_of_mem_names hname)
    · intro d hd t ht
      rcases List.mem_append.mp ht with ht | ht
      · obtain ⟨s, -, rfl⟩ := List.mem_map.mp ht
        exact Nat.le_of_lt (by decide : 1 < maxDepth)
      · obtain rfl := List.mem_singleton.mp ht
        exact (Condition.exists_val_of_isAlternative (hds d hd)).2.1
  obtain ⟨c, hprocess, -, hdecided⟩ := exists_decided 254 hoffered
  obtain ⟨w, hsettle, hrests⟩ := Eval.exists_rests hprocess hdecided
  refine ⟨b, c, w, hrun, hb, ?_, hrests⟩
  rw [evaluate_eq]
  exact hsettle

variable {package : Option String} {imports : List String} {filled : Option Scalar}

def choice (package : Option String) (imports : List String) (x : Expr) (filled : Option Scalar) :
    Value :=
  ⟨[.file (fileOf package imports x)], fillOf filled, .root⟩

def choiceField (package : Option String) (imports : List String) (x : Expr)
    (filled : Option Scalar) : Value :=
  (choice package imports x filled).lookup (.field fieldLabel)

/-- The faults of the field are those of the value: one if no candidate is left, and none
otherwise. -/
theorem faults_choice (package : Option String) (imports : List String) (hx : x.Offers ds)
    (hcount : ds.length ≤ maxCombinations) (hmarked : ∀ d, ds = [d] → d.marked = true)
    (hds : ∀ d ∈ ds, d.condition.isAlternative = true)
    (hfilled : ∀ s ∈ filled, ∃ j, s.toJson = .ok j) (concrete : Bool)
    (hconcrete : concrete = true → (Offer.ofField filled x ds).candidates ≠ [] →
      (Offer.ofField filled x ds).outcome.isSome = true) :
    let fs := (choice package imports x filled).faults concrete
    (choiceField package imports x filled).faults concrete = fs ∧
      ((Offer.ofField filled x ds).candidates ≠ [] → fs = []) ∧
      ((Offer.ofField filled x ds).candidates = [] →
        ∃ f, fs = [f] ∧ f.kind = .disjunction ∧ f.isIncomplete = false) := by
  intro fs
  obtain ⟨b, c, w, hrun, hb, hsettle, hrests⟩ :=
    exists_rests package imports filled hx hcount hmarked hds hfilled
  obtain ⟨gs, hsome, hnone, hall⟩ := exists_faults_of_rests evaluate hrests concrete hconcrete
  have hagain : settle evaluate w c = (w, c) := by
    refine settle_of_forward (evaluate_of_stage ?_) hrests.forward
    rw [hrests.stage]
    exact Stage.noConfusion
  have hwhole : fs = gs := by
    have hquery := query_of_evaluate (v := choice package imports x filled) rfl hrun
      hb.stage hb.forward
      (fun f => [(choice package imports x filled).locate f]) (Eval.faults evaluate concrete)
    refine hquery.trans ?_
    have hone : ([((fieldLabel, x), 1)].mapM (fun e : (Label × Expr) × Nat =>
        faultsAt evaluate maxDepth (concrete && e.1.1.isRegular) e.2) b).1 = [gs] := by
      rw [run_mapM_cons]
      exact congrArg ([·]) ((congrArg (fun k => (faultsAt evaluate maxDepth k 1 b).1)
        (Bool.and_true concrete)).trans (hall 255 1 b hsettle))
    rw [faults_of_rooted hb]
    exact (congrArg List.flatten hone).trans (List.append_nil gs)
  have hat : (choiceField package imports x filled).faults concrete = gs := by
    rw [faults, query_field (v := choiceField package imports x filled) (i := 0) hrun hb (List.nodup_singleton _)
      Nat.zero_lt_one rfl hsettle hrests.stage]
    exact hall maxDepth w c hagain
  rw [hwhole]
  exact ⟨hat, hsome, hnone⟩

/-- What the candidates agree on is exported. -/
theorem toJson_choice (package : Option String) (imports : List String) (hx : x.Offers ds)
    (hcount : ds.length ≤ maxCombinations) (hmarked : ∀ d, ds = [d] → d.marked = true)
    (hds : ∀ d ∈ ds, d.condition.isAlternative = true)
    (hfilled : ∀ s ∈ filled, ∃ j, s.toJson = .ok j) :
    let r := (choiceField package imports x filled).toJson
    r.toOption = (Offer.ofField filled x ds).outcome ∧
      ((Offer.ofField filled x ds).candidates ≠ [] →
        (∀ d ∈ (Offer.ofField filled x ds).candidates, ∀ s,
        (Offer.ofField filled x ds).val d = .atom s →
          ∃ j, s.toJson = .ok j) → ∀ f, r = .error f → f.isIncomplete = true) := by
  intro r
  obtain ⟨b, c, w, hrun, hb, hsettle, hrests⟩ :=
    exists_rests package imports filled hx hcount hmarked hds hfilled
  have hagain : settle evaluate w c = (w, c) := by
    refine settle_of_forward (evaluate_of_stage ?_) hrests.forward
    rw [hrests.stage]
    exact Stage.noConfusion
  obtain ⟨e, he, houtcome, hopen⟩ := exists_exportAt_of_rests maxDepth hagain hrests
  have hr : r = e.mapError (choiceField package imports x filled).locate := by
    refine congrArg (Except.mapError _) ?_
    rw [attempt, query_field (v := choiceField package imports x filled) (i := 0) hrun hb (List.nodup_singleton _)
      Nat.zero_lt_one rfl hsettle hrests.stage]
    rw [exportVertex, he]
  rw [hr]
  cases e with
  | ok j => exact ⟨houtcome, fun _ _ => nofun⟩
  | error f =>
    refine ⟨houtcome, fun hne hatoms g hg => ?_⟩
    cases hg
    rw [locate, Fault.isIncomplete_atPath]
    exact hopen hne hatoms f rfl

/-- Filled with a scalar, the field takes it where an alternative does. -/
theorem decide_filled (package : Option String) (imports : List String) (hx : x.Offers ds)
    (hcount : ds.length ≤ 256) (hmarked : ∀ d, ds = [d] → d.marked = true)
    (hds : ∀ d ∈ ds, d.condition.isAlternative = true) {s : Scalar} {j : Json}
    (hs : s.toJson = .ok j) :
    let w := (ofFile (fileOf package imports x)).fill (.field fieldLabel) (ofExpr s.toExpr)
    let here := w.lookup (.field fieldLabel)
    (w.faults true = [] ↔ ∃ d ∈ ds, d.condition.admits s = true) ∧
    here.faults true = w.faults true ∧
    ((∃ d ∈ ds, d.condition.admits s = true) → here.toJson = .ok j) ∧
    ((¬ ∃ d ∈ ds, d.condition.admits s = true) →
      ∃ f, w.faults true = [f] ∧ f.kind = .disjunction ∧ f.isIncomplete = false) := by
  intro w here
  have hw : w = choice package imports x (some s) := rfl
  have hfilled : ∀ t ∈ some s, ∃ j, t.toJson = .ok j := by
    rintro t ⟨⟩
    exact ⟨j, hs⟩
  obtain ⟨hcandidates, houtcome⟩ := Offer.candidates_ofField_some (x := x) hs hds
  obtain ⟨hat, hsome, hnone⟩ := faults_choice package imports hx hcount hmarked hds hfilled true
    fun _ hne => by
    rw [houtcome hne]
    rfl
  rw [← hw] at hat hsome hnone
  refine ⟨⟨fun hfaults => ?_, fun hadmits => hsome (hcandidates.mpr hadmits)⟩, hat,
    fun hadmits => ?_, fun hno => hnone ?_⟩
  · rw [← hcandidates]
    intro hno
    obtain ⟨f, hf, -⟩ := hnone hno
    rw [hfaults] at hf
    cases hf
  · have hjson := (toJson_choice package imports hx hcount hmarked hds hfilled).1
    rw [houtcome (hcandidates.mpr hadmits)] at hjson
    exact Except.eq_ok_of_toOption hjson
  · by_contra hne
    exact hno (hcandidates.mp hne)

/-- Unfilled, the field has a value where the preferred alternatives are one scalar. -/
theorem decide_unfilled (package : Option String) (imports : List String) (hx : x.Offers ds)
    (hcount : ds.length ≤ 256) (hmarked : ∀ d, ds = [d] → d.marked = true)
    (hds : ∀ d ∈ ds, d.condition.isAlternative = true) :
    let v := ofFile (fileOf package imports x)
    let here := v.lookup (.field fieldLabel)
    v.faults false = [] ∧ here.faults false = [] ∧
    (∀ (s : Scalar) j, s.toJson = .ok j →
      ((∃ k, here.toJson = .ok k ∧ (k == j) = true) ↔ Disjunct.PreferOnly ds j)) ∧
    ((¬ ∃ (s : Scalar) (j : Json), s.toJson = .ok j ∧ Disjunct.PreferOnly ds j) →
      ∃ f, here.toJson = .error f ∧ f.isIncomplete = true) := by
  intro v here
  have hfilled : ∀ t ∈ (none : Option Scalar), ∃ j, t.toJson = .ok j := by
    intro t ht
    cases ht
  obtain ⟨hcandidates, houtcome⟩ := Offer.candidates_ofField_none (x := x) hds
  obtain ⟨hat, hnone, -⟩ :=
    faults_choice package imports hx hcount hmarked hds hfilled false fun h => by
    cases h
  obtain ⟨hjson, hopen⟩ := toJson_choice package imports hx hcount hmarked hds hfilled
  let r := here.toJson
  have hr :
      r.toOption = Json.agreed (((Disjunct.preferred ds).map (·.condition)).map (·.json?)) := by
    rw [List.map_map]
    exact hjson.trans houtcome
  have hsome : Disjunct.preferred ds ≠ [] := by
    rw [Ne, Disjunct.preferred_eq_nil]
    rintro rfl
    exact x.alternatives_ne_nil false hx
  have hfaults : v.faults false = [] := hnone (by rw [hcandidates]; exact hsome)
  have hiff (s : Scalar) (j : Json) (hs : s.toJson = .ok j) :
      (∃ k, r = .ok k ∧ (k == j) = true) ↔ Disjunct.PreferOnly ds j := by
    have hok (k : Json) : r = .ok k ↔ r.toOption = some k :=
      ⟨fun h => by rw [h]; rfl, Except.eq_ok_of_toOption⟩
    simp only [hok, hr]
    rw [Condition.agreed_iff hs, List.forall_mem_map, and_iff_right (by simpa using hsome)]
    rfl
  refine ⟨hfaults, hat.trans hfaults, hiff, fun hno => ?_⟩
  cases hrv : r with
  | ok k =>
    rw [hrv] at hr
    obtain ⟨s, hs⟩ := Condition.exists_toJson_of_agreed hr.symm
    have hself : (k == k) = true := by
      rw [Scalar.beq_toJson hs hs]
      exact s.same_refl
    exact absurd ⟨s, k, hs, (hiff s k hs).mp ⟨k, hrv, hself⟩⟩ hno
  | error f =>
    refine ⟨f, hrv, hopen (by rw [hcandidates]; exact hsome) (fun d hd => ?_) f hrv⟩
    exact (Offer.val_ofField_none (hds d (Offer.mem_candidates hd).1)).2.2

/-- A field of alternatives takes a scalar just when an alternative admits it, and is exported as
that scalar; otherwise its one fault is that no alternative is left, and it is final. Without a
value the field has no final fault, and it is exported as host data just when all preferred
alternatives are literals equal to it; otherwise what it lacks is incomplete. -/
theorem alternatives_decide (package : Option String) (imports : List String) (hx : x.Offers ds)
    (hcount : ds.length ≤ 256) (hmarked : ∀ d, ds = [d] → d.marked = true)
    (hds : ∀ d ∈ ds, d.condition.isAlternative = true) :
    let v := ofFile (fileOf package imports x)
    let here (w : Value) := w.lookup (.field fieldLabel)
    (∀ (s : Scalar) j, s.toJson = .ok j → ∃ u, ofJson j = .ok u ∧
      let w := v.fill (.field fieldLabel) u
      (w.faults true = [] ↔ ∃ d ∈ ds, d.condition.admits s = true) ∧
      (here w).faults true = w.faults true ∧
      ((∃ d ∈ ds, d.condition.admits s = true) → (here w).toJson = .ok j) ∧
      ((¬ ∃ d ∈ ds, d.condition.admits s = true) →
        ∃ f, w.faults true = [f] ∧ f.kind = .disjunction ∧ f.isIncomplete = false)) ∧
    v.faults false = [] ∧ (here v).faults false = [] ∧
    (∀ (s : Scalar) j, s.toJson = .ok j →
      ((∃ k, (here v).toJson = .ok k ∧ (k == j) = true) ↔ Disjunct.PreferOnly ds j)) ∧
    ((¬ ∃ (s : Scalar) (j : Json), s.toJson = .ok j ∧ Disjunct.PreferOnly ds j) →
      ∃ f, (here v).toJson = .error f ∧ f.isIncomplete = true) := by
  intro v here
  refine ⟨fun s j hs => ⟨ofExpr s.toExpr, ?_, ?_⟩, ?_⟩
  · rw [ofJson, (Scalar.encode_of_toJson hs).2.2]
    rfl
  · exact decide_filled package imports hx hcount hmarked hds hs
  · exact decide_unfilled package imports hx hcount hmarked hds

/-- A string by default, any integer, or a number that is not too small. -/
def sampleChoice : Expr :=
  .binary .disjoin (.binary .disjoin (.marked (.str "a")) (.ident "int"))
    (.unary .greaterEqual (.int 3))

def sampleDisjuncts : List Disjunct :=
  [⟨.equal (.plain (.str "a")), true⟩, ⟨.type .int, false⟩,
    ⟨.bound .greaterEqual (.plain (.int 3)), false⟩]

theorem alternatives_decide_integer : sampleChoice.Offers sampleDisjuncts ∧
    sampleDisjuncts.length ≤ 256 ∧ (∀ d, sampleDisjuncts = [d] → d.marked = true) ∧
    (∀ d ∈ sampleDisjuncts, d.condition.isAlternative = true) ∧
    ∃ u, ofJson (.int 5) = .ok u ∧
      (((ofFile (fileOf none [] sampleChoice)).fill (.field fieldLabel) u).lookup (.field fieldLabel)).toJson =
        .ok (.int 5) := by
  have hoffers : sampleChoice.Offers sampleDisjuncts := rfl
  have hcount : sampleDisjuncts.length ≤ 256 := by decide
  have hmarked : ∀ d, sampleDisjuncts = [d] → d.marked = true := fun d h => by
    cases congrArg List.length h
  have hds : ∀ d ∈ sampleDisjuncts, d.condition.isAlternative = true := by decide
  obtain ⟨u, hu, -, -, hjson, -⟩ :=
    (alternatives_decide none [] hoffers hcount hmarked hds).1 (.int 5) (.int 5) rfl
  refine ⟨hoffers, hcount, hmarked, hds, u, hu, hjson ⟨_, List.mem_cons_of_mem _ List.mem_cons_self, ?_⟩⟩
  decide

/-! ### Long disjunctions -/

open Token

def chain : Nat → List Char
  | 0 => []
  | n + 1 => '|' :: '0' :: chain n

/-- A field with an alternative and `n` more, all of them the same. -/
def chainText (n : Nat) : String := String.ofList ('x' :: ':' :: '0' :: chain n)

def chainTokens (pos : Nat) : Nat → List Token
  | 0 => [⟨.eof, ⟨pos, pos⟩, []⟩]
  | n + 1 =>
    ⟨.bar, ⟨pos, pos + 1⟩, ['|']⟩ :: ⟨.int, ⟨pos + 1, pos + 2⟩, ['0']⟩ :: chainTokens (pos + 2) n

theorem cut_chain (n : Nat) : cut '0' (chain n) = ⟨.token .int, [], chain n⟩ := by
  cases n <;> rfl

theorem tokenizeFrom_chain (pos n : Nat) :
    tokenizeFrom pos (chain n) = .ok (chainTokens pos n) := by
  induction n generalizing pos with
  | zero =>
    rw [chain, tokenizeFrom]
    rfl
  | succ n ih =>
    have hbar : cut '|' ('0' :: chain n) = ⟨.token .bar, [], '0' :: chain n⟩ := rfl
    rw [chain, tokenizeFrom, hbar]
    dsimp only
    rw [tokenizeFrom, cut_chain]
    dsimp only
    rw [show pos + byteLength ['|'] + byteLength ['0'] = pos + 2 from rfl, ih]
    rfl

theorem tokenize_chainText (n : Nat) : tokenize (chainText n) =
    .ok (⟨.ident, ⟨0, 1⟩, ['x']⟩ :: ⟨.colon, ⟨1, 2⟩, [':']⟩ :: ⟨.int, ⟨2, 3⟩, ['0']⟩ :: chainTokens 3 n) := by
  have hlabel : cut 'x' (':' :: '0' :: chain n) = ⟨.token .ident, [], ':' :: '0' :: chain n⟩ := rfl
  have hcolon : cut ':' ('0' :: chain n) = ⟨.token .colon, [], '0' :: chain n⟩ := rfl
  rw [tokenize, chainText, String.toList_ofList, tokenizeFrom, hlabel]
  dsimp only
  rw [tokenizeFrom, hcolon]
  dsimp only
  rw [tokenizeFrom, cut_chain]
  dsimp only
  rw [show 0 + byteLength ['x'] + byteLength [':'] + byteLength ['0'] = 3 from rfl,
    tokenizeFrom_chain]
  rfl

/-- A field with 256 alternatives in a row has no value, as its expression nests too deeply. -/
theorem not_compile_chainText : (compile none (chainText 255)).isOk = false := by
  have hparse : (SchemaFile.parse (chainText 255)).isOk = false := by
    rw [SchemaFile.parse, Parser.run, tokenize_chainText]
    decide +kernel
  rw [compile]
  cases hp : SchemaFile.parse (chainText 255) with
  | ok file => rw [hp] at hparse; cases hparse
  | error m => rfl

end Value

end SchemaMock
