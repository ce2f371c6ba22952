import SchemaMock.Proofs.Admission
import SchemaMock.Proofs.Eval.Walk

/-! # Conditions narrow a value

Unification with conditions changes the value of a vertex and nothing else, whether the vertex has
host data or not. Host data that meets the conditions stays as it is; other host data becomes
bottom.
-/

namespace SchemaMock

open Arena Eval

/-! ## Host data and conditions -/

namespace Json

/-- A value leaves the data as it is, perhaps with further bounds, or makes it bottom. -/
def Keeps (j : Json) (w : Val) : Prop := ∀ bs, ∃ bs', (j.toVal bs).meet w = j.toVal bs'

def Loses (j : Json) (w : Val) : Prop := ∀ bs, ((j.toVal bs).meet w).isBottom = true

/-- Host data is a scalar, or has parts. -/
theorem scalar_or_parts (j : Json) :
    (∃ s, (∀ bs, j.toVal bs = .atom s) ∧ ∀ t, Condition.admitsJson j t = t.admits s) ∨
    ∃ k, (k = .ofStruct ∨ k = .ofList) ∧ (∀ bs, j.toVal bs = .constraint ⟨k, bs⟩) ∧
      ∀ t, Condition.admitsJson j t = t.admitsParts := by
  cases j with
  | arr items => exact .inr ⟨.ofList, .inr rfl, fun _ => rfl, fun _ => rfl⟩
  | obj fields => exact .inr ⟨.ofStruct, .inl rfl, fun _ => rfl, fun _ => rfl⟩
  | null => exact .inl ⟨.null, fun _ => rfl, fun _ => rfl⟩
  | bool b => exact .inl ⟨.bool b, fun _ => rfl, fun _ => rfl⟩
  | int i => exact .inl ⟨.int i, fun _ => rfl, fun _ => rfl⟩
  | float x => exact .inl ⟨.float x, fun _ => rfl, fun _ => rfl⟩
  | str s => exact .inl ⟨.str s, fun _ => rfl, fun _ => rfl⟩

end Json

namespace Condition

variable {j : Json} {t : Condition} {w : Val}

/-- What a condition says by itself keeps the data that meets it and loses all other data. -/
theorem keeps_or_loses (j : Json) (hw : w ∈ t.vals) :
    (admitsJson j t = true ∧ j.Keeps w) ∨ (admitsJson j t = false ∧ j.Loses w) := by
  rcases j.scalar_or_parts with ⟨s, hval, hadmits⟩ | ⟨k, hk, hval, hadmits⟩
  · rw [hadmits]
    have hscalar {c : Constraint} {p : Bool}
        (hp : p = true ↔ c.kinds.meets s.kinds = true ∧ c.bounds.all (·.admits s) = true) :
        (p = true ∧ j.Keeps (.constraint c)) ∨ (p = false ∧ j.Loses (.constraint c)) := by
      cases hpv : p with
      | true =>
        refine .inl ⟨rfl, fun bs => ⟨bs, ?_⟩⟩
        rw [hval]
        exact Val.meetAtom_of_admits (hp.mp hpv).1 (hp.mp hpv).2
      | false =>
        refine .inr ⟨rfl, fun bs => ?_⟩
        rw [hval]
        refine Val.isBottom_meetAtom fun h => ?_
        rw [hp.mpr h] at hpv
        cases hpv
    cases t with
    | any => cases hw
    | both a b => cases hw
    | type t =>
      obtain rfl := List.mem_singleton.mp hw
      exact hscalar (by rw [admits, Bool.and_eq_true])
    | bound op c =>
      obtain rfl := List.mem_singleton.mp hw
      refine hscalar ⟨fun h => ⟨Bound.meets_kinds_of_admits h, ?_⟩, fun h => ?_⟩
      · rw [admits] at h
        simp [Constraint.ofBound, h]
      · rw [admits]
        simpa [Constraint.ofBound] using h.2
    | equal c =>
      obtain rfl := List.mem_singleton.mp hw
      cases hs : s.same c.value with
      | true =>
        refine .inl ⟨hs, fun bs => ⟨bs, ?_⟩⟩
        rw [hval]
        exact if_pos hs
      | false =>
        refine .inr ⟨hs, fun bs => ?_⟩
        rw [hval]
        simp only [Val.meet, hs]
        rfl
  · rw [hadmits]
    have hparts (c : Constraint) (bs : List Bound) : (j.toVal bs).meet (.constraint c) =
        if (k.inter c.kinds).isEmpty then .ofCause (.noCommonKind ⟨k, bs⟩ c)
        else .constraint ⟨k.inter c.kinds, Constraint.addBounds bs c.bounds⟩ := by
      rw [hval]
      rfl
    have hnone {c : Constraint} (hs : c.kinds.struct = false) (hl : c.kinds.list = false) :
        j.Loses (.constraint c) := by
      intro bs
      rw [hparts]
      have : k.inter c.kinds = .none := by
        rcases hk with rfl | rfl <;> simp [Kinds.inter, Kinds.ofStruct, Kinds.ofList,
          Kinds.none, hs, hl]
      rw [this]
      rfl
    cases t with
    | any => cases hw
    | both a b => cases hw
    | type t =>
      obtain rfl := List.mem_singleton.mp hw
      obtain ⟨hs, hl⟩ := Constraint.kinds_of_ofTypeName? t.ofTypeName?_name
      exact .inr ⟨rfl, hnone hs hl⟩
    | bound op c =>
      obtain rfl := List.mem_singleton.mp hw
      by_cases hop : op = .notEqual
      · subst hop
        refine .inl ⟨rfl, fun bs => ⟨Constraint.addBounds bs [⟨.notEqual, c.value⟩], ?_⟩⟩
        rw [hparts, hval]
        rcases hk with rfl | rfl <;> rfl
      · obtain ⟨hs, hl⟩ := Bound.kinds_of_ordering (b := ⟨op, c.value⟩) hop
        exact .inr ⟨beq_eq_false_iff_ne.mpr hop, hnone hs hl⟩
    | equal c =>
      obtain rfl := List.mem_singleton.mp hw
      refine .inr ⟨rfl, fun bs => ?_⟩
      rw [hval]
      refine Val.isBottom_meetAtom fun h => ?_
      have hmeets : k.meets c.value.kinds = true := h.1
      rcases hk with rfl | rfl <;> cases hc : c.value <;> rw [hc] at hmeets <;> cases hmeets

theorem admitsJson_both (j : Json) (a b : Condition) :
    admitsJson j (both a b) = (admitsJson j a && admitsJson j b) := by
  cases j <;> rfl

theorem admitsJson_any (j : Json) : admitsJson j any = true := by
  cases j <;> rfl

/-- A condition is met when its operands are, and what it says by itself keeps the data. -/
theorem admitsJson_iff : admitsJson j t = true ↔
    (∀ w ∈ t.vals, j.Keeps w) ∧ ∀ u ∈ t.operands, admitsJson j u = true := by
  have hleaf (hvals : ∃ w, t.vals = [w]) (hoperands : t.operands = []) : admitsJson j t = true ↔
      (∀ w ∈ t.vals, j.Keeps w) ∧ ∀ u ∈ t.operands, admitsJson j u = true := by
    obtain ⟨w, hw⟩ := hvals
    simp only [hw, hoperands, List.mem_singleton, forall_eq, List.not_mem_nil, false_imp_iff,
      implies_true, and_true]
    rcases keeps_or_loses (t := t) j (hw ▸ List.mem_singleton_self w) with ⟨ha, hk⟩ | ⟨ha, hl⟩
    · simp [ha, hk]
    · simp only [ha, Bool.false_eq_true, false_iff]
      intro hk
      obtain ⟨bs, hbs⟩ := hk []
      have := hl []
      rw [hbs, j.isBottom_toVal] at this
      cases this
  cases t with
  | any => simp [admitsJson_any, vals, operands]
  | both a b => simp [admitsJson_both, vals, operands]
  | type t => exact hleaf ⟨_, rfl⟩ rfl
  | bound op c => exact hleaf ⟨_, rfl⟩ rfl
  | equal c => exact hleaf ⟨_, rfl⟩ rfl

theorem foldl_toVal {ws : List Val} (h : ∀ w ∈ ws, j.Keeps w) (bs : List Bound) :
    ∃ bs', ws.foldl Val.meet (j.toVal bs) = j.toVal bs' := by
  induction ws generalizing bs with
  | nil => exact ⟨bs, rfl⟩
  | cons w ws ih =>
    obtain ⟨bs', hw⟩ := h w List.mem_cons_self bs
    rw [List.foldl_cons, hw]
    exact ih (fun x hx => h x (List.mem_cons_of_mem w hx)) bs'

theorem isBottom_foldl_toVal {ws : List Val} (hall : ∀ w ∈ ws, j.Keeps w ∨ j.Loses w)
    (h : ∃ w ∈ ws, j.Loses w) (bs : List Bound) :
    (ws.foldl Val.meet (j.toVal bs)).isBottom = true := by
  induction ws generalizing bs with
  | nil => obtain ⟨w, hw, -⟩ := h; cases hw
  | cons w ws ih =>
    rw [List.foldl_cons]
    rcases hall w List.mem_cons_self with hk | hl
    · obtain ⟨bs', hw⟩ := hk bs
      rw [hw]
      obtain ⟨u, hu, hl⟩ := h
      rcases List.mem_cons.mp hu with rfl | hu
      · have := hl bs
        rw [hw, j.isBottom_toVal] at this
        cases this
      · exact ih (fun x hx => hall x (List.mem_cons_of_mem w hx)) ⟨u, hu, hl⟩ bs'
    · exact Val.isBottom_foldl (hl bs) ws

/-- Host data that meets conditions keeps its value, and other host data becomes bottom. -/
theorem narrow_toVal {n : Nat} {ts : List Condition} (hheight : ∀ t ∈ ts, t.height ≤ n)
    (bs : List Bound) :
    ((∀ t ∈ ts, admitsJson j t = true) ∧ ∃ bs', narrow n ts (j.toVal bs) = j.toVal bs') ∨
    ((∃ t ∈ ts, admitsJson j t = false) ∧ (narrow n ts (j.toVal bs)).isBottom = true) := by
  induction n generalizing ts bs with
  | zero => exact .inl ⟨fun t ht => absurd (hheight t ht) (Nat.not_le_of_gt t.height_pos), bs, rfl⟩
  | succ n ih =>
    let ws := ts.flatMap vals
    have hstep (v : Val) :
        narrow (n + 1) ts v = narrow n (ts.flatMap operands) (ws.foldl Val.meet v) := by
      simp only [narrow, breadthFirst, List.foldl_append, ws]
    rw [hstep]
    by_cases hws : ∀ w ∈ ws, j.Keeps w
    · obtain ⟨bs', hbs⟩ := foldl_toVal hws bs
      rw [hbs]
      rcases ih (height_operands hheight) bs' with ⟨hall, h⟩ | ⟨⟨u, hu, hnot⟩, h⟩
      · refine .inl ⟨fun t ht => admitsJson_iff.mpr ⟨fun w hw => ?_, fun u hu => ?_⟩, h⟩
        · exact hws w (List.mem_flatMap.mpr ⟨t, ht, hw⟩)
        · exact hall u (List.mem_flatMap.mpr ⟨t, ht, hu⟩)
      · obtain ⟨t, ht, hut⟩ := List.mem_flatMap.mp hu
        refine .inr ⟨⟨t, ht, ?_⟩, h⟩
        rw [← Bool.not_eq_true]
        intro hadmits
        rw [(admitsJson_iff.mp hadmits).2 u hut] at hnot
        cases hnot
    · push Not at hws
      obtain ⟨w, hw, hnot⟩ := hws
      have hall : ∀ w ∈ ws, j.Keeps w ∨ j.Loses w := by
        intro u hu
        obtain ⟨t, -, hut⟩ := List.mem_flatMap.mp hu
        exact (keeps_or_loses j hut).imp (·.2) (·.2)
      obtain ⟨t, ht, hwt⟩ := List.mem_flatMap.mp hw
      rcases keeps_or_loses j hwt with ⟨-, hk⟩ | ⟨ha, hl⟩
      · exact absurd hk hnot
      · exact .inr ⟨⟨t, ht, ha⟩, Val.isBottom_foldl (isBottom_foldl_toVal hall ⟨w, hw, hl⟩ bs) _⟩

end Condition

/-! ## Unification -/

/-- A vertex is narrowed by one value after the other. -/
def Vertex.meetAll (x : Vertex) (ws : List Val) : Vertex :=
  { x with val := ws.foldl Val.meet x.val }

theorem Vertex.meetAll_append (x : Vertex) (ws us : List Val) :
    x.meetAll (ws ++ us) = (x.meetAll ws).meetAll us := by
  simp only [meetAll, List.foldl_append]

namespace Arena

variable {a b : Arena} {s : Nat} {t : Condition}

def Clear (a : Arena) (s : Nat) (t : Condition) : Prop :=
  ∀ name ∈ t.names, a.Outside (.ofIdent name.toList) s ∧ a.Rootless (.ofIdent name.toList)

theorem Clear.grown {own : Option Nat} (h : a.Clear s t) (hg : Grown own a b)
    (hown : ∀ u, own = some u → (a.vertex u).stage ≠ .done) : b.Clear s t :=
  fun name hn => ⟨(h name hn).1.grown hg, (h name hn).2.grown hg hown⟩

/-- A struct that declares none of the type names leaves them to what is around it. -/
theorem Clear.within {p v : Nat} {decls : List Decl} (h : a.Clear p t) (hs : s < a.scopes.size)
    (hscope : a.scope s = .struct p decls v) (hp : p < s)
    (hdecls : ∀ name ∈ t.names, decls.any (Decl.declares (.ofIdent name.toList)) = false) :
    a.Clear s t :=
  fun name hn => ⟨.within hs hscope (hdecls name hn) hp (h name hn).1, (h name hn).2⟩

def Conditions (a : Arena) (cs : List Conjunct) (ts : List Condition) : Prop :=
  List.Forall₂ (fun c t => c.source = .expr t.toExpr ∧ a.Clear c.scope t) cs ts

theorem Clear.intact {own : Nat → Prop} (h : a.Clear s t) (hi : Intact own a b)
    (hown : ∀ u, own u → (a.vertex u).stage ≠ .done) : b.Clear s t :=
  fun name hn => ⟨(h name hn).1.intact hi, (h name hn).2.intact hi hown⟩

theorem Conditions.grown {cs : List Conjunct} {ts : List Condition} {own : Option Nat}
    (h : a.Conditions cs ts) (hg : Grown own a b)
    (hown : ∀ u, own = some u → (a.vertex u).stage ≠ .done) : b.Conditions cs ts :=
  List.Forall₂.imp (fun _ _ hc => ⟨hc.1, hc.2.grown hg hown⟩) h

theorem Conditions.intact {cs : List Conjunct} {ts : List Condition} {own : Nat → Prop}
    (h : a.Conditions cs ts) (hi : Intact own a b)
    (hown : ∀ u, own u → (a.vertex u).stage ≠ .done) :
    b.Conditions cs ts :=
  List.Forall₂.imp (fun _ _ hc => ⟨hc.1, hc.2.intact hi hown⟩) h

end Arena

namespace Eval

variable {process : Nat → Eval Unit} {a : Arena} {v : Nat} {c : Conjunct} {t : Condition}

variable (process v) in
/-- A condition narrows the vertex, and leaves its operands. -/
theorem addConjunct_condition (hc : c.source = .expr t.toExpr) (ht : a.Clear c.scope t) :
    addConjunct process v c a =
      (⟨t.operands.map fun u => { c with source := .expr u.toExpr },
        if t.operands.isEmpty then [c] else [], []⟩, a.modify v (·.meetAll t.vals)) := by
  rw [addConjunct_of_expr hc]
  cases t with
  | any => exact congrArg (Prod.mk _) (modify_eq_self rfl).symm
  | both x y => exact congrArg (Prod.mk _) (modify_eq_self rfl).symm
  | type t =>
    obtain ⟨houtside, hroot⟩ := ht t.name List.mem_cons_self
    have hresolve : (resolve process c.scope (.ident t.name)).run a =
        (.ok (.val (.constraint t.constraint)), a) := by
      show (Attempt.ofExcept (a.lookupName t.name c.scope)).run a = _
      rw [lookupName_of_outside houtside hroot t.ofTypeName?_name]
      rfl
    exact addReference_of_val hresolve
  | bound op k =>
    show addExpr process v c (.unary op.toUnary k.toExpr) a = _
    simp only [addExpr, BoundOp.ofUnary?_toUnary, run_bind, meetBound]
    rw [run_evalScalar_constant]
    rfl
  | equal k =>
    rw [← addConjunct_of_expr hc]
    exact addConjunct_constant process v hc a

theorem grown_meetAll (a : Arena) (v : Nat) (ws : List Val) :
    Grown (some v) a (a.modify v (·.meetAll ws)) :=
  grown_modify a v rfl List.prefix_rfl List.prefix_rfl fun h => absurd rfl h

variable (process) in
theorem run_conditions {cs : List Conjunct} {ts : List Condition} (h : a.Conditions cs ts)
    (hs : (a.vertex v).stage = .processing) :
    let r := cs.mapM (addConjunct process v) a
    r.2 = a.modify v (·.meetAll (ts.flatMap Condition.vals)) ∧ r.1.flatMap (·.disjunctions) = [] ∧
      r.2.Conditions (r.1.flatMap (·.next)) (ts.flatMap Condition.operands) := by
  have hown {a : Arena} (hs : (a.vertex v).stage = .processing) :
      ∀ u, some v = some u → (a.vertex u).stage ≠ .done := by
    rintro u ⟨⟩
    rw [hs]
    decide
  induction cs generalizing a ts with
  | nil => cases h; exact ⟨(modify_eq_self rfl).symm, rfl, .nil⟩
  | cons c cs ih =>
    obtain ⟨t, ts, ⟨hc, ht⟩, hcs, rfl⟩ := List.forall₂_cons_left_iff.mp h
    have hadd := addConjunct_condition process v hc ht
    let b := a.modify v (·.meetAll t.vals)
    have hlt : v < a.vertices.size := lt_size_of_stage (by rw [hs]; decide)
    have hb : b.vertex v = (a.vertex v).meetAll t.vals := vertex_modify _ hlt
    have hrest : b.Conditions cs ts := Conditions.grown hcs (grown_meetAll a v t.vals) (hown hs)
    obtain ⟨hlast, hnone, hnext⟩ := ih hrest (by rw [hb]; exact hs)
    have hall : b.modify v (·.meetAll (ts.flatMap Condition.vals)) =
        a.modify v (·.meetAll ((t :: ts).flatMap Condition.vals)) := by
      rw [modify_modify, List.flatMap_cons]
      simp only [Vertex.meetAll_append]
    rw [run_mapM_cons, hadd]
    refine ⟨hlast.trans hall, hnone, List.rel_append ?_ hnext⟩
    rw [List.forall₂_map_left_iff, List.forall₂_same]
    intro u hu
    refine ⟨rfl, Clear.grown (fun name hn => ht name ?_)
      (Eq.substr (p := Grown (some v) a) (hlast.trans hall) (grown_meetAll a v _)) (hown hs)⟩
    cases t with
    | both x y =>
      rcases List.mem_pair.mp hu with rfl | rfl
      · exact List.mem_append_left _ hn
      · exact List.mem_append_right _ hn
    | _ => cases hu

variable (process) in
/-- Rounds of conditions narrow the vertex, and leave no disjunction. -/
theorem addRounds_conditions {cs : List Conjunct} {ts : List Condition} {n rounds : Nat}
    (h : a.Conditions cs ts) (hs : (a.vertex v).stage = .processing)
    (hheight : ∀ t ∈ ts, t.height ≤ n) (hn : n ≤ rounds) :
    ∃ kept, addRounds process v rounds cs a =
      ((kept, []), a.modify v (·.meetAll (Condition.breadthFirst n ts))) := by
  induction n generalizing rounds cs ts a with
  | zero =>
    cases h with
    | nil =>
      exact ⟨[], (addRounds_nil rounds).trans (congrArg (Prod.mk _) (modify_eq_self rfl).symm)⟩
    | cons =>
      exact absurd (hheight _ List.mem_cons_self) (Nat.not_le_of_gt (Condition.height_pos _))
  | succ n ih =>
    obtain ⟨rounds, rfl⟩ : ∃ k, rounds = k + 1 := ⟨rounds - 1, by omega⟩
    have hlt : v < a.vertices.size := lt_size_of_stage (by rw [hs]; decide)
    obtain ⟨hlast, hnone, hnext⟩ := run_conditions process h hs
    rw [hlast] at hnext
    obtain ⟨kept, hrest⟩ := ih hnext (by rw [vertex_modify _ hlt]; exact hs)
      (Condition.height_operands hheight) (Nat.le_of_succ_le_succ hn)
    refine ⟨(cs.mapM (addConjunct process v) a).1.flatMap (·.kept) ++ kept, ?_⟩
    rw [addRounds_succ]
    dsimp only
    rw [hlast, hrest, hnone, modify_modify]
    simp only [Condition.breadthFirst, Vertex.meetAll_append, List.append_nil]

/-! ## Processing -/

theorem maxDepth_le_roundLimit (a : Arena) : maxDepth ≤ roundLimit a :=
  Nat.le_trans (by decide : maxDepth ≤ 1 <<< 40) (Nat.le_mul_of_pos_right _ (Nat.succ_pos _))

variable {parent : Option Nat} {paths : List Path} {cs : List Conjunct} {ts : List Condition}

/-- A vertex with conditions alone is narrowed by them. -/
theorem processAt_conditions (left : Nat) {copied : List Nat} (hlt : v < a.vertices.size)
    (hv : a.vertex v = { Vertex.fresh parent paths cs with copied := copied })
    (h : a.Conditions cs ts)
    (hheight : ∀ t ∈ ts, t.height ≤ maxDepth) (hfills : a.fillSelectors paths = []) :
    processAt (left + 1) v a = ((), a.modify v fun x =>
      { x.meetAll (Condition.breadthFirst maxDepth ts) with stage := .done }) := by
  have hs : (a.vertex v).stage = .pending := by rw [hv]; rfl
  have hstart : (a.begin v).vertex v = { a.vertex v with stage := .processing } := vertex_begin hlt
  obtain ⟨kept, hrounds⟩ := addRounds_conditions (processAt left)
    (h.grown (grown_begin hs) nofun) (congrArg Vertex.stage hstart) hheight
    (maxDepth_le_roundLimit (a.begin v))
  let ws := Condition.breadthFirst maxDepth ts
  have hend : ((a.begin v).modify v (·.meetAll ws)).vertex v =
      ({ a.vertex v with stage := .processing } : Vertex).meetAll ws := by
    rw [← hstart]
    exact vertex_modify _ (by simpa using hlt)
  have hfinish : finish (processAt left) v ((a.begin v).modify v (·.meetAll ws)) =
      ((), (a.begin v).modify v (·.meetAll ws)) := by
    apply finish_of_plain
    · rw [hend, hv]; rfl
    · rw [hend, hv, ((intact_begin a v).trans (intact_modify_self _ v _)).fillSelectors]
      exact hfills
    · rw [hend, hv]; rfl
    · rw [hend, hv]; rfl
  have hunify : unifySeeds (processAt left) v (a.begin v) =
      ((), (a.begin v).modify v (·.meetAll ws)) := by
    rw [show cs = ((a.begin v).vertex v).seeds by rw [hstart, hv]; rfl] at hrounds
    exact (unifySeeds_of_addRounds hrounds).trans hfinish
  rw [processAt_of_unifySeeds hs hunify, conclude_modify_begin]
  rfl

end Eval

end SchemaMock
