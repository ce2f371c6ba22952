import SchemaMock.Proofs.Eval.Drafting

/-! # Patterns and closed structs of a draft

When a struct has been taken in, its patterns are applied to its fields, and fields that are not
known become faults. Each label is evaluated at a vertex of its own. The fields are not evaluated:
they get further seeds.
-/

namespace SchemaMock

open Arena Eval

namespace Draft

variable {d : Draft} {k : String}

theorem add_nil (d : Draft) (k : String) : d.add k [] = d := by
  simp [add]

theorem add_add (d : Draft) (k : String) (cs ds : List Conjunct) :
    (d.add k cs).add k ds = d.add k (cs ++ ds) := by
  simp only [add, mk.injEq, true_and]
  funext l
  by_cases h : l = k <;> simp [h]

theorem foldl_add {α : Type} (g : α → List Conjunct) (xs : List α) (d : Draft) (k : String) :
    xs.foldl (fun d x => d.add k (g x)) d = d.add k (xs.flatMap g) := by
  induction xs generalizing d with
  | nil => exact (d.add_nil k).symm
  | cons x xs ih => rw [List.foldl_cons, ih, add_add, List.flatMap_cons]

def extend (d : Draft) (g : String → List Conjunct) : Draft where
  names := d.names
  required := d.required
  seeds k := if k ∈ d.names then d.seeds k ++ g k else d.seeds k

theorem extend_nil (d : Draft) : (d.extend fun _ => []) = d := by
  simp [extend]

theorem foldl_add_names (g : String → List Conjunct) {ks : List String} (h : ks.Nodup) (d : Draft) :
    ks.foldl (fun d k => d.add k (g k)) d =
      { d with seeds := fun k => if k ∈ ks then d.seeds k ++ g k else d.seeds k } := by
  induction ks generalizing d with
  | nil => simp
  | cons k ks ih =>
    obtain ⟨hk, hks⟩ := List.nodup_cons.mp h
    rw [List.foldl_cons, ih hks]
    simp only [add, mk.injEq, true_and]
    funext l
    by_cases hl : l = k
    · subst hl
      simp [hk]
    · simp [hl]

end Draft

namespace Member

def label? : Member → Option Label
  | field name _ _ => some (.regular name)
  | _ => none

def isEllipsis : Member → Bool
  | ellipsis => true
  | _ => false

theorem foldl_permit (scope : Nat) (ms : List Member) (g : Group) : ms.foldl (permit scope) g =
    ⟨g.labels ++ ms.filterMap label?, g.patterns ++ (ms.filterMap pattern?).map fun q => (q.1.toExpr, scope),
      g.anything || ms.any isEllipsis⟩ := by
  induction ms generalizing g with
  | nil => simp
  | cons m ms ih =>
    rw [List.foldl_cons, ih]
    cases m <;> simp [permit, label?, pattern?, isEllipsis, List.filterMap_cons]

/-- A name is known by an ellipsis, by a field or by a pattern. -/
theorem any_knows (ms : List Member) (k : String) : ms.any (·.knows k) =
    ((ms.any isEllipsis || (ms.filterMap label?).contains (.regular k)) ||
      (ms.filterMap pattern?).any (·.1.admits (.str k))) := by
  induction ms with
  | nil => rfl
  | cons m ms ih =>
    rw [List.any_cons, ih]
    cases m with
    | field name optional t =>
      have hlabels : (field name optional t :: ms).filterMap label? = .regular name ::
          ms.filterMap label? := rfl
      have hpatterns : (field name optional t :: ms).filterMap pattern? = ms.filterMap pattern? :=
        rfl
      have hname : ((Label.regular k) == .regular name) = decide (k = name) := by
        rw [Bool.eq_iff_iff]
        simp
      rw [hlabels, hpatterns, List.contains_cons, List.any_cons, hname]
      simp only [knows, isEllipsis, Bool.false_or, Bool.or_assoc, Bool.or_left_comm]
    | pattern label t =>
      have hlabels : (pattern label t :: ms).filterMap label? = ms.filterMap label? := rfl
      have hpatterns : (pattern label t :: ms).filterMap pattern? = (label, t) ::
          ms.filterMap pattern? := rfl
      rw [hlabels, hpatterns, List.any_cons, List.any_cons]
      simp [knows, isEllipsis, Bool.or_left_comm]
    | ellipsis => simp [knows, isEllipsis]

end Member

namespace Arena

variable {a : Arena} {d : Draft} {n v : Nat} {place : String → Nat}

theorem Drafted.regularArcs (h : a.Drafted n v d place) :
    (a.vertex v).regularArcs = d.names.map fun k => (k, place k) := by
  rw [Vertex.regularArcs, h.arcs, Draft.arcs, List.filterMap_map]
  show d.names.filterMap (some ∘ fun k => (k, place k)) = _
  rw [List.filterMap_eq_map]

/-- The type names in the declarations of a struct stand for types, and their conditions do not take
too many rounds. -/
def Readable (a : Arena) (scope : Nat) (ms : List Member) : Prop :=
  ∀ m ∈ ms, ∀ t ∈ m.conditions, a.Clear scope t ∧ t.height ≤ maxDepth

variable {b : Arena} {own : Nat → Prop} {scope : Nat} {ms : List Member}

theorem Readable.extends (h : a.Readable scope ms) (hab : Extends own a b) : b.Readable scope ms :=
  fun m hm t ht => ⟨(h m hm t ht).1.intact hab Extends.not_done, (h m hm t ht).2⟩

theorem Readable.of_mem_patterns (h : a.Readable scope ms) {q : Condition × Condition}
    (hq : q ∈ ms.filterMap Member.pattern?) : a.Clear scope q.1 ∧ q.1.height ≤ maxDepth := by
  obtain ⟨m, hm, hmq⟩ := List.mem_filterMap.mp hq
  cases m with
  | pattern label t =>
    cases hmq
    exact h _ hm label List.mem_cons_self
  | _ => cases hmq

end Arena

namespace Eval

variable {a b : Arena} {d : Draft} {n v scope left : Nat} {place : String → Nat} {ms : List Member}

/-! ## Labels -/

/-- A label that is a condition matches the names that meet it. -/
theorem labelMatches_condition (left : Nat) {t : Condition} (h : a.Clear scope t)
    (hheight : t.height ≤ maxDepth) (name : String) :
    ∃ b, labelMatches (processAt (left + 1)) t.toExpr scope name a = (t.admits (.str name), b) ∧
      Extends (a.vertices.size ≤ ·) a b := by
  let q := a.vertices.size
  let c : Conjunct := .of t.toExpr scope false
  let x : Vertex := .fresh none [] [c]
  let f (x : Vertex) : Vertex :=
    { x.meetAll (Condition.breadthFirst maxDepth [t]) with stage := .done }
  let b := a.append [x]
  have hab : Intact (a.vertices.size ≤ ·) a b := intact_append _ a [x]
  have hlt : q < b.vertices.size := by
    rw [size_append]
    exact Nat.lt_succ_self _
  have hx : b.vertex q = x := vertex_append a (i := 0) (show 0 < [x].length from Nat.zero_lt_one)
  have hnew (u : Nat) (hu : a.vertices.size ≤ u) : (a.vertex u).stage ≠ .done := by
    rw [vertex_of_size_le hu]
    exact Stage.noConfusion
  have hconditions : b.Conditions [c] [t] := .cons ⟨rfl, h.intact hab hnew⟩ .nil
  have hheights : ∀ u ∈ [t], u.height ≤ maxDepth := by
    intro u hu
    rw [List.mem_singleton.mp hu]
    exact hheight
  have hprocess : processAt (left + 1) q b = ((), b.modify q f) :=
    processAt_conditions left hlt hx hconditions hheights (fillSelectors_of_hasFillsBelow
      (hasFillsBelow_eq_false_iff.mpr fun _ _ _ hpath => absurd hpath List.not_mem_nil))
  have hq : (b.modify q f).vertex q = f x := by rw [vertex_modify f hlt, hx]
  have hsettle : settle (processAt (left + 1)) q b = (q, b.modify q f) :=
    settle_of_forward hprocess (by rw [hq]; rfl)
  refine ⟨b.modify q f, ?_, (hab.trans (intact_modify b f (Nat.le_refl _))).extends hnew⟩
  show admits (processAt (left + 1)) (.str name) (maxDepth + 1) (a.add x).1 (a.add x).2 = _
  rw [add_eq_append, admits, run_bind, hsettle]
  show (if ((b.modify q f).vertex q).disjuncts.isEmpty then
    return !(((b.modify q f).vertex q).val.meet (.atom (.str name))).isBottom else _ : Eval Bool)
      (b.modify q f) = _
  rw [hq]
  refine congrArg (·, b.modify q f) ?_
  show (Condition.narrow maxDepth [t] .top).takes (.str name) = _
  rw [Condition.takes_narrow hheights, Val.takes_top]
  simp

/-- Labels are tried until one matches. -/
theorem anyM_labelMatches (left : Nat) (name : String) (qs : List (Condition × Condition))
    (h : ∀ q ∈ qs, a.Clear scope q.1 ∧ q.1.height ≤ maxDepth) :
    ∃ b, (qs.map fun q => (q.1.toExpr, scope)).anyM
        (fun q => labelMatches (processAt (left + 1)) q.1 q.2 name) a =
        (qs.any (·.1.admits (.str name)), b) ∧
      Extends (a.vertices.size ≤ ·) a b := by
  induction qs generalizing a with
  | nil => exact ⟨a, rfl, .refl _ a⟩
  | cons q qs ih =>
    obtain ⟨hclear, hheight⟩ := h q List.mem_cons_self
    obtain ⟨b, hrun, hab⟩ := labelMatches_condition left hclear hheight name
    obtain ⟨c, hruns, hbc⟩ := ih (a := b) fun r hr =>
      ⟨(h r (List.mem_cons_of_mem q hr)).1.intact hab Extends.not_done,
        (h r (List.mem_cons_of_mem q hr)).2⟩
    rw [List.map_cons, List.anyM, run_bind, hrun, List.any_cons]
    cases hq : q.1.admits (.str name) with
    | true => exact ⟨b, rfl, hab⟩
    | false => exact ⟨c, hruns, hab.trans (hbc.mono fun _ _ => Nat.le_trans hab.size)⟩

/-! ## Patterns -/

/-- Each field of a draft is visited, and gets further seeds. -/
theorem exists_extended {f : String → Nat → Eval PUnit} {g : String → List Conjunct}
    (h : a.Drafted n v d place)
    (hf : ∀ k ∈ d.names, ∀ b d', b.Drafted n v d' place → d'.names = d.names → Extends (n ≤ ·) a b →
      ∃ e, f k (place k) b = ((), e) ∧ e.Drafted n v (d'.add k (g k)) place ∧ Extends (n ≤ ·) b e) :
    ∃ e, (a.vertex v).regularArcs.forM (fun r => f r.1 r.2) a = ((), e) ∧
      e.Drafted n v (d.extend g) place ∧ Extends (n ≤ ·) a e := by
  obtain ⟨e, hrun, he, hae⟩ :=
    exists_visited (f := fun r => f r.1 r.2) (fun d r => d.add r.1 (g r.1))
    (fun _ _ => rfl) (a.vertex v).regularArcs h
    (by
      rw [h.regularArcs, List.forall_mem_map]
      exact hf)
  refine ⟨e, hrun, ?_, hae⟩
  rwa [h.regularArcs, List.foldl_map, Draft.foldl_add_names g h.nodup] at he

theorem exists_seeded (h : a.Drafted n v d place) {k : String} (hk : k ∈ d.names) (c : Conjunct) :
    ∃ e, addSeed (place k) c a = ((), e) ∧ e.Drafted n v (d.add k [c]) place ∧
      Extends (n ≤ ·) a e := by
  have hstage : (a.vertex (place k)).stage ≠ .done := by
    rw [h.pending hk]
    exact Stage.noConfusion
  exact ⟨_, rfl, h.add hk [c],
    ((intact_modify_self a _ _).extends_self hstage).mono fun u _ hu => hu ▸ (h.range k hk).1⟩

/-- What is evaluated at new vertices leaves a draft as it is. -/
theorem drafted_of_new (h : a.Drafted n v d place) (hab : Extends (a.vertices.size ≤ ·) a b) :
    b.Drafted n v d place ∧ Extends (n ≤ ·) a b := by
  constructor
  · exact h.intact hab (fun hv => Nat.not_le_of_lt h.lt_size hv.1) fun k hk hle =>
      Nat.not_le_of_lt (h.range k hk).2 hle.1
  · exact hab.mono fun u _ hu => Nat.le_trans h.le hu

theorem flatMap_ofPattern (ms : List Member) (k : String) : ms.flatMap (·.ofPattern k) =
    (ms.filterMap Member.pattern?).flatMap fun q => if q.1.admits (.str k) then [q.2] else [] := by
  induction ms with
  | nil => rfl
  | cons m ms ih =>
    rw [List.flatMap_cons, ih]
    cases m <;> rfl

def applyPattern (process : Nat → Eval Unit) (k : String) (w : Nat) (p : Pattern) : Eval Unit := do
  if ← labelMatches process p.label p.scope k then addSeed w (.of p.value p.scope p.closed)

/-- What a pattern of a struct adds to the field of a name. -/
def patternSeed (scope : Nat) (closed : Bool) (k : String) (q : Condition × Condition) :
    List Conjunct :=
  if q.1.admits (.str k) then [.of q.2.toExpr scope closed] else []

/-- A field whose name the label matches gets a further seed. -/
theorem exists_applied (left : Nat) (closed : Bool) (h : a.Drafted n v d place) {k : String}
    (hk : k ∈ d.names) {q : Condition × Condition} (hclear : a.Clear scope q.1)
    (hheight : q.1.height ≤ maxDepth) :
    ∃ e, applyPattern (processAt (left + 1)) k (place k) (Member.toPattern scope closed q) a =
      ((), e) ∧
      e.Drafted n v (d.add k (patternSeed scope closed k q)) place ∧ Extends (n ≤ ·) a e := by
  obtain ⟨b, hrun, hab⟩ := labelMatches_condition left hclear hheight k
  obtain ⟨hb, hab⟩ := drafted_of_new h hab
  let p := Member.toPattern scope closed q
  have hrun : labelMatches (processAt (left + 1)) p.label p.scope k a = (q.1.admits (.str k), b) :=
    hrun
  rw [applyPattern, run_bind, hrun, patternSeed]
  cases q.1.admits (.str k) with
  | true =>
    obtain ⟨e, hseed, he, hbe⟩ := exists_seeded hb hk (.of q.2.toExpr scope closed)
    exact ⟨e, hseed, he, hab.trans hbe⟩
  | false =>
    refine ⟨b, rfl, ?_, hab⟩
    rw [if_neg Bool.false_ne_true, Draft.add_nil]
    exact hb

def patternSeeds (scope : Nat) (closed : Bool) (ms : List Member) (k : String) : List Conjunct :=
  (ms.flatMap (·.ofPattern k)).map fun t => .of t.toExpr scope closed

theorem flatMap_patternSeed (scope : Nat) (closed : Bool) (ms : List Member) (k : String) :
    (ms.filterMap Member.pattern?).flatMap (patternSeed scope closed k) =
      patternSeeds scope closed ms k := by
  rw [patternSeeds, flatMap_ofPattern, List.map_flatMap]
  refine congrArg (List.flatMap · _) (funext fun q => ?_)
  rw [patternSeed]
  split <;> rfl

/-- What the patterns for its name say is declared for each field. -/
theorem exists_patterned (left : Nat) {closed : Bool} (h : a.Drafted n v d place)
    (hpatterns : (a.vertex v).patterns = (ms.filterMap Member.pattern?).map (Member.toPattern scope closed))
    (hms : a.Readable scope ms) :
    ∃ e, applyPatterns (processAt (left + 1)) v a = ((), e) ∧
      e.Drafted n v (d.extend (patternSeeds scope closed ms)) place ∧ Extends (n ≤ ·) a e := by
  let qs := ms.filterMap Member.pattern?
  let visit (k : String) (w : Nat) : Eval PUnit :=
    (qs.map (Member.toPattern scope closed)).forM (applyPattern (processAt (left + 1)) k w)
  have hrun : applyPatterns (processAt (left + 1)) v a =
      (if !(a.vertex v).patterns.isEmpty then (a.vertex v).regularArcs.forM fun r =>
        (a.vertex v).patterns.forM (applyPattern (processAt (left + 1)) r.1 r.2) else pure () :
          Eval Unit) a := rfl
  have hvisits : ∃ e, (a.vertex v).regularArcs.forM (fun r => visit r.1 r.2) a = ((), e) ∧
      e.Drafted n v (d.extend (patternSeeds scope closed ms)) place ∧ Extends (n ≤ ·) a e := by
    apply exists_extended h
    intro k hk b d' hb hnames hab
    have hmap : visit k (place k) =
        qs.forM fun q =>
          applyPattern (processAt (left + 1)) k (place k) (Member.toPattern scope closed q) :=
      List.forM_map
    rw [hmap, ← flatMap_patternSeed, ← Draft.foldl_add]
    apply exists_visited (fun d q => d.add k (patternSeed scope closed k q)) (fun _ _ => rfl) qs hb
    intro q hq c d'' hc hnames' hbc
    obtain ⟨hclear, hheight⟩ := (hms.extends (hab.trans hbc)).of_mem_patterns hq
    exact exists_applied left closed hc (by rw [hnames', hnames]; exact hk) hclear hheight
  rw [hrun, hpatterns]
  cases hqs : ms.filterMap Member.pattern? with
  | nil =>
    have hnone : patternSeeds scope closed ms = fun _ => [] := by
      funext k
      rw [← flatMap_patternSeed, hqs]
      rfl
    rw [hnone, Draft.extend_nil]
    exact ⟨a, rfl, h, .refl _ a⟩
  | cons q rest =>
    rw [if_pos (show (!((q :: rest).map (Member.toPattern scope closed)).isEmpty) = true from rfl),
      ← hqs]
    exact hvisits

/-! ## Closed structs -/

/-- The group of a struct admits the names that its declarations know. -/
theorem groupAdmits_group (left : Nat) (hms : a.Readable scope ms) (name : String) :
    ∃ b, groupAdmits (processAt (left + 1)) name (Member.group scope ms) a =
      (ms.any (·.knows name), b) ∧ Extends (a.vertices.size ≤ ·) a b := by
  obtain ⟨b, hrun, hab⟩ :=
    anyM_labelMatches left name (ms.filterMap Member.pattern?) fun q hq => hms.of_mem_patterns hq
  have hgroup : Member.group scope ms = ⟨ms.filterMap Member.label?,
      (ms.filterMap Member.pattern?).map fun q => (q.1.toExpr, scope),
      ms.any Member.isEllipsis⟩ := by
    simp [Member.group, Member.foldl_permit]
  rw [Member.any_knows, groupAdmits, hgroup]
  cases ms.any Member.isEllipsis || (ms.filterMap Member.label?).contains (.regular name) with
  | true => exact ⟨a, rfl, .refl _ a⟩
  | false => exact ⟨b, hrun, hab⟩

def closedSeeds (ms : List Member) (k : String) : List Conjunct :=
  if ms.any (·.knows k) then [] else [⟨.fault (.of (.fieldNotAllowed k)), plainScope, false, none⟩]

theorem exists_closed (left : Nat) (h : a.Drafted n v d place)
    (hgroups : (a.vertex v).groups = [Member.group scope ms]) (hms : a.Readable scope ms) :
    ∃ e, checkClosed (processAt (left + 1)) v a = ((), e) ∧
      e.Drafted n v (d.extend (closedSeeds ms)) place ∧ Extends (n ≤ ·) a e := by
  let visit (k : String) (w : Nat) : Eval PUnit := do
    if !(← [Member.group scope ms].allM (groupAdmits (processAt (left + 1)) k)) then
      addSeed w ⟨.fault (.of (.fieldNotAllowed k)), plainScope, false, none⟩
  have hrun : checkClosed (processAt (left + 1)) v a =
      (if !(a.vertex v).groups.isEmpty then (a.vertex v).regularArcs.forM fun r => do
        if !(← (a.vertex v).groups.allM (groupAdmits (processAt (left + 1)) r.1)) then
          addSeed r.2 ⟨.fault (.of (.fieldNotAllowed r.1)), plainScope, false, none⟩
      else pure () : Eval Unit) a := rfl
  have hvisits : ∃ e, (a.vertex v).regularArcs.forM (fun r => visit r.1 r.2) a = ((), e) ∧
      e.Drafted n v (d.extend (closedSeeds ms)) place ∧ Extends (n ≤ ·) a e := by
    apply exists_extended h
    intro k hk b d' hb hnames hab
    obtain ⟨c, hadmits, hbc⟩ := groupAdmits_group left (hms.extends hab) k
    obtain ⟨hc, hbc⟩ := drafted_of_new hb hbc
    have hall : [Member.group scope ms].allM (groupAdmits (processAt (left + 1)) k) b =
        (ms.any (·.knows k), c) := by
      rw [List.allM, run_bind, hadmits]
      cases ms.any (·.knows k) <;> rfl
    let fault : Conjunct := ⟨.fault (.of (.fieldNotAllowed k)), plainScope, false, none⟩
    have hvisit : visit k (place k) b =
        (if !ms.any (·.knows k) then addSeed (place k) fault else pure ()) c := by
      show ([Member.group scope ms].allM (groupAdmits (processAt (left + 1)) k) >>= fun r =>
        if !r then addSeed (place k) fault else pure () : Eval PUnit) b = _
      rw [run_bind, hall]
    rw [hvisit, closedSeeds]
    cases ms.any (·.knows k) with
    | true =>
      refine ⟨c, rfl, ?_, hbc⟩
      rw [if_pos rfl, Draft.add_nil]
      exact hc
    | false =>
      obtain ⟨e, hseed, he, hce⟩ := exists_seeded hc (hnames ▸ hk) fault
      exact ⟨e, hseed, he, hbc.trans hce⟩
  rw [hrun, hgroups]
  exact hvisits

/-- A closed struct that has been taken in is finished by its patterns and by the check of its
fields. -/
theorem exists_finished (left : Nat) {closed : Bool} (h : a.Drafted n v d place)
    (hval : (a.vertex v).val.isBottom = false) (hlists : (a.vertex v).lists = [])
    (hpatterns : (a.vertex v).patterns = (ms.filterMap Member.pattern?).map (Member.toPattern scope closed))
    (hgroups : (a.vertex v).groups = [Member.group scope ms]) (hms : a.Readable scope ms) :
    ∃ e, finish (processAt (left + 1)) v a = ((), e) ∧
      e.Drafted n v ((d.extend (patternSeeds scope closed ms)).extend (closedSeeds ms)) place ∧
      Extends (n ≤ ·) a e := by
  obtain ⟨b, hrun, hb, hab⟩ := exists_patterned left h hpatterns hms
  have hvertex := vertex_of_extends h hab
  obtain ⟨e, hcheck, he, hbe⟩ := exists_closed left hb (by rw [hvertex, hgroups]) (hms.extends hab)
  refine ⟨e, ?_, he, hab.trans hbe⟩
  rw [finish_of_lists_eq_nil hval hlists (fillSelectors_of_hasFillsBelow h.below), hrun, hcheck]

end Eval

end SchemaMock
