import SchemaMock.Proofs.Echo.Trial

/-! # What the vertex of a function settles to

If nothing is wrong with the conditions of a function, the single overload stays. Where arguments
were held back, it is laid out once more with them. Otherwise neither alternative is left, and the
vertex is bottom.
-/

namespace SchemaMock

open Arena Eval

namespace Site

variable {s : Site} {a b : Arena} {v : Nat} {args : List Json} {paths : List Path}

theorem Decides.exists_tries (levels : Nat) (h : s.Decides a v)
    (hfed : Echo.Fed a (a.vertex v).paths s.conditions.length []) :
    ∃ b survivors failures e, tryChoices (processAt (levels + 2)) v s.structs [s.alternatives]
        [[⟨s.reference, false⟩], [⟨s.overloads, false⟩]] a = ((survivors, failures), b) ∧
      Intact (fun _ => False) a b ∧ s.Holds [] e b ∧ e.vertex = a.vertices.size ∧ e.Complete b ∧
      (s.Flawed [] → survivors = []) ∧
      (¬ s.Flawed [] → survivors = [⟨s.structs ++ [s.reference], e.vertex, true⟩]) := by
  obtain ⟨b, found, e, htry, hab, hfound, hholds, hvertex, hcomplete⟩ := h.exists_tried levels hfed
  obtain ⟨c, f, fs, hrefused, hbc⟩ := (h.intact hab).exists_refused (levels + 1)
  have hbc' : Extends (fun _ => False) b c := hbc.extends nofun
  have hdefault : isDefaultChoice [s.alternatives] [⟨s.reference, false⟩] = true := rfl
  refine ⟨c, (if found.isEmpty then [⟨s.structs ++ [s.reference], a.vertices.size, true⟩] else []) ++ [],
    found ++ ((f :: fs) ++ []), e, ?_, hab.trans hbc,
    hholds.extends hbc', hvertex, hcomplete.extends hbc' nofun, ?_, ?_⟩
  · have hfirst : s.structs ++ [(⟨s.reference, false⟩ : Alternative)].map (·.conjunct) =
      s.structs ++ [s.reference] := rfl
    have hsecond : s.structs ++ [(⟨s.overloads, false⟩ : Alternative)].map (·.conjunct) =
      s.structs ++ [s.overloads] := rfl
    rw [run_tryChoices]
    dsimp only
    rw [hfirst, htry, hdefault, run_tryChoices]
    dsimp only
    rw [hsecond, hrefused]
    rfl
  · intro hflawed
    have hne : found ≠ [] := fun hnil => hfound.mp hnil hflawed
    simp [hne]
  · intro hsound
    rw [hfound.mpr hsound, hvertex]
    rfl

/-- The function that stands in for a vertex, and may be looked at. -/
structure Stood (s : Site) (args : List Json) (a : Arena) (v : Nat) (e : Echo) : Prop where
  forward : (a.vertex v).forward = some e.vertex
  after : v < e.vertex
  holds : s.Holds args e a
  walkable : e.Walkable a

/-- The end of the turn of the vertex itself leaves the function as it is. -/
theorem Stood.conclude {e : Echo} (h : s.Stood args a v e) (hs : (a.vertex v).stage = .processing) :
    s.Stood args (a.conclude v) v e := by
  have hlast : (a.conclude v).vertex v = { a.vertex v with stage := .done } :=
    vertex_conclude (lt_size_of_stage (by rw [hs]; decide))
  have hend : Extends (· = v) a (a.conclude v) :=
    (intact_conclude a v).extends_self (by rw [hs]; decide)
  refine ⟨by rw [hlast]; exact h.forward, h.after, h.holds.extends hend, h.walkable.extends hend ?_⟩
  rintro u rfl
  exact Nat.lt_trans h.after h.holds.formed.lt

/-- Without fills below, the stand-in that was tried stays. -/
theorem Decides.forwardTo_tried {e : Echo} {t : Survivor} (left : Nat) (h : s.Decides a v)
    (hbelow : a.hasFillsBelow (a.vertex v).paths = false) (hholds : s.Holds [] e a)
    (hlt : v < e.vertex) (hcomplete : e.Complete a) (hsound : ¬ s.Flawed [])
    (ht : t.vertex = e.vertex) :
    ∃ b, forwardTo (processAt left) v t a = ((), b) ∧ Intact (· = v) a b ∧
      (b.vertex v).stage = .processing ∧ s.Stood [] b v e := by
  let b := a.forwarding v (some t.vertex)
  have hab : Intact (· = v) a b := intact_modify_self a v _
  have hext : Extends (· = v) a b := hab.extends_self (by rw [h.stage]; decide)
  have hv : b.vertex v = { a.vertex v with forward := some t.vertex } := vertex_modify _ h.lt
  have hindexes : ∀ i < e.conditions.length, Echo.Indexes i := fun i hi => by
    by_contra hno
    exact hsound ⟨i, by rw [List.mem_range, ← hholds.conditions]; exact hi, .inl hno⟩
  refine ⟨b, forwardTo_of_done hbelow ?_ ?_, hab, by rw [hv]; exact h.stage, ?_, hlt,
    hholds.extends hext, .inr ⟨hcomplete.extends hext ?_, hholds.args, hindexes⟩⟩
  · rw [ht]
    exact Nat.ne_of_gt hlt
  · rw [ht, hholds.formed.stage]
    decide
  · rw [hv, ht]
  · rintro u rfl
    exact Nat.lt_trans hlt hholds.formed.lt

/-- With fills below, the function is laid out once more. -/
theorem Decides.forwardTo_anew {t : Survivor} (left : Nat) (h : s.Decides a v)
    (hbelow : a.hasFillsBelow (a.vertex v).paths = true)
    (hfed : Echo.Fed a (a.vertex v).paths s.conditions.length args)
    (ht : t.seeds = s.structs ++ [s.reference]) :
    ∃ b e, forwardTo (processAt (left + 1)) v t a = ((), b) ∧ Intact (· = v) a b ∧
      (b.vertex v).stage = .processing ∧ s.Stood args b v e := by
  obtain ⟨b, e, hrun, hab, hholds, hvertex, -, hpristine⟩ := h.exists_formed left hfed
  have hlt := h.lt
  have hstart := intact_standing a v (s.structs ++ [s.reference])
  have hv : b.vertex v = { a.vertex v with forward := some a.vertices.size } := by
    have hstanding : (standing a v (s.structs ++ [s.reference])).vertex v = _ :=
      vertex_modify _ (show v < (a.append _).vertices.size by simp; omega)
    rw [hab.vertex (Nat.lt_of_lt_of_le hlt hstart.size) (Nat.not_le_of_gt hlt), hstanding,
      vertex_append_of_lt _ hlt]
  refine ⟨b, e, ?_, hstart.trans_new hab, by rw [hv]; exact h.stage, by rw [hv, hvertex],
    by rw [hvertex]; exact hlt, hholds, .inl hpristine⟩
  rw [forwardTo_of_fills hbelow, ht]
  exact hrun

structure Decided (s : Site) (args : List Json) (stage : Stage) (a : Arena) (v : Nat) : Prop where
  stage : (a.vertex v).stage = stage
  flawed : s.Flawed [] → (a.vertex v).forward = none ∧ ∃ f, (a.vertex v).val = .bottom f
  sound : ¬ s.Flawed [] → ∃ e, s.Stood args a v e

theorem narrow_default (process : Nat → Eval Unit) {t : Survivor} (ht : t.default = true) :
    narrow process [t] a = ([t], a) := by
  obtain ⟨seeds, w, _⟩ := t
  obtain rfl : _ = true := ht
  rfl

theorem Decides.exists_decided (levels : Nat) (h : s.Decides a v)
    (hfed : Echo.Fed a (a.vertex v).paths s.conditions.length args)
    (hnone : a.hasFillsBelow (a.vertex v).paths = false → args = []) :
    ∃ b, decideChoice (processAt (levels + 2)) v s.structs [s.alternatives] a = ((), b) ∧
      Intact (· = v) a b ∧ s.Decided args .processing b v := by
  let ps := (a.vertex v).paths
  obtain ⟨b, survivors, failures, e, htries, hpb, hholds, hvertex, hcomplete, hflawed, hsound⟩ :=
    (h.withhold ps).exists_tries levels hfed.withhold
  let c : Arena := { b with withheld := a.withheld }
  have hac : Intact (fun _ => False) a c := hpb.released
  have hcv : c.vertex v = a.vertex v := hac.vertex h.lt not_false
  have hac' : Intact (· = v) a c := hac.mono fun _ _ => False.elim
  have hdecides := h.intact hac
  have hcomb :
      combinations [s.alternatives] = some [[⟨s.reference, false⟩], [⟨s.overloads, false⟩]] :=
    combinations_single (by decide : 2 ≤ maxCombinations)
  rw [decideChoice_of_tries hcomb htries (rfl : _ = c)]
  by_cases hwrong : s.Flawed []
  · rw [hflawed hwrong]
    have hlast : (c.modify v (·.meet (.bottom ⟨.noAlternative, "", failures⟩))).vertex v = _ :=
      vertex_modify _ hdecides.lt
    rw [hcv] at hlast
    refine ⟨_, rfl, hac'.trans (intact_modify_self c v _), by rw [hlast]; exact h.stage, fun _ => ?_,
      fun hno => absurd hwrong hno⟩
    rw [hlast]
    refine ⟨h.forward, ?_⟩
    show ∃ f, (a.vertex v).val.meet (.bottom _) = .bottom f
    cases (a.vertex v).val <;> exact ⟨_, rfl⟩
  · rw [hsound hwrong, List.isEmpty_cons, if_neg Bool.false_ne_true, narrow_default _ rfl]
    cases hbelow : a.hasFillsBelow ps with
    | false =>
      have hbc : Extends (fun _ => False) b c := (hpb.release hbelow _).extends nofun
      obtain ⟨d, hrun, hcd, hstage, hstood⟩ := hdecides.forwardTo_tried (levels + 2)
        (t := ⟨s.structs ++ [s.reference], e.vertex, true⟩)
        (by rw [hcv, hac.hasFillsBelow]; exact hbelow)
        (hholds.extends hbc) (by rw [hvertex]; exact h.lt)
        (hcomplete.extends hbc nofun) hwrong rfl
      rw [hnone hbelow]
      exact ⟨d, hrun, hac'.trans hcd, hstage, fun hno => absurd hno hwrong, fun _ => ⟨e, hstood⟩⟩
    | true =>
      obtain ⟨d, e', hrun, hcd, hstage, hstood⟩ := hdecides.forwardTo_anew (levels + 1)
        (t := ⟨s.structs ++ [s.reference], e.vertex, true⟩)
        (by rw [hcv, hac.hasFillsBelow]; exact hbelow)
        (by rw [hcv]; exact hfed.intact hac) rfl
      exact ⟨d, hrun, hac'.trans hcd, hstage, fun hno => absurd hno hwrong, fun _ => ⟨e', hstood⟩⟩

theorem exists_processed (levels : Nat) (h : s.Stands a) (hlt : v < a.vertices.size)
    (hparent : s.parent < v) (hne : s.definition ≠ v)
    (hv : a.vertex v = .fresh (some s.parent) paths s.seeds)
    (hvisible :
      ((paths ++ a.furtherPaths v [s.path]).head?.map Path.hasDefinition).getD false = false)
    (hfed : Echo.Fed a (paths ++ a.furtherPaths v [s.path]) s.conditions.length args)
    (hnone : a.hasFillsBelow (paths ++ a.furtherPaths v [s.path]) = false → args = []) :
    ∃ b, processAt (levels + 3) v a = ((), b) ∧ Extends (· = v) a b ∧ s.Decided args .done b v := by
  let c := a.begin v
  have hpending : (a.vertex v).stage = .pending := by rw [hv]; rfl
  have hstart : c.vertex v = { a.vertex v with stage := .processing } := vertex_begin hlt
  have hac : Extends (· = v) a c := (intact_begin a v).extends_self (by rw [hpending]; decide)
  have hfurther : c.furtherPaths v [s.path] = a.furtherPaths v [s.path] := by
    simp only [furtherPaths, hstart]
    rfl
  have hltc : v < c.vertices.size := Nat.lt_of_lt_of_le hlt hac.size
  have hcv :
      c.vertex v = { Vertex.fresh (some s.parent) paths s.seeds with stage := .processing } := by
    rw [hstart, hv]
  have hstands := h.extends hac hne
  obtain ⟨d, hrounds, hcd, hdv⟩ := exists_rounds (processAt (levels + 2)) hstands hltc hne hcv
  have hcd' : Extends (· = v) c d := hcd.extends_self (by rw [hcv]; exact Stage.noConfusion)
  have had := hac.trans hcd'
  have hpaths : (d.vertex v).paths = paths ++ a.furtherPaths v [s.path] := by rw [hdv, hfurther]
  have hdecides : s.Decides d v := by
    refine ⟨hstands.extends hcd' hne, hparent, hne, ?_, ?_, ?_, ?_, ?_⟩
    · rw [hdv, hcv]
    · rw [hdv, hcv]; rfl
    · rw [hdv, hcv]; rfl
    · rw [hdv]
    · rw [hpaths]; exact hvisible
  obtain ⟨e, hdecide, hde, hdecided⟩ := hdecides.exists_decided levels
    (by rw [hpaths]; exact hfed.intact had) (by rw [hpaths, had.hasFillsBelow]; exact hnone)
  have hseeds : (c.vertex v).seeds = s.seeds := by rw [hcv]; rfl
  have hunify : unifySeeds (processAt (levels + 2)) v c = ((), e) := by
    rw [← hseeds] at hrounds
    rw [unifySeeds_of_disjunctions hrounds (List.cons_ne_nil _ _) (by rw [hdv]; rfl), hdecide]
  have hlte : v < e.vertices.size := Nat.lt_of_lt_of_le hdecides.lt hde.size
  have hlast : (e.conclude v).vertex v = { e.vertex v with stage := .done } := vertex_conclude hlte
  have hend : Extends (· = v) e (e.conclude v) :=
    (intact_conclude e v).extends_self (by rw [hdecided.stage]; decide)
  refine ⟨e.conclude v, processAt_of_unifySeeds hpending hunify,
    (had.trans (hde.extends_self (by rw [hdecides.stage]; decide))).trans hend, by rw [hlast],
    fun hwrong => ?_, fun hsound => ?_⟩
  · rw [hlast]
    exact hdecided.flawed hwrong
  · obtain ⟨f, hstood⟩ := hdecided.sound hsound
    exact ⟨f, hstood.conclude hdecided.stage⟩

end Site

end SchemaMock
