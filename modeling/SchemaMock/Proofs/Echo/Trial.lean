import SchemaMock.Proofs.Echo.Decision
import SchemaMock.Proofs.Eval.Withholding

/-! # Trying one overload and several

While the disjunction of a function is decided, its arguments are held back. A single overload is
tried at a stand-in and validated there. A list is tried at another one, and contradicts the
structs.
-/

namespace SchemaMock

open Arena Eval

namespace Echo

variable {e : Echo} {a b : Arena} {own : Nat → Prop} {paths : List Path} {n : Nat}
  {args : List Json}

/-- Seen from a function whose fills are held back, there are no arguments. -/
theorem Fed.withhold (h : Fed a paths n args) : Fed (a.withhold paths) paths n [] := by
  have hlabel (l : Label) : ∀ q ∈ paths.map (·.child (.label l)), ∃ p ∈ paths,
      p.length < q.length ∧ q.startsWith p = true := by
    rw [List.forall_mem_map]
    exact fun p hp => ⟨p, hp, by rw [Path.length_child]; exact Nat.lt_succ_self _, p.startsWith_child _⟩
  refine ⟨?_, fun l => fillsAt_withhold (hlabel l), ?_, fun i _ => ?_, h.ends, h.apart⟩
  · rw [fillSelectors_withhold fun p hp => ⟨p, hp, Path.startsWith_iff.mpr List.prefix_rfl⟩]
    exact List.forall_mem_nil _
  · rw [fillSelectors_withhold fun q hq => (hlabel _ q hq).imp fun p hp => ⟨hp.1, hp.2.2⟩]
    exact List.forall_mem_nil _
  · refine fillsAt_withhold ?_
    rw [List.forall_mem_map]
    intro q hq
    obtain ⟨p, hp, hlt, hstarts⟩ := hlabel _ q hq
    exact ⟨p, hp, by rw [Path.length_child]; exact Nat.lt_succ_of_lt hlt,
      Path.startsWith_trans (q.startsWith_child _) hstarts⟩

/-- What has been looked at of a function stays when vertices before its parts change. -/
theorem Complete.extends (h : e.Complete a) (hi : Extends own a b)
    (hown : ∀ u, own u → u < e.first) : e.Complete b := by
  obtain ⟨hargs, ⟨m, hm⟩, w, hw⟩ := h
  refine ⟨?_, ⟨m, hm.extends hi ?_ fun i hi' ho => ?_⟩, w, hw.extends hi⟩
  · rw [hi.vertex_of_done hargs]
    exact hargs
  · refine hm.args.imp (fun hu => hu.extends hi fun ho => Nat.lt_irrefl _ (hown _ ho)) ?_
    rintro ⟨n, hn, hdistinct⟩
    refine ⟨n, hn.extends hi fun i hi' ho => ?_, hdistinct⟩
    have := (hn.argument hi').after
    have := hown _ ho
    omega
  · have := (hm.result hi').after
    have := hown _ ho
    omega

theorem Pristine.extends (h : e.Pristine a) (hi : Extends own a b)
    (hown : ∀ u, own u → u < e.first) : e.Pristine b where
  args := h.args.extends hi fun ho => Nat.lt_irrefl _ (hown _ ho)
  results := h.results.extends hi fun ho => Nat.not_lt_of_le (Nat.le_succ _) (hown _ ho)
  limit := h.limit.extends hi fun ho => Nat.not_lt_of_le (Nat.le_add_right _ 2) (hown _ ho)

theorem Walkable.extends (h : e.Walkable a) (hi : Extends own a b)
    (hown : ∀ u, own u → u < e.first) : e.Walkable b :=
  Or.imp (fun hp => hp.extends hi hown) (fun ⟨hc, hrest⟩ => ⟨hc.extends hi hown, hrest⟩) h

end Echo

namespace Site

variable {s : Site} {a b : Arena} {v w : Nat} {args : List Json}

variable (s) in
/-- Something is wrong with the conditions of a function, or with the data for them: there is a
position that no list has, or a condition that rules out its argument or can never be met. -/
def Flawed (args : List Json) : Prop :=
  ∃ i ∈ List.range s.conditions.length, ¬ Echo.Indexes i ∨
    ∃ t ∈ s.conditions[i]?, Condition.ruleOut [t, .any] args[i]? = true

theorem Stands.withhold (h : s.Stands a) (ps : List Path) : s.Stands (a.withhold ps) :=
  { h with
    declared := h.declared.withhold ps
    pattern := h.pattern.withhold ps
    apart := fun t ht => (h.apart t ht).withhold ps
    clear := fun t ht => (h.clear t ht).grown (grown_withhold a ps) nofun
    count := h.count.grown (grown_withhold a ps) nofun }

/-- The vertex of a function, when its rounds have ended. -/
structure Decides (s : Site) (a : Arena) (v : Nat) : Prop where
  stands : s.Stands a
  after : s.parent < v
  apart : s.definition ≠ v
  stage : (a.vertex v).stage = .processing
  forward : (a.vertex v).forward = none
  parent : (a.vertex v).parent = some s.parent
  copied : (a.vertex v).copied = [s.definition]
  visible : ((a.vertex v).paths.head?.map Path.hasDefinition).getD false = false

theorem Decides.lt (h : s.Decides a v) : v < a.vertices.size :=
  lt_size_of_stage (by rw [h.stage]; decide)

theorem Decides.withhold (h : s.Decides a v) (ps : List Path) : s.Decides (a.withhold ps) v :=
  { h with stands := h.stands.withhold ps }

theorem Decides.intact (h : s.Decides a v) (hi : Intact (fun _ => False) a b) : s.Decides b v := by
  have hsame : b.vertex v = a.vertex v := hi.vertex h.lt not_false
  refine ⟨h.stands.extends (hi.extends nofun) not_false, h.after, h.apart, ?_, ?_, ?_, ?_, ?_⟩
  all_goals rw [hsame]
  exacts [h.stage, h.forward, h.parent, h.copied, h.visible]

/-- A function, as it is laid out for some data. -/
structure Holds (s : Site) (args : List Json) (e : Echo) (a : Arena) : Prop where
  conditions : e.conditions = s.conditions
  args : e.args = args
  formed : e.Formed a

theorem Holds.extends {own : Nat → Prop} {e : Echo} (h : s.Holds args e a) (hi : Extends own a b) :
    s.Holds args e b := ⟨h.conditions, h.args, h.formed.extends hi⟩

theorem structs_fields (s : Site) : List.Forall₂ Conjunct.IsFields s.structs s.parts :=
  .cons ⟨rfl, rfl, rfl, rfl⟩ (.cons ⟨rfl, rfl, rfl, rfl⟩ .nil)

def standing (a : Arena) (v : Nat) (seeds : List Conjunct) : Arena :=
  (a.append [(a.vertex v).standIn seeds]).forwarding v (some a.vertices.size)

theorem intact_standing (a : Arena) (v : Nat) (seeds : List Conjunct) :
    Intact (· = v) a (standing a v seeds) :=
  (intact_append _ a _).trans (intact_modify_self _ v _)

theorem Decides.vertex_standing (h : s.Decides a v) (seeds : List Conjunct) :
    (standing a v seeds).vertex a.vertices.size = s.standIn (a.vertex v).paths seeds := by
  have hne : a.vertices.size ≠ v := Nat.ne_of_gt h.lt
  rw [show (standing a v seeds).vertex a.vertices.size = _ from vertex_modify_of_ne _ _ hne,
    show (a.append [(a.vertex v).standIn seeds]).vertex a.vertices.size = _ from
      vertex_append a (show 0 < [(a.vertex v).standIn seeds].length from Nat.one_pos)]
  simp [Vertex.standIn, standIn, h.parent, h.copied]

/-- A stand-in with the structs and the reference becomes the function. -/
theorem Decides.exists_formed (left : Nat) (h : s.Decides a v)
    (hfed : Echo.Fed a (a.vertex v).paths s.conditions.length args) :
    ∃ b e, processAt (left + 1) a.vertices.size (standing a v (s.structs ++ [s.reference])) =
        ((), b) ∧
      Intact (a.vertices.size ≤ ·) (standing a v (s.structs ++ [s.reference])) b ∧
      s.Holds args e b ∧
      e.vertex = a.vertices.size ∧ e.first = a.vertices.size + 1 ∧ e.Pristine b := by
  let b := standing a v (s.structs ++ [s.reference])
  have hab : Intact (· = v) a b := intact_standing a v _
  have hsize : b.vertices.size = a.vertices.size + 1 := by simp [b, standing, forwarding]
  have hw := h.vertex_standing (s.structs ++ [s.reference])
  have hlt := h.lt
  have hvisible :
      ((b.vertex a.vertices.size).paths.head?.map Path.hasDefinition).getD false = false := by
    rw [hw]
    exact h.visible
  have hstands : s.Stands b :=
    h.stands.extends (hab.extends_self (by rw [h.stage]; decide)) h.apart
  have := h.stands.lt
  obtain ⟨c, hrun, hbc, hformed, hpristine⟩ := Site.exists_formed left hstands (by omega)
    (Nat.lt_trans h.after hlt) (by omega) hw (hfed.intact hab) hvisible
  exact ⟨c, _, hrun, Intact.mono hbc fun u _ hu => hu.1.ge, ⟨rfl, rfl, hformed⟩, rfl,
    hsize, hpristine⟩

/-- A single overload is tried: the function is laid out and validated. -/
theorem Decides.exists_tried (levels : Nat) (h : s.Decides a v)
    (hfed : Echo.Fed a (a.vertex v).paths s.conditions.length []) :
    ∃ b found e, tryChoice (processAt (levels + 2)) v (s.structs ++ [s.reference]) a =
        ((a.vertices.size, found), b) ∧ Intact (fun _ => False) a b ∧ (found = [] ↔ ¬ s.Flawed []) ∧
      s.Holds [] e b ∧ e.vertex = a.vertices.size ∧ e.Complete b := by
  let b := standing a v (s.structs ++ [s.reference])
  let w := a.vertices.size
  have hlt := h.lt
  obtain ⟨c, e, hrun, hbc, ⟨hconditions, hargs, hformed⟩, hvertex, hfirst, hpristine⟩ :=
    h.exists_formed (levels + 1) hfed
  rcases hr : faultsAt (processAt (levels + 2)) (254 + 3) false e.vertex c with ⟨fs, d⟩
  obtain ⟨hcd, hcomplete, hfound⟩ := @Echo.faultsAt_function e c levels 254 false hformed
    (.inl hpristine) nofun (by rw [hargs]; exact List.forall_mem_nil _)
  rw [hr] at hcd hcomplete hfound
  have hfaults : Eval.faults (processAt (levels + 2)) false w b = (fs, d) := by
    have hdone : faultsAt (processAt (levels + 2)) (256 + 1) false w b =
        faultsAt (processAt (levels + 2)) (256 + 1) false w c :=
      faultsAt_of_processAt false hrun (by
        rw [show w = e.vertex from hvertex.symm, hformed.stage]
        exact Stage.noConfusion)
    rw [hvertex] at hr
    exact hdone.trans hr
  have hflawed : s.Flawed [] ↔ ∃ i ∈ List.range e.conditions.length, ¬ Echo.Indexes i ∨
      e.Excludes i := by
    simp only [Flawed, Echo.Excludes, hconditions, hargs]
  have hbd : Intact (a.vertices.size ≤ ·) b d :=
    hbc.trans (Intact.mono hcd fun u _ hu => by
      have := hu.1
      omega)
  have hvd : (d.vertex v).stage ≠ .done := by
    have hb : b.vertex v = _ := vertex_modify _ (show v < (a.append _).vertices.size by simp; omega)
    rw [hbd.vertex (Nat.lt_of_lt_of_le hlt (intact_standing a v _).size) (Nat.not_le_of_gt hlt), hb,
      vertex_append_of_lt _ hlt]
    show (a.vertex v).stage ≠ .done
    rw [h.stage]
    decide
  have hdf : Extends (· = v) d (d.forwarding v none) := (intact_modify_self d v _).extends_self hvd
  refine ⟨d.forwarding v none, fs.filter (!·.isIncomplete), e, ?_,
    intact_tried hlt h.forward hbd, ?_, ⟨hconditions, hargs, (hformed.extends hcd).extends hdf⟩,
    hvertex, hcomplete.extends hdf ?_⟩
  · rw [tryChoice_eq]
    dsimp only
    rw [show ((a.append [(a.vertex v).standIn (s.structs ++ [s.reference])]).forwarding v
      (some a.vertices.size)) = b from rfl, hfaults]
  · rw [hflawed, List.filter_eq_nil_iff]
    constructor
    · intro hnone hwrong
      obtain ⟨f, hf, hfinal⟩ := hfound.some hwrong
      exact hnone f hf (by rw [hfinal]; rfl)
    · intro hno
      have hnil : fs = [] := hfound.none hno
      rw [hnil]
      exact List.forall_mem_nil _
  · rintro u rfl
    omega

/-- Several overloads are tried: a list is no struct. -/
theorem Decides.exists_refused (left : Nat) (h : s.Decides a v) :
    ∃ b f fs, tryChoice (processAt (left + 1)) v (s.structs ++ [s.overloads]) a =
        ((a.vertices.size, f :: fs), b) ∧ Intact (fun _ => False) a b := by
  let b := standing a v (s.structs ++ [s.overloads])
  obtain ⟨c, f, hrun, hbc, hstage, hforward, hval, hfinal⟩ :=
    exists_contradiction left (c := s.overloads)
    (l := ⟨[], some (.ident Echo.definitionName), s.pattern, false⟩)
    (by simp [standing, forwarding]) (h.vertex_standing _) s.structs_fields (List.cons_ne_nil _ _)
    ⟨rfl, rfl, rfl⟩
  have hfaults : Eval.faults (processAt (left + 1)) false a.vertices.size b =
      ([f.atPath (c.pathText a.vertices.size)], c) :=
    faultsAt_of_isBottom (settle_of_forward hrun hforward) hval
  refine ⟨c.forwarding v none, f.atPath (c.pathText a.vertices.size), [], ?_,
    intact_tried h.lt h.forward (Intact.mono hbc fun u _ hu => hu.ge)⟩
  rw [tryChoice_eq]
  dsimp only
  rw [show ((a.append [(a.vertex v).standIn (s.structs ++ [s.overloads])]).forwarding v
    (some a.vertices.size)) = b from rfl, hfaults, List.filter_cons_of_pos, List.filter_nil]
  rw [Fault.isIncomplete_atPath, hfinal]
  rfl

end Site

end SchemaMock
