import SchemaMock.Mock.Base
import SchemaMock.Proofs.Eval.Narrowing

/-! # Deciding between alternatives

Each choice is tried at a stand-in of its own, with the fills below held back. Where one survivor
remains, its stand-in takes the place of the vertex, unless the fills call for another one.
-/

namespace SchemaMock

open Arena Eval

namespace Arena

/-- The arena while the fills below some paths are held back. -/
def withhold (a : Arena) (paths : List Path) : Arena := { a with withheld := a.withheld ++ paths }

def forwarding (a : Arena) (v : Nat) (w : Option Nat) : Arena :=
  a.modify v fun x => { x with forward := w }

end Arena

namespace Eval

variable {process : Nat → Eval Unit} {a b : Arena} {v : Nat} {kept cs seeds : List Conjunct}
  {ts : List Condition} {disjunctions choices : List (List Alternative)}

theorem unifySeeds_of_disjunctions
    (h : addRounds process v (roundLimit a) (a.vertex v).seeds a = ((kept, disjunctions), b))
    (hne : disjunctions ≠ []) (hval : (b.vertex v).val.isBottom = false) :
    unifySeeds process v a = decideChoice process v kept disjunctions b := by
  rw [unifySeeds, run_bind, run_bind, run_bind]
  generalize roundLimit = limit at h
  have hrun : addRounds process v (view limit (vertex v a).2).1 (vertex v a).1.seeds
      (view limit (vertex v a).2).2 = ((kept, disjunctions), b) := h
  rw [hrun]
  dsimp only
  rw [run_bind]
  refine congrFun (if_neg ?_) b
  show ¬ ((disjunctions.isEmpty || (b.vertex v).val.isBottom) = true)
  simp [hval, hne]

/-- What is decided when all choices have been tried. -/
theorem decideChoice_of_tries {survivors : List Survivor} {failures : List Fault} {e : Arena}
    (hcomb : combinations disjunctions = some choices)
    (htry : tryChoices process v kept disjunctions choices (a.withhold (a.vertex v).paths) =
      ((survivors, failures), b))
    (he : ({ b with withheld := a.withheld } : Arena) = e) :
    decideChoice process v kept disjunctions a =
      if survivors.isEmpty then ((), e.modify v (·.meet (.bottom ⟨.noAlternative, "", failures⟩)))
      else
        let n := narrow process survivors e
        match n.1 with
        | [s] => forwardTo process v s n.2
        | survivors => leaveOpen v survivors n.2 := by
  have hheld : withholding (a.vertex v).paths (tryChoices process v kept disjunctions choices) a =
      ((survivors, failures), { b with withheld := a.withheld }) := by
    rw [run_withholding]
    exact congrArg (fun r : _ × Arena => (r.1, { r.2 with withheld := a.withheld })) htry
  rw [run_decideChoice hcomb, hheld, he]
  rfl

/-- The stand-in that was tried is evaluated already. -/
theorem forwardTo_of_done {left : Nat} {s : Survivor}
    (hfills : a.hasFillsBelow (a.vertex v).paths = false) (hne : s.vertex ≠ v)
    (hs : (a.vertex s.vertex).stage ≠ .pending) :
    forwardTo (processAt left) v s a = ((), a.forwarding v (some s.vertex)) := by
  rw [run_forwardTo, hfills]
  refine processAt_of_stage left ?_
  show ((a.modify v _).vertex s.vertex).stage ≠ .pending
  rw [vertex_modify_of_ne a _ hne]
  exact hs

/-- With fills below, another stand-in is evaluated. -/
theorem forwardTo_of_fills {s : Survivor} (hfills : a.hasFillsBelow (a.vertex v).paths = true) :
    forwardTo process v s a = process a.vertices.size
      ((a.append [(a.vertex v).standIn s.seeds]).forwarding v (some a.vertices.size)) := by
  rw [run_forwardTo, hfills, if_pos rfl, run_stand, add_eq_append]
  rfl

theorem tryChoice_eq (process : Nat → Eval Unit) (v : Nat) (seeds : List Conjunct) (a : Arena) :
    tryChoice process v seeds a =
      (let b := (a.append [(a.vertex v).standIn seeds]).forwarding v (some a.vertices.size)
       let r := faults process false a.vertices.size b
       ((a.vertices.size, r.1.filter (!·.isIncomplete)), r.2.forwarding v none)) := by
  rw [run_tryChoice, run_stand, add_eq_append]
  rfl

/-- A choice that is tried changes no vertex that was there before. -/
theorem intact_tried {x : Vertex} {w : Option Nat} (hlt : v < a.vertices.size)
    (hforward : (a.vertex v).forward = none)
    (h : Intact (a.vertices.size ≤ ·) ((a.append [x]).forwarding v w) b) :
    Intact (fun _ => False) a (b.forwarding v none) := by
  have hstart : Intact (· = v) a ((a.append [x]).forwarding v w) :=
    (intact_append _ a [x]).trans (intact_modify_self _ v _)
  have hall : Intact (· = v) a (b.forwarding v none) :=
    (hstart.trans_new h).trans (intact_modify_self b v _)
  refine { hall with vertex := fun {u} hu _ => ?_ }
  by_cases hv : u = v
  · subst hv
    have hb : b.vertex u = { a.vertex u with forward := w } := by
      rw [h.vertex (Nat.lt_of_lt_of_le hu hstart.size) (Nat.not_le_of_gt hu), forwarding,
        vertex_modify _ (by simp; omega), vertex_append_of_lt _ hu]
    rw [forwarding, vertex_modify _ (Nat.lt_of_lt_of_le hu hall.size |> fun h => by simpa [forwarding] using h), hb,
      ← hforward]
  · exact hall.vertex hu hv

/-! ## Conditions as alternatives -/

/-- A choice of conditions leaves a stand-in that is narrowed by them. It fails just if they
contradict each other. -/
theorem exists_tryChoice (left : Nat) (hs : (a.vertex v).stage = .processing)
    (hforward : (a.vertex v).forward = none) (h : a.Conditions cs ts)
    (hheight : ∀ t ∈ ts, t.height ≤ maxDepth)
    (hfills : a.hasFillsBelow (a.vertex v).paths = false) :
    ∃ found, tryChoice (processAt (left + 1)) v cs a = ((a.vertices.size, found),
      a.append [{ ((a.vertex v).standIn cs).meetAll (Condition.breadthFirst maxDepth ts) with
        stage := .done }]) ∧
      found.isEmpty = !(Condition.narrow maxDepth ts .top).isBottom ∧
      ∀ f ∈ found, f.isIncomplete = false := by
  let w := a.vertices.size
  let x := (a.vertex v).standIn cs
  let g (x : Vertex) : Vertex :=
    { x.meetAll (Condition.breadthFirst maxDepth ts) with stage := .done }
  let b := (a.append [x]).forwarding v (some w)
  have hlt : v < a.vertices.size := lt_size_of_stage (by rw [hs]; decide)
  have hne : w ≠ v := Nat.ne_of_gt hlt
  have hintact : Intact (· = v) a b := (intact_append _ a [x]).trans (intact_modify_self _ v _)
  have hb : b.vertex w = x := by
    rw [show b.vertex w = (a.append [x]).vertex w from vertex_modify_of_ne _ _ hne]
    exact vertex_append a (show 0 < [x].length from Nat.one_pos)
  have hown : ∀ u, u = v → (a.vertex u).stage ≠ .done := by
    rintro u rfl
    rw [hs]
    decide
  have hltw : w < b.vertices.size := by simp [b, w, forwarding]
  have hrun : processAt (left + 1) w b = ((), b.modify w g) :=
    processAt_conditions left hltw hb (h.intact hintact hown) hheight
      (by rw [hintact.fillSelectors]; exact fillSelectors_of_hasFillsBelow hfills)
  have hlast : (b.modify w g).vertex w = g x := by rw [vertex_modify g hltw, hb]
  have hsettle : settle (processAt (left + 1)) w b = (w, b.modify w g) :=
    settle_of_forward hrun (by rw [hlast]; rfl)
  have hval : ((b.modify w g).vertex w).val = Condition.narrow maxDepth ts .top := by
    rw [hlast]
    rfl
  have hback : (b.modify w g).forwarding v none = a.append [g x] := by
    have hstand : (a.append [x]).modify w g = a.append [g x] := modify_append_right [x] 0 g
    rw [forwarding, modify_comm _ _ hne, show b = (a.append [x]).modify v _ from rfl, modify_modify,
      ← modify_comm _ _ hne, hstand]
    refine modify_eq_self ?_
    rw [vertex_append_of_lt _ hlt, ← hforward]
  have hfaults : ∃ fs, faults (processAt (left + 1)) false w b = (fs, b.modify w g) ∧
      fs.isEmpty = !(Condition.narrow maxDepth ts .top).isBottom ∧
        ∀ f ∈ fs, f.isIncomplete = false := by
    cases hbottom : (Condition.narrow maxDepth ts .top).isBottom with
    | false =>
      refine ⟨[], faultsAt_of_plain hsettle ?_ ?_ ?_ ?_, rfl, List.forall_mem_nil _⟩
      · rw [hval]; exact hbottom
      all_goals rw [hlast]; rfl
    | true =>
      cases hf : Condition.narrow maxDepth ts .top with
      | bottom f =>
        refine ⟨_, faultsAt_of_isBottom hsettle (hval.trans hf), rfl,
          List.forall_mem_singleton.mpr ?_⟩
        rw [Fault.isIncomplete_atPath]
        exact Condition.final_narrow (v := .top) nofun maxDepth ts f hf
      | _ => rw [hf] at hbottom; cases hbottom
  obtain ⟨fs, hfs, hempty, hfinal⟩ := hfaults
  have hfilter : fs.filter (!·.isIncomplete) = fs :=
    List.filter_eq_self.mpr fun f hf => by rw [hfinal f hf]; rfl
  refine ⟨fs, ?_, hempty, hfinal⟩
  rw [tryChoice_eq]
  dsimp only
  rw [hfs, hfilter]
  exact congrArg (Prod.mk _) hback

/-- A condition is one alternative. -/
theorem alternatives_toExpr (marked : Bool) (t : Condition) :
    t.toExpr.alternatives marked = [(t.toExpr, marked)] := by
  cases t with
  | equal c =>
    cases c with
    | plain s => cases s <;> rfl
    | _ => rfl
  | _ => rfl

end Eval

end SchemaMock
