import Mathlib.Data.List.Forall2
import Mathlib.Tactic.SplitIfs
import SchemaMock.Proofs.Eval.Intact
import SchemaMock.Proofs.Eval.Patterns
import SchemaMock.Proofs.Eval.Processing

/-! # The turn of a vertex

A vertex is marked when its processing begins and when it ends. What happens in between is the
unification of its seeds. Vertices that have settled before stay as they are.
-/

namespace SchemaMock

open Arena Eval

theorem Fault.isIncomplete_atPath (f : Fault) (path : String) :
    (f.atPath path).isIncomplete = f.isIncomplete := by
  obtain ⟨cause, p, causes⟩ := f
  unfold atPath
  split <;> rfl

theorem Fault.kind_atPath (f : Fault) (path : String) : (f.atPath path).kind = f.kind := by
  unfold atPath
  split <;> rfl

namespace Arena

variable {a b : Arena} {own : Nat → Prop} {s v w t : Nat} {label : Label}

def begin (a : Arena) (v : Nat) : Arena :=
  ({ a with depth := a.depth + 1 } : Arena).modify v ({ · with stage := .processing })

def conclude (a : Arena) (v : Nat) : Arena :=
  let last := a.modify v ({ · with stage := .done })
  { last with depth := last.depth - 1 }

theorem vertex_begin (h : v < a.vertices.size) :
    (a.begin v).vertex v = { a.vertex v with stage := .processing } := vertex_modify _ h

theorem vertex_conclude (h : v < a.vertices.size) :
    (a.conclude v).vertex v = { a.vertex v with stage := .done } := vertex_modify _ h

theorem intact_begin (a : Arena) (v : Nat) : Intact (· = v) a (a.begin v) :=
  (intact_of_eq _ rfl rfl rfl rfl : Intact (· = v) a { a with depth := a.depth + 1 }).trans
    (intact_modify_self _ v _)

theorem intact_conclude (a : Arena) (v : Nat) : Intact (· = v) a (a.conclude v) :=
  (intact_modify_self a v ({ · with stage := .done })).trans (intact_of_eq _ rfl rfl rfl rfl)

@[simp] theorem size_begin (a : Arena) (v : Nat) : (a.begin v).vertices.size = a.vertices.size :=
  size_modify _ v _

@[simp] theorem size_conclude (a : Arena) (v : Nat) :
    (a.conclude v).vertices.size = a.vertices.size :=
  size_modify a v _

theorem grown_begin (h : (a.vertex v).stage = .pending) : Grown none a (a.begin v) :=
  (grown_of_eq none rfl rfl : Grown none a { a with depth := a.depth + 1 }).trans
    (Definition.grown_start (a := { a with depth := a.depth + 1 }) h)

theorem begin_append (xs : List Vertex) (h : v < a.vertices.size) :
    (a.append xs).begin v = (a.begin v).append xs :=
  modify_append (a := { a with depth := a.depth + 1 }) xs _ h

/-- A turn that changes no more than the vertex. -/
theorem conclude_modify_begin (a : Arena) (v : Nat) (f : Vertex → Vertex) :
    ((a.begin v).modify v f).conclude v =
      a.modify v fun x => { f { x with stage := .processing } with stage := .done } := by
  rw [begin, conclude, modify_modify, modify_modify]
  rfl

/-! ## What has settled -/

theorem SettlesTo.intact (h : a.SettlesTo v t) (hi : Intact own a b)
    (hown : ∀ u, own u → (a.vertex u).stage ≠ .done) : b.SettlesTo v t := by
  have hsame {u : Nat} (hu : (a.vertex u).stage = .done) : b.vertex u = a.vertex u :=
    hi.vertex_eq (by rw [hu]; decide) fun ho => hown u ho hu
  induction h with
  | here hs hf => exact .here (by rw [hsame hs]; exact hs) (by rw [hsame hs]; exact hf)
  | there hs hf hlt _ ih =>
    exact .there (by rw [hsame hs]; exact hs) (by rw [hsame hs]; exact hf) hlt ih

theorem Outside.intact (h : a.Outside label s) (hi : Intact own a b) : b.Outside label s := by
  induction h with
  | root hs hd => exact .root (Nat.lt_of_lt_of_le hs hi.scopes) ((hi.scope hs).trans hd)
  | within hs hd hl hp _ ih =>
    exact .within (Nat.lt_of_lt_of_le hs hi.scopes) ((hi.scope hs).trans hd) hl hp ih

theorem Rootless.intact (h : a.Rootless label) (hi : Intact own a b)
    (hown : ∀ u, own u → (a.vertex u).stage ≠ .done) : b.Rootless label := by
  obtain ⟨t, ht, hnone⟩ := h
  have hs := ht.stage_last
  refine ⟨t, ht.intact hi hown, ?_⟩
  rw [hi.vertex_eq (by rw [hs]; decide) fun ho => hown t ho hs]
  exact hnone

theorem Declares.intact (h : a.Declares label s v) (hi : Intact own a b) :
    b.Declares label s v := by
  induction h with
  | here hs hd hl => exact .here (Nat.lt_of_lt_of_le hs hi.scopes) ((hi.scope hs).trans hd) hl
  | outer hs hd hl hp _ ih =>
    exact .outer (Nat.lt_of_lt_of_le hs hi.scopes) ((hi.scope hs).trans hd) hl hp ih

end Arena

namespace Eval

variable {process : Nat → Eval Unit} {a b : Arena} {v w : Nat}

theorem run_turn (left : Nat) (hs : (a.vertex v).stage = .pending) :
    processAt (left + 1) v a = ((), (unifySeeds (processAt left) v (a.begin v)).2.conclude v) :=
  run_processAt left hs

theorem processAt_of_unifySeeds {left : Nat} (hs : (a.vertex v).stage = .pending)
    (h : unifySeeds (processAt left) v (a.begin v) = ((), b)) :
    processAt (left + 1) v a = ((), b.conclude v) := by
  rw [run_turn left hs, h]

/-- A vertex that is bottom has no last step. -/
theorem finish_of_isBottom (process : Nat → Eval Unit) (h : (a.vertex v).val.isBottom = true) :
    finish process v a = ((), a) := by
  show (if !(a.vertex v).val.isBottom then _ else _ : Eval Unit) a = _
  rw [h]
  rfl

/-- Without lists, fills, patterns and closed structs there is nothing to do at the end. -/
theorem finish_of_plain (process : Nat → Eval Unit) (hlists : (a.vertex v).lists = [])
    (hfills : a.fillSelectors (a.vertex v).paths = []) (hpatterns : (a.vertex v).patterns = [])
    (hgroups : (a.vertex v).groups = []) : finish process v a = ((), a) := by
  cases hval : (a.vertex v).val.isBottom with
  | true => exact finish_of_isBottom process hval
  | false =>
    rw [finish_of_lists_eq_nil hval hlists hfills, applyPatterns_of_eq_nil hpatterns]
    exact checkClosed_of_eq_nil hgroups

theorem settle_of_forward (hrun : process v a = ((), b)) (hf : (b.vertex v).forward = none) :
    settle process v a = (v, b) := by
  rw [settle, run_bind, hrun]
  exact Prod.ext (follow_of_forward_eq_none hf) rfl

theorem settle_of_settlesTo (hrun : process v a = ((), b)) (h : b.SettlesTo v w) :
    settle process v a = (w, b) := by
  rw [settle, run_bind, hrun]
  exact Prod.ext (follow_of_settlesTo h) rfl

/-! ## One level of a walk -/

theorem settle_of_processAt {levels : Nat} (hrun : processAt levels v a = ((), b))
    (hs : (b.vertex v).stage ≠ .pending) :
    settle (processAt levels) v a = settle (processAt levels) v b := by
  rw [settle, run_bind, run_bind, hrun, processAt_of_stage levels hs]

/-- Validation looks at a vertex as it has settled. -/
theorem faultsAt_of_settle {left : Nat} (concrete : Bool)
    (h : settle process v a = settle process w b) :
    faultsAt process (left + 1) concrete v a = faultsAt process (left + 1) concrete w b := by
  have hrest {α : Type} (rest : Nat → Eval α) :
      (settle process v >>= rest) a = (settle process w >>= rest) b := by
    rw [run_bind, h]
    rfl
  rw [faultsAt, faultsAt]
  exact hrest _

/-- Validation goes on from the vertex as it has been processed. -/
theorem faultsAt_of_processAt {levels left : Nat} (concrete : Bool)
    (hrun : processAt levels v a = ((), b)) (hs : (b.vertex v).stage ≠ .pending) :
    faultsAt (processAt levels) (left + 1) concrete v a =
      faultsAt (processAt levels) (left + 1) concrete v b :=
  faultsAt_of_settle concrete (settle_of_processAt hrun hs)

/-- Something is wrong exactly if there are faults, and then one of them is final. -/
structure Found (wrong : Prop) (fs : List Fault) : Prop where
  none : ¬ wrong → fs = []
  some : wrong → ∃ f ∈ fs, f.isIncomplete = false

theorem Found.nil : Found False [] := ⟨fun _ => rfl, False.elim⟩

theorem Found.congr {p q : Prop} {fs : List Fault} (h : Found p fs) (hpq : p ↔ q) : Found q fs :=
  ⟨fun hno => h.none (mt hpq.mp hno), fun hq => h.some (hpq.mpr hq)⟩

theorem Found.append {p q : Prop} {fs gs : List Fault} (h : Found p fs) (h' : Found q gs) :
    Found (p ∨ q) (fs ++ gs) where
  none hno := by rw [h.none fun hp => hno (.inl hp), h'.none fun hq => hno (.inr hq),
  List.append_nil]
  some hpq := by
    rcases hpq with hp | hq
    · obtain ⟨f, hf, hfinal⟩ := h.some hp
      exact ⟨f, List.mem_append_left _ hf, hfinal⟩
    · obtain ⟨f, hf, hfinal⟩ := h'.some hq
      exact ⟨f, List.mem_append_right _ hf, hfinal⟩

theorem Found.flatten {ι : Type} {wrong : ι → Prop} {is : List ι} {fss : List (List Fault)}
    (h : List.Forall₂ (fun i fs => Found (wrong i) fs) is fss) :
    Found (∃ i ∈ is, wrong i) fss.flatten := by
  induction h with
  | nil => exact ⟨fun _ => rfl, fun ⟨_, hi, _⟩ => absurd hi List.not_mem_nil⟩
  | @cons i fs is fss hi _ ih =>
    have hsplit : (∃ k ∈ i :: is, wrong k) ↔ wrong i ∨ ∃ k ∈ is, wrong k := by simp
    rw [hsplit, List.flatten_cons]
    exact hi.append ih

/-- Export looks at a vertex as it has settled. -/
theorem run_exportAt_of_settle {left : Nat} (h : settle process v a = settle process w b) :
    (exportAt process (left + 1) v).run a = (exportAt process (left + 1) w).run b := by
  rw [exportAt, exportAt, Attempt.run_bind, Attempt.run_bind, Attempt.run_perform,
    Attempt.run_perform, h]

/-- Export goes on from the vertex as it has been processed. -/
theorem run_exportAt_of_processAt {levels left : Nat} (hrun : processAt levels v a = ((), b))
    (hs : (b.vertex v).stage ≠ .pending) :
    (exportAt (processAt levels) (left + 1) v).run a =
      (exportAt (processAt levels) (left + 1) v).run b :=
  run_exportAt_of_settle (settle_of_processAt hrun hs)

section

variable {left : Nat} {concrete : Bool}

theorem faultsAt_of_isBottom {f : Fault} (hsettle : settle process v a = (w, b))
    (hval : (b.vertex w).val = .bottom f) :
    faultsAt process (left + 1) concrete v a = ([f.atPath (b.pathText w)], b) := by
  rw [faultsAt, run_bind, hsettle]
  dsimp only
  rw [run_bind, run_bind]
  dsimp only [vertex, view]
  rw [hval]
  rfl

theorem faultsAt_of_struct {bounds : List Bound} (hsettle : settle process v a = (w, b))
    (hval : (b.vertex w).val = .constraint ⟨.ofStruct, bounds⟩)
    (hpending : (b.vertex w).pending = []) : faultsAt process (left + 1) concrete v a =
      (let r := (b.vertex w).fields.mapM
        (fun e => faultsAt process left (concrete && e.1.isRegular) e.2) b
       (r.1.flatten, r.2)) := by
  rw [faultsAt, run_bind, hsettle]
  dsimp only
  rw [run_bind, run_bind]
  dsimp only [vertex, view]
  have hnone : ¬ ((!(b.vertex w).pending.isEmpty) = true) := by simp [hpending]
  rw [hval]
  exact congrFun (if_neg hnone) b

/-- Regular fields are asked for values as the struct is. -/
theorem faultsAt_of_regular {bounds : List Bound} (hsettle : settle process v a = (w, b))
    (hval : (b.vertex w).val = .constraint ⟨.ofStruct, bounds⟩)
    (hpending : (b.vertex w).pending = []) (hregular : ∀ e ∈ (b.vertex w).fields, e.1.isRegular = true) :
    faultsAt process (left + 1) concrete v a =
      (let r := ((b.vertex w).fields.map (·.2)).mapM (faultsAt process left concrete) b
       (r.1.flatten, r.2)) := by
  rw [faultsAt_of_struct hsettle hval hpending, List.mapM_map]
  have hsame (es : List (Label × Nat)) (h : ∀ e ∈ es, e.1.isRegular = true) :
      (es.mapM fun e => faultsAt process left (concrete && e.1.isRegular) e.2) =
        es.mapM (faultsAt process left concrete ∘ (·.2)) := by
    induction es with
    | nil => rfl
    | cons e es ih =>
      rw [List.mapM_cons, List.mapM_cons, ih fun x hx => h x (List.mem_cons_of_mem e hx),
        h e List.mem_cons_self, Bool.and_true]
      rfl
  rw [hsame _ hregular]

theorem faultsAt_of_list {bounds : List Bound} (hsettle : settle process v a = (w, b))
    (hval : (b.vertex w).val = .constraint ⟨.ofList, bounds⟩)
    (hpending : (b.vertex w).pending = []) : faultsAt process (left + 1) concrete v a =
      (let r := (b.vertex w).elems.mapM (faultsAt process left concrete) b
       (r.1.flatten, r.2)) := by
  rw [faultsAt, run_bind, hsettle]
  dsimp only
  rw [run_bind, run_bind]
  dsimp only [vertex, view]
  have hnone : ¬ ((!(b.vertex w).pending.isEmpty) = true) := by simp [hpending]
  rw [hval]
  exact congrFun (if_neg hnone) b

theorem faultsAt_of_atom {s : Scalar} (hsettle : settle process v a = (w, b))
    (hval : (b.vertex w).val = .atom s) (hpending : (b.vertex w).pending = []) :
    faultsAt process (left + 1) concrete v a = ([], b) := by
  rw [faultsAt, run_bind, hsettle]
  dsimp only
  rw [run_bind, run_bind]
  dsimp only [vertex, view]
  have hnone : ¬ ((!(b.vertex w).pending.isEmpty) = true) := by simp [hpending]
  rw [hval]
  refine (congrFun (if_neg hnone) b).trans ?_
  cases s <;> rfl

/-- A vertex without parts has no fault unless it is bottom, as long as no value is asked for. -/
theorem faultsAt_of_plain (hsettle : settle process v a = (w, b))
    (hval : (b.vertex w).val.isBottom = false) (hpending : (b.vertex w).pending = [])
    (harcs : (b.vertex w).arcs = []) (helems : (b.vertex w).elems = []) :
    faultsAt process (left + 1) false v a = ([], b) := by
  cases hv : (b.vertex w).val with
  | bottom f => rw [hv] at hval; cases hval
  | atom s => exact faultsAt_of_atom hsettle hv hpending
  | constraint k =>
    rw [faultsAt, run_bind, hsettle]
    dsimp only
    rw [run_bind, run_bind]
    dsimp only [vertex, view]
    have hfields : (b.vertex w).fields = [] := by simp [Vertex.fields, harcs]
    have hnone : ¬ ((!(b.vertex w).pending.isEmpty) = true) := by simp [hpending]
    rw [hv]
    refine (congrFun (if_neg hnone) b).trans ?_
    rw [hfields, helems]
    split_ifs <;> first | rfl | contradiction

theorem run_exportAt_of_isBottom {f : Fault} (hsettle : settle process v a = (w, b))
    (hval : (b.vertex w).val = .bottom f) (hstage : (b.vertex w).stage = .done) :
    (exportAt process (left + 1) v).run a = (.error (f.atPath (b.pathText w)), b) := by
  have hobstacle : b.obstacle? w = some (f.atPath (b.pathText w)) := by
    simp only [obstacle?, hstage, hval]
    rfl
  rw [exportAt, Attempt.run_bind, Attempt.run_perform, hsettle]
  dsimp only
  rw [Attempt.run_bind, Attempt.run_perform]
  dsimp only [view]
  rw [hobstacle]
  rfl

variable (process left) in
/-- What is exported of a vertex without obstacle. -/
def exportVal (v : Nat) (x : Vertex) : Attempt Json :=
  match x.val with
  | .atom s =>
    match s.toJson with
    | .ok j => return j
    | .error c => failAt v c
  | val =>
    if val.kinds = .ofStruct then do
      let fields ← (x.fields.filter (·.1.isRegular)).mapM fun (label, w) => do
        return (label.display, ← exportAt process left w)
      return Json.ofFields fields
    else if val.kinds = .ofList then do return .arr (← x.elems.mapM (exportAt process left))
    else failAt v (.incompleteValue val.display)

theorem run_exportAt_of_not_isBottom (hsettle : settle process v a = (w, b))
    (hval : (b.vertex w).val.isBottom = false) (hpending : (b.vertex w).pending = [])
    (hstage : (b.vertex w).stage = .done) :
    (exportAt process (left + 1) v).run a = (exportVal process left w (b.vertex w)).run b := by
  have hobstacle : b.obstacle? w = none := by
    simp only [obstacle?, hstage, hpending]
    cases hv : (b.vertex w).val with
    | bottom f => rw [hv] at hval; cases hval
    | _ => rfl
  rw [exportAt, Attempt.run_bind, Attempt.run_perform, hsettle]
  dsimp only
  rw [Attempt.run_bind, Attempt.run_perform]
  dsimp only [view]
  rw [hobstacle]
  rfl

theorem run_exportAt_of_atom {s : Scalar} {j : Json} (hsettle : settle process v a = (w, b))
    (hval : (b.vertex w).val = .atom s) (hpending : (b.vertex w).pending = [])
    (hstage : (b.vertex w).stage = .done) (hj : s.toJson = .ok j) :
    (exportAt process (left + 1) v).run a = (.ok j, b) := by
  rw [run_exportAt_of_not_isBottom hsettle (by rw [hval]; rfl) hpending hstage, exportVal, hval]
  dsimp only
  rw [hj]
  rfl

theorem run_exportAt_of_struct {bounds : List Bound} (hsettle : settle process v a = (w, b))
    (hval : (b.vertex w).val = .constraint ⟨.ofStruct, bounds⟩)
    (hpending : (b.vertex w).pending = []) (hstage : (b.vertex w).stage = .done) :
    (exportAt process (left + 1) v).run a =
      (do
        let fields ← ((b.vertex w).fields.filter (·.1.isRegular)).mapM fun (label, w) => do
          return (label.display, ← exportAt process left w)
        return Json.ofFields fields : Attempt Json).run b := by
  rw [run_exportAt_of_not_isBottom hsettle (by rw [hval]; rfl) hpending hstage, exportVal, hval]
  rfl

theorem run_exportAt_of_list {bounds : List Bound} (hsettle : settle process v a = (w, b))
    (hval : (b.vertex w).val = .constraint ⟨.ofList, bounds⟩) (hpending : (b.vertex w).pending = [])
    (hstage : (b.vertex w).stage = .done) :
    (exportAt process (left + 1) v).run a =
      (do return .arr (← (b.vertex w).elems.mapM (exportAt process left)) : Attempt Json).run
        b := by
  rw [run_exportAt_of_not_isBottom hsettle (by rw [hval]; rfl) hpending hstage, exportVal, hval]
  rfl

end

end Eval

end SchemaMock
