import SchemaMock.Eval.Query
import SchemaMock.Proofs.Eval.Data
import SchemaMock.Proofs.Eval.Turn

/-! # Walking down host data

Validation and export process the vertices of host data one after the other. Each of them changes
no other vertex that was there, so that the later ones are found as they were laid out.
-/

namespace SchemaMock

open Arena Eval

namespace Arena

variable {a b : Arena} {n v : Nat} {j : Json} {js : List Json} {ws : List Nat}
  {x : Vertex} {y : Val}

theorem Denotes.stage (h : a.Denotes v j) : (a.vertex v).stage = .pending := by
  obtain ⟨parent, paths, c, hv, -⟩ := h.fresh
  rw [hv]
  rfl

theorem Denotes.canonical (h : a.Denotes v j) : j.canonical = true := by
  obtain ⟨parent, paths, c, -, hc, -⟩ := h.fresh
  exact hc.canonical

/-- The parts of a vertex that is not pending are other ones. -/
theorem Parts.ne (h : a.Parts n ws js) (hs : (a.vertex v).stage ≠ .pending) : ∀ w ∈ ws, w ≠ v := by
  rintro w hw rfl
  obtain ⟨hlength, hget⟩ := List.forall₂_iff_get.mp h.denotes
  obtain ⟨i, hi, rfl⟩ := List.mem_iff_getElem.mp hw
  exact hs (hget i hi (hlength ▸ hi)).stage

/-- The parts are pending, so that a change of them is one of vertices that are not done. -/
theorem Parts.extends (h : a.Parts n ws js) (hi : Intact (· ∈ ws) a b) : Extends (n ≤ ·) a b := by
  obtain ⟨hlength, hget⟩ := List.forall₂_iff_get.mp h.denotes
  refine (hi.extends fun w hw => ?_).mono fun w _ hw => h.le w hw
  obtain ⟨i, hi, rfl⟩ := List.mem_iff_getElem.mp hw
  have hs : (a.vertex ws[i]).stage = .pending := (hget i hi (hlength ▸ hi)).stage
  rw [hs]
  decide

theorem Parts.forall₂ {p : Json → Prop} (h : a.Parts n ws js) (hp : ∀ j ∈ js, p j) :
    List.Forall₂ (fun w j => a.Denotes w j ∧ p j) ws js :=
  ((List.forall₂_and_left _ _).mpr ⟨hp, h.denotes.flip⟩).flip.imp fun _ _ h => h.symm

/-- The fields of an object one by one. -/
theorem Fields.forall₂ {p : Json → Prop} {arcs : List (Label × Arc)} {fields : List (String × Json)}
    (h : a.Fields n arcs fields) (hp : ∀ j ∈ fields.map (·.2), p j) :
    List.Forall₂ (fun e f => e.1 = .regular f.1 ∧ a.Denotes e.2 f.2 ∧ p f.2)
      (arcs.map fun e => (e.1, e.2.vertex)) fields := by
  have hlabels : List.Forall₂ (· = ·) (arcs.map (·.1)) (fields.map fun f => Label.regular f.1) := by
    rw [List.forall₂_eq_eq_eq]
    exact h.labels
  rw [List.forall₂_map_left_iff, List.forall₂_map_right_iff] at hlabels
  have hparts := h.parts.forall₂ hp
  rw [List.forall₂_map_left_iff, List.forall₂_map_right_iff] at hparts
  rw [List.forall₂_map_left_iff]
  exact hlabels.mp (fun e f hl hd => ⟨hl, hd⟩) hparts

/-- All fields are present. -/
theorem Fields.fields_eq {fields : List (String × Json)} (h : a.Fields n x.arcs fields) :
    x.fields = x.arcs.map fun e => (e.1, e.2.vertex) := by
  rw [Vertex.fields, List.filter_eq_self.mpr h.required]

theorem Fields.intact {arcs : List (Label × Arc)} {fields : List (String × Json)}
    (h : a.Fields n arcs fields) (hi : Intact (· = v) a b) (hs : (a.vertex v).stage ≠ .pending) :
    b.Fields n arcs fields :=
  ⟨h.labels, h.required, h.parts.intact hi (h.parts.ne hs)⟩

/-- A change of the vertex itself leaves its parts. -/
theorem Laid.intact (h : a.Laid n x j) (hi : Intact (· = v) a b)
    (hs : (a.vertex v).stage ≠ .pending) : b.Laid n x j := by
  cases j with
  | arr items => exact h
  | obj fields => exact ⟨h.1, h.2.imp fun _ hf => ⟨hf.1, hf.2.intact hi hs⟩⟩
  | _ => exact h

theorem Composed.intact (h : a.Composed n x j) (hi : Intact (· = v) a b)
    (hs : (a.vertex v).stage ≠ .pending) : b.Composed n x j := by
  cases j with
  | arr items => exact Parts.intact h hi (Parts.ne h hs)
  | obj fields => exact Exists.imp (fun _ hf => ⟨hf.1, hf.2.intact hi hs⟩) h
  | _ => trivial

end Arena

theorem Json.top_meet_toVal (j : Json) : Val.top.meet (j.toVal []) = j.toVal [] := by
  cases j <;> rfl

namespace Eval

variable {process : Nat → Eval Unit} {a : Arena} {v left : Nat} {j : Json} {c : Conjunct}

/-! ## Processing -/

/-- Host data takes its form, and the other conjuncts do no more than narrow the value. -/
theorem exists_rounds {n rounds : Nat} (work : List Conjunct) (narrow : Val → Val)
    (hn : n ≤ a.vertices.size) (hc : c.Spells j) (hs : (a.vertex v).stage = .processing)
    (harcs : (a.vertex v).arcs = []) (hlists : (a.vertex v).lists = [])
    (hfills : a.hasFillsBelow (a.vertex v).paths = false)
    (hwork : ∀ b, Intact (· = v) a b → (b.vertex v).stage = .processing → ∃ kept,
      addRounds process v (rounds + 1) work b =
        ((kept, []), b.modify v fun x => { x with val := narrow x.val })) :
    ∃ kept d, addRounds process v (rounds + 1) (c :: work) a = ((kept, []), d) ∧
      Intact (· = v) a d ∧
      d.vertex v = { a.vertex v with
        val := narrow ((a.vertex v).val.meet (j.toVal []))
        arcs := (d.vertex v).arcs, lists := (d.vertex v).lists } ∧
      d.Laid n (d.vertex v) j := by
  have hlt : v < a.vertices.size := lt_size_of_stage (by rw [hs]; decide)
  obtain ⟨b, hadd, hab, hb, hlaid⟩ := exists_laid process hn hc hlt harcs hlists hfills
  have hsb : (b.vertex v).stage = .processing := by rw [hb]; exact hs
  obtain ⟨kept, hkept⟩ := hwork b hab hsb
  let f (x : Vertex) : Vertex := { x with val := narrow x.val }
  have hd : (b.modify v f).vertex v = f (b.vertex v) :=
    vertex_modify f (Nat.lt_of_lt_of_le hlt hab.size)
  refine ⟨c :: kept, b.modify v f, ?_, hab.trans (intact_modify_self b v f), ?_, ?_⟩
  · rw [addRounds_cons rounds work hadd rfl rfl, hkept]
    rfl
  · rw [hd, hb]
    rfl
  · have hsame : b.Laid n (f (b.vertex v)) j := by cases j <;> exact hlaid
    rw [hd]
    exact hsame.intact (intact_modify_self b v f) (by rw [hsb]; decide)

/-- The last step, where the value may have become bottom. -/
theorem exists_finish {n : Nat} (process : Nat → Eval Unit) (hn : n ≤ a.vertices.size)
    (hlt : v < a.vertices.size) (hlaid : a.Laid n (a.vertex v) j)
    (hpatterns : (a.vertex v).patterns = []) (hgroups : (a.vertex v).groups = [])
    (hfills : a.hasFillsBelow (a.vertex v).paths = false) (hc : j.canonical = true) :
    ∃ b, finish process v a = ((), b) ∧ Intact (· = v) a b ∧
      b.vertex v = { a.vertex v with
        lists := (b.vertex v).lists, openList := (b.vertex v).openList, elems :=
  (b.vertex v).elems } ∧
      ((a.vertex v).val.isBottom = false → b.Composed n (b.vertex v) j) := by
  cases hval : (a.vertex v).val.isBottom with
  | true => exact ⟨a, finish_of_isBottom process hval, .refl _ a, rfl, fun h => Bool.noConfusion h⟩
  | false =>
    obtain ⟨b, hfinish, hab, hb, hcomposed⟩ :=
      exists_composed process hn hlt hval hlaid hpatterns hgroups hfills hc
    exact ⟨b, hfinish, hab, hb, fun _ => hcomposed⟩

/-- When the seeds of a vertex have left host data with some value, the vertex ends up showing
it. -/
theorem exists_shows_of_rounds {n : Nat} {kept : List Conjunct} {d : Arena}
    (hs : (a.vertex v).stage = .pending)
    (hrounds : addRounds (processAt left) v (roundLimit (a.begin v)) ((a.begin v).vertex v).seeds
      (a.begin v) = ((kept, []), d))
    (hn : n ≤ d.vertices.size) (hsd : (d.vertex v).stage = .processing)
    (hlaid : d.Laid n (d.vertex v) j)
    (hrest : d.vertex v = {
      Vertex.fresh (d.vertex v).parent (d.vertex v).paths (d.vertex v).seeds with
      stage := .processing, val := (d.vertex v).val, arcs := (d.vertex v).arcs
      lists := (d.vertex v).lists, copied := (d.vertex v).copied })
    (hfills : d.hasFillsBelow (d.vertex v).paths = false) (hc : j.canonical = true) :
    ∃ b, processAt (left + 1) v a = ((), b) ∧ Intact (· = v) d b ∧
      b.Shows n v j (d.vertex v).val ∧ (b.vertex v).paths = (d.vertex v).paths ∧
      (b.vertex v).seeds = (d.vertex v).seeds := by
  have hlt : v < d.vertices.size := lt_size_of_stage (by rw [hsd]; decide)
  obtain ⟨e, hfinish, hde, he, hcomposed⟩ := exists_finish (processAt left) hn hlt hlaid
    (by rw [hrest]; rfl) (by rw [hrest]; rfl) hfills hc
  have hrun := processAt_of_unifySeeds hs ((unifySeeds_of_addRounds hrounds).trans hfinish)
  have hlast : (e.conclude v).vertex v = { e.vertex v with stage := .done } :=
    vertex_conclude (Nat.lt_of_lt_of_le hlt hde.size)
  refine ⟨e.conclude v, hrun, hde.trans (intact_conclude e v), ⟨?_, ?_, ?_, ?_, ?_, ?_⟩, ?_, ?_⟩
  · rw [hlast]
  · rw [hlast, he, hrest]; rfl
  · rw [hlast, he, hrest]; rfl
  · rw [hlast, he, hrest]; rfl
  · rw [hlast, he]
  · intro hval
    have hsame : e.Composed n { e.vertex v with stage := .done } j := by
      have := hcomposed hval
      cases j <;> exact this
    rw [hlast]
    refine hsame.intact (intact_conclude e v) ?_
    rw [he, hsd]
    decide
  · rw [hlast, he]
  · rw [hlast, he]

/-- Host data is written for the vertex, and its other seeds do no more than narrow the value. -/
theorem exists_shows {parent : Option Nat} {paths : List Path} {work : List Conjunct}
    {narrow : Val → Val} (hlt : v < a.vertices.size)
    (hv : a.vertex v = .fresh parent paths (c :: work)) (hc : c.Spells j)
    (hfills : a.hasFillsBelow paths = false)
    (hwork : ∀ b, Intact (· = v) a b → (b.vertex v).stage = .processing → ∃ kept,
      addRounds (processAt left) v (roundLimit a) work b =
        ((kept, []), b.modify v fun x => { x with val := narrow x.val })) :
    ∃ b, processAt (left + 1) v a = ((), b) ∧ Intact (· = v) a b ∧
      b.Shows a.vertices.size v j (narrow (j.toVal [])) ∧ (b.vertex v).paths = paths ∧
      (b.vertex v).seeds = c :: work := by
  have hstart : (a.begin v).vertex v = { a.vertex v with stage := .processing } := vertex_begin hlt
  have has := intact_begin a v
  have hlimit : roundLimit (a.begin v) = roundLimit a := by simp [roundLimit]
  obtain ⟨rounds, hr⟩ : ∃ rounds, roundLimit a = rounds + 1 :=
    Nat.exists_eq_add_one.mpr (Nat.mul_pos (by decide) (Nat.succ_pos _))
  rw [hr] at hwork
  obtain ⟨kept, d, hrounds, hsd, hd, hlaid⟩ := exists_rounds (a := a.begin v) work
    narrow has.size hc (by rw [hstart]) (by rw [hstart, hv]; rfl) (by rw [hstart, hv]; rfl)
    (by rw [hstart, hv, has.hasFillsBelow]; exact hfills) fun b hb => hwork b (has.trans hb)
  rw [hstart, hv] at hd
  have hval : (d.vertex v).val = narrow (j.toVal []) := by
    rw [hd]
    exact congrArg narrow j.top_meet_toVal
  have hpaths : (d.vertex v).paths = paths := by rw [hd]; rfl
  have hseeds : (d.vertex v).seeds = c :: work := by rw [hd]; rfl
  obtain ⟨b, hrun, hdb, hshows, hbp, hbs⟩ := exists_shows_of_rounds (a := a) (d := d)
    (n := a.vertices.size) (by rw [hv]; rfl)
    (by rw [hlimit, hr, hstart, hv]; exact hrounds) (Nat.le_trans has.size hsd.size)
    (by rw [hd]) hlaid
    (by rw [hd]; rfl) (by rw [hpaths, (has.trans hsd).hasFillsBelow]; exact hfills) hc.canonical
  rw [hval] at hshows
  exact ⟨b, hrun, (has.trans hsd).trans hdb, hshows, hbp.trans hpaths, hbs.trans hseeds⟩

theorem exists_shows_of_denotes (left : Nat) (h : a.Denotes v j) :
    ∃ b, processAt (left + 1) v a = ((), b) ∧ Intact (· = v) a b ∧
      b.Shows a.vertices.size v j (j.toVal []) := by
  obtain ⟨parent, paths, c, hv, hc, hfills⟩ := h.fresh
  have hwork (b : Arena) (_ : Intact (· = v) a b) (_ : (b.vertex v).stage = .processing) : ∃ kept,
      addRounds (processAt left) v (roundLimit a) [] b =
        ((kept, []), b.modify v fun x => { x with val := id x.val }) := by
    refine ⟨[], ?_⟩
    rw [modify_eq_self rfl]
    cases roundLimit a <;> rfl
  obtain ⟨b, hrun, hintact, hshows, -⟩ := exists_shows h.lt hv hc hfills hwork
  exact ⟨b, hrun, hintact, hshows⟩

theorem settle_of_shows {b : Arena} {n : Nat} {y : Val} (hrun : process v a = ((), b))
    (hs : b.Shows n v j y) : settle process v a = (v, b) := by
  rw [settle, run_bind, hrun]
  exact Prod.ext (follow_of_forward_eq_none hs.forward) rfl

/-! ## Going through several vertices -/

theorem flatten_of_forall₂ {ι β : Type} {is : List ι} {xss : List (List β)}
    (h : List.Forall₂ (fun _ xs => xs = []) is xss) : xss.flatten = [] := by
  induction h with
  | nil => rfl
  | cons hxs _ ih => rw [List.flatten_cons, hxs, ih, List.append_nil]

section

variable {ι β γ : Type} (place : ι → Nat) (shared : Nat → Prop) {I : Arena → Prop}
  {R : Arena → ι → γ → Prop} {Q : γ → β → Prop} {is : List ι} {xs : List γ} {i : ι}

theorem forall_intact {b : Arena}
    (hR : ∀ a b i k x, R a i x → Intact (fun v => v = place k ∨ shared v) a b →
      place i ≠ place k → R b i x)
    (h : List.Forall₂ (R a) is xs) (hi : Intact (fun v => v = place i ∨ shared v) a b)
    (hn : place i ∉ is.map place) : List.Forall₂ (R b) is xs := by
  have hall : ∀ k ∈ is, place k ≠ place i := fun k hk he => hn (he ▸ List.mem_map_of_mem hk)
  exact ((List.forall₂_and_left _ _).mpr ⟨hall, h⟩).imp fun k x hk => hR a b k i x hk.2 hi hk.1

/-- Each item is dealt with at a vertex of its own and at shared ones, under an invariant, whatever
happens at the others. -/
theorem run_mapM_of_each {f : ι → Eval β}
    (hf : ∀ a i x, I a → R a i x → I (f i a).2 ∧ Q x (f i a).1 ∧
      Intact (fun v => v = place i ∨ shared v) a (f i a).2)
    (hR : ∀ a b i k x, R a i x → Intact (fun v => v = place k ∨ shared v) a b →
      place i ≠ place k → R b i x)
    (hI : I a) (h : List.Forall₂ (R a) is xs) (hn : (is.map place).Nodup) :
    I (is.mapM f a).2 ∧ List.Forall₂ Q xs (is.mapM f a).1 ∧
      Intact (fun v => v ∈ is.map place ∨ shared v) a (is.mapM f a).2 := by
  induction is generalizing a xs with
  | nil => cases h; exact ⟨hI, .nil, .refl _ a⟩
  | cons i is ih =>
    obtain ⟨x, xs, hx, hxs, rfl⟩ := List.forall₂_cons_left_iff.mp h
    obtain ⟨hfirst, hq, hi⟩ := hf a i x hI hx
    rw [List.map_cons, List.nodup_cons] at hn
    obtain ⟨hlast, hqs, his⟩ := ih hfirst (forall_intact place shared hR hxs hi hn.1) hn.2
    rw [run_mapM_cons]
    refine ⟨hlast, .cons hq hqs, (hi.mono fun u _ hu => ?_).trans (his.mono fun u _ hu => ?_)⟩
    · rcases hu with rfl | hu
      · exact .inl List.mem_cons_self
      · exact .inr hu
    · exact hu.imp_left (List.mem_cons_of_mem _)

theorem run_mapM_of_intact {f : ι → Eval γ}
    (hf : ∀ a i x, R a i x → (f i a).1 = x ∧ Intact (· = place i) a (f i a).2)
    (hR : ∀ a b i k x, R a i x → Intact (· = place k) a b → place i ≠ place k → R b i x)
    (h : List.Forall₂ (R a) is xs) (hn : (is.map place).Nodup) :
    (is.mapM f a).1 = xs ∧ Intact (· ∈ is.map place) a (is.mapM f a).2 := by
  have hcast {own : Nat → Prop} {a b : Arena} (hi : Intact (fun v => own v ∨ False) a b) :
      Intact own a b := hi.mono fun u _ hu => hu.resolve_right id
  obtain ⟨-, heq, hi⟩ := run_mapM_of_each (Q := (· = ·)) (I := fun _ => True) place (fun _ => False)
    (fun a i x _ hx => ⟨trivial, (hf a i x hx).1.symm, (hf a i x hx).2.mono fun u _ hu => .inl hu⟩)
    (fun a b i k x hx hi => hR a b i k x hx (hcast hi)) trivial h hn
  rw [List.forall₂_eq_eq_eq] at heq
  exact ⟨heq.symm, hcast hi⟩

end

end Eval

namespace Attempt

theorem run_bind_of_ok {α β : Type} {m : Attempt α} {a : Arena} {x : α} (h : (m.run a).1 = .ok x)
    (k : α → Attempt β) : (m >>= k).run a = (k x).run (m.run a).2 := by
  rw [run_bind]
  rcases hm : m.run a with ⟨y, b⟩
  rw [hm] at h
  obtain rfl : y = .ok x := h
  rfl

variable {ι β : Type} (place : ι → Nat) (shared : Nat → Prop) {I : Arena → Prop}
  {R : Arena → ι → β → Prop} {is : List ι} {rs : List β} {a : Arena}

/-- Items that give results one by one do so together. -/
theorem run_mapM_of_each {f : ι → Attempt β}
    (hf : ∀ a i r, I a → R a i r → I ((f i).run a).2 ∧ ((f i).run a).1 = .ok r ∧
      Intact (fun v => v = place i ∨ shared v) a ((f i).run a).2)
    (hR : ∀ a b i k r, R a i r → Intact (fun v => v = place k ∨ shared v) a b →
      place i ≠ place k → R b i r)
    (hI : I a) (h : List.Forall₂ (R a) is rs) (hn : (is.map place).Nodup) :
    I ((is.mapM f).run a).2 ∧ ((is.mapM f).run a).1 = .ok rs ∧
      Intact (fun v => v ∈ is.map place ∨ shared v) a ((is.mapM f).run a).2 := by
  induction is generalizing a rs with
  | nil => cases h; exact ⟨hI, rfl, .refl _ a⟩
  | cons i is ih =>
    obtain ⟨r, rs, hr, hrs, rfl⟩ := List.forall₂_cons_left_iff.mp h
    obtain ⟨hlast, hfirst, hi⟩ := hf a i r hI hr
    rw [List.map_cons, List.nodup_cons] at hn
    obtain ⟨hend, htail, his⟩ := ih hlast (forall_intact place shared hR hrs hi hn.1) hn.2
    rw [List.mapM_cons, run_bind_of_ok hfirst, run_bind_of_ok htail]
    refine ⟨hend, rfl, (hi.mono fun u _ hu => ?_).trans (his.mono fun u _ hu => ?_)⟩
    · rcases hu with rfl | hu
      · exact .inl List.mem_cons_self
      · exact .inr hu
    · exact hu.imp_left (List.mem_cons_of_mem _)

theorem run_mapM_of_intact {f : ι → Attempt β}
    (hf : ∀ a i r, R a i r → ((f i).run a).1 = .ok r ∧ Intact (· = place i) a ((f i).run a).2)
    (hR : ∀ a b i k r, R a i r → Intact (· = place k) a b → place i ≠ place k → R b i r)
    (h : List.Forall₂ (R a) is rs) (hn : (is.map place).Nodup) :
    ((is.mapM f).run a).1 = .ok rs ∧ Intact (· ∈ is.map place) a ((is.mapM f).run a).2 := by
  have hcast {own : Nat → Prop} {a b : Arena} (hi : Intact (fun v => own v ∨ False) a b) :
      Intact own a b := hi.mono fun u _ hu => hu.resolve_right id
  obtain ⟨-, hresult, hi⟩ := run_mapM_of_each (I := fun _ => True) place (fun _ => False)
    (fun a i r _ hr => ⟨trivial, (hf a i r hr).1, (hf a i r hr).2.mono fun u _ hu => .inl hu⟩)
    (fun a b i k r hr hi => hR a b i k r hr (hcast hi)) trivial h hn
  exact ⟨hresult, hcast hi⟩

end Attempt

namespace Eval

/-! ## Export -/

section

variable {process : Nat → Eval Unit} {a b : Arena} {n v left : Nat} {j : Json} {bounds : List Bound}

variable (process left) in
def exportShown (x : Vertex) : Json → Attempt Json
  | .arr _ => do return .arr (← x.elems.mapM (exportAt process left))
  | .obj _ => do
    let fields ← (x.fields.filter (·.1.isRegular)).mapM fun (label, w) => do
      return (label.display, ← exportAt process left w)
    return Json.ofFields fields
  | j => pure j

theorem run_exportAt (hsettle : settle process v a = (v, b)) (hs : b.Shows n v j (j.toVal bounds))
    (hc : j.canonical = true) :
    (exportAt process (left + 1) v).run a = (exportShown process left (b.vertex v) j).run b := by
  have hobstacle : b.obstacle? v = none := by
    simp only [obstacle?, hs.stage, hs.val, hs.pending]
    cases j <;> rfl
  rw [exportAt, Attempt.run_bind, Attempt.run_perform, hsettle]
  dsimp only
  rw [Attempt.run_bind, Attempt.run_perform]
  dsimp only [view]
  rw [hobstacle]
  dsimp only
  rw [Attempt.run_bind, Attempt.run_perform]
  dsimp only [vertex]
  rw [hs.val]
  cases j with
  | int i =>
    simp only [Json.toVal, Json.toJson_of_toVal bounds hc rfl]
    rfl
  | float x =>
    simp only [Json.toVal, Json.toJson_of_toVal bounds hc rfl]
    rfl
  | _ => rfl

end

variable {a b : Arena} {n v : Nat} {j : Json} {bounds : List Bound}

/-- An export gives host data back. -/
theorem exportAt_of_shows (levels left : Nat)
    (hsettle : settle (processAt (levels + 1)) v a = (v, b)) (hs : b.Shows n v j (j.toVal bounds))
    (hc : j.canonical = true) (hd : j.depth ≤ left) :
    ((exportAt (processAt (levels + 1)) left v).run a).1 = .ok j ∧
      Extends (n ≤ ·) b ((exportAt (processAt (levels + 1)) left v).run a).2 := by
  induction left generalizing a b n v j bounds with
  | zero => exact absurd hd (Nat.not_le_of_gt j.depth_pos)
  | succ left ih =>
    rw [run_exportAt hsettle hs hc]
    have hcomposed := hs.composed (j.isBottom_toVal bounds)
    let R (a : Arena) (w : Nat) (k : Json) : Prop := a.Denotes w k ∧ k.depth ≤ left
    have hR (a b : Arena) (w u : Nat) (k : Json) (hk : R a w k) (hi : Intact (· = u) a b)
        (hne : w ≠ u) :
        R b w k := ⟨hk.1.intact hi hne, hk.2⟩
    have hexport (a : Arena) (w : Nat) (k : Json) (hk : R a w k) :
        ((exportAt (processAt (levels + 1)) left w).run a).1 = .ok k ∧
          Intact (· = w) a ((exportAt (processAt (levels + 1)) left w).run a).2 := by
      obtain ⟨b, hrun, hab, hs⟩ := exists_shows_of_denotes levels hk.1
      obtain ⟨hresult, hi⟩ := ih (settle_of_shows hrun hs) hs hk.1.canonical hk.2
      exact ⟨hresult, hab.trans_new (Intact.mono hi fun _ _ hu => hu.1)⟩
    cases j with
    | arr items =>
      rw [Json.depth] at hd
      have hparts : b.Parts n (b.vertex v).elems items := hcomposed
      have hall := hparts.forall₂ (p := (·.depth ≤ left)) fun k hk => by
        have := Json.depth_le_of_mem hk
        omega
      obtain ⟨hresult, hi⟩ := Attempt.run_mapM_of_intact id hexport hR hall
        (by simpa using hparts.nodup)
      rw [exportShown, Attempt.run_bind_of_ok hresult]
      exact ⟨rfl, hparts.extends (hi.mono fun u _ hu => by simpa using hu)⟩
    | obj fields =>
      obtain ⟨fs, hperm, hfields⟩ : ∃ fs : List (String × Json), fs.Perm fields ∧
          b.Fields n (b.vertex v).arcs fs := hcomposed
      rw [Json.depth, Json.depthFields_eq] at hd
      have hall := hfields.forall₂ (p := (·.depth ≤ left)) fun k hk => by
        have := Json.depth_le_of_mem ((hperm.map _).mem_iff.mp hk)
        omega
      rw [Json.canonical, Bool.and_eq_true] at hc
      let S (a : Arena) (e : Label × Nat) (f : String × Json) : Prop :=
        e.1 = .regular f.1 ∧ R a e.2 f.2
      have hregular : (b.vertex v).fields.filter (·.1.isRegular) = (b.vertex v).fields := by
        rw [List.filter_eq_self, hfields.fields_eq]
        intro e he
        obtain ⟨p, hp, rfl⟩ := List.mem_map.mp he
        have hl := List.mem_map_of_mem (f := (·.1)) hp
        rw [hfields.labels] at hl
        obtain ⟨f, -, hf⟩ := List.mem_map.mp hl
        rw [← hf]
        rfl
      obtain ⟨hresult, hi⟩ := Attempt.run_mapM_of_intact (R := S) Prod.snd
        (f := fun e => do return (e.1.display, ← exportAt (processAt (levels + 1)) left e.2))
        (a := b)
        (fun a e f he => by
          obtain ⟨hk, hi⟩ := hexport a e.2 f.2 he.2
          rw [Attempt.run_bind_of_ok hk, he.1]
          exact ⟨rfl, hi⟩)
        (fun a b e k f he hi hne => ⟨he.1, hR a b _ _ _ he.2 hi hne⟩) hall
        (by rw [List.map_map]; exact hfields.parts.nodup)
      have hrun := Attempt.run_bind_of_ok hresult fun fields => pure (Json.ofFields fields)
      rw [exportShown, hregular, hfields.fields_eq]
      refine ⟨(congrArg Prod.fst hrun).trans (congrArg Except.ok (Json.ofFields_of_perm hperm hc.1)),
        Eq.substr (p := Extends (n ≤ ·) b) (congrArg Prod.snd hrun) (hfields.parts.extends ?_)⟩
      exact hi.mono fun u _ hu => by simpa using hu
    | null => exact ⟨rfl, Extends.refl _ b⟩
    | bool b => exact ⟨rfl, Extends.refl _ _⟩
    | int i => exact ⟨rfl, Extends.refl _ b⟩
    | float x => exact ⟨rfl, Extends.refl _ b⟩
    | str s => exact ⟨rfl, Extends.refl _ b⟩

/-! ## Validation -/

/-- What validation looks at in a vertex that shows host data. -/
def faultsShown (process : Nat → Eval Unit) (left : Nat) (concrete : Bool) (x : Vertex) :
    Json → Eval (List Fault)
  | .arr _ => do return (← x.elems.mapM (faultsAt process left concrete)).flatten
  | .obj _ => do
    let below ← x.fields.mapM fun (label, w) =>
      faultsAt process left (concrete && label.isRegular) w
    return below.flatten
  | _ => pure []

theorem run_faultsAt {process : Nat → Eval Unit} {left : Nat} (concrete : Bool)
    (hsettle : settle process v a = (v, b)) (hs : b.Shows n v j (j.toVal bounds)) :
    faultsAt process (left + 1) concrete v a =
      faultsShown process left concrete (b.vertex v) j b := by
  rw [faultsAt, run_bind, hsettle]
  dsimp only
  rw [run_bind, run_bind]
  dsimp only [vertex, view]
  rw [hs.val]
  have hpending : ¬ ((!(b.vertex v).pending.isEmpty) = true) := by simp [hs.pending]
  cases j <;> exact congrFun (if_neg hpending) b

/-- Host data has no faults, wherever a value is asked for. -/
theorem faultsAt_of_shows (levels left : Nat) (concrete : Bool)
    (hsettle : settle (processAt (levels + 1)) v a = (v, b)) (hs : b.Shows n v j (j.toVal bounds))
    (hd : j.depth ≤ left) :
    (faultsAt (processAt (levels + 1)) left concrete v a).1 = [] ∧
      Extends (n ≤ ·) b (faultsAt (processAt (levels + 1)) left concrete v a).2 := by
  induction left generalizing a b n v j bounds concrete with
  | zero => exact absurd hd (Nat.not_le_of_gt j.depth_pos)
  | succ left ih =>
    rw [run_faultsAt concrete hsettle hs]
    have hcomposed := hs.composed (j.isBottom_toVal bounds)
    let R (a : Arena) (w : Nat) (fs : List Fault) : Prop := fs = [] ∧ ∃ k, a.Denotes w k ∧
      k.depth ≤ left
    have hR (a b : Arena) (w u : Nat) (fs : List Fault) (hw : R a w fs) (hi : Intact (· = u) a b)
        (hne : w ≠ u) : R b w fs := by
      obtain ⟨hfs, k, hk, hd⟩ := hw
      exact ⟨hfs, k, hk.intact hi hne, hd⟩
    have hfaults (concrete : Bool) (a : Arena) (w : Nat) (fs : List Fault) (hw : R a w fs) :
        (faultsAt (processAt (levels + 1)) left concrete w a).1 = fs ∧
          Intact (· = w) a (faultsAt (processAt (levels + 1)) left concrete w a).2 := by
      obtain ⟨rfl, k, hk, hd⟩ := hw
      obtain ⟨b, hrun, hab, hs⟩ := exists_shows_of_denotes levels hk
      obtain ⟨hresult, hi⟩ := ih concrete (settle_of_shows hrun hs) hs hd
      exact ⟨hresult, hab.trans_new (Intact.mono hi fun _ _ hu => hu.1)⟩
    have hnone {α : Type} (is : List α) : (is.map fun _ => ([] : List Fault)).flatten = [] := by
      simp
    cases j with
    | arr items =>
      rw [Json.depth] at hd
      have hparts : b.Parts n (b.vertex v).elems items := hcomposed
      have hall : List.Forall₂ (R b) (b.vertex v).elems (items.map fun _ => []) := by
        rw [List.forall₂_map_right_iff]
        refine (hparts.forall₂ (p := (·.depth ≤ left)) fun k hk => ?_).imp
          fun w k hk => ⟨rfl, k, hk⟩
        have := Json.depth_le_of_mem hk
        omega
      obtain ⟨hresult, hi⟩ := run_mapM_of_intact id (hfaults concrete) hR hall
        (by simpa using hparts.nodup)
      rw [faultsShown, run_bind, hresult]
      exact ⟨hnone items, hparts.extends (hi.mono fun u _ hu => by simpa using hu)⟩
    | obj fields =>
      obtain ⟨fs, hperm, hfields⟩ : ∃ fs : List (String × Json), fs.Perm fields ∧
          b.Fields n (b.vertex v).arcs fs := hcomposed
      rw [Json.depth, Json.depthFields_eq] at hd
      let S (a : Arena) (e : Label × Nat) (fs : List Fault) : Prop := R a e.2 fs
      have hall : List.Forall₂ (S b) ((b.vertex v).arcs.map fun e => (e.1, e.2.vertex))
          (fs.map fun _ => []) := by
        rw [List.forall₂_map_right_iff]
        refine (hfields.forall₂ (p := (·.depth ≤ left)) fun k hk => ?_).imp
          fun e f he => ⟨rfl, f.2, he.2⟩
        have := Json.depth_le_of_mem ((hperm.map _).mem_iff.mp hk)
        omega
      obtain ⟨hresult, hi⟩ := run_mapM_of_intact (R := S) Prod.snd
        (f := fun e => faultsAt (processAt (levels + 1)) left (concrete && e.1.isRegular) e.2)
        (fun a e fs => hfaults _ a e.2 fs) (fun a b e k fs he hi hne => hR a b _ _ _ he hi hne) hall
        (by rw [List.map_map]; exact hfields.parts.nodup)
      rw [faultsShown, hfields.fields_eq, run_bind, hresult]
      exact ⟨hnone fs, hfields.parts.extends (hi.mono fun u _ hu => by simpa using hu)⟩
    | null => exact ⟨rfl, Extends.refl _ b⟩
    | bool b => exact ⟨rfl, Extends.refl _ _⟩
    | int i => exact ⟨rfl, Extends.refl _ b⟩
    | float x => exact ⟨rfl, Extends.refl _ b⟩
    | str s => exact ⟨rfl, Extends.refl _ b⟩

end Eval

end SchemaMock
