import SchemaMock.Proofs.Echo.Place

/-! # Validation of the built-in schema

Nothing is wrong with the fields of the built-in schema. Validation goes through them before it
comes to the functions, and changes nothing that the functions depend on.
-/

namespace SchemaMock

open Arena Eval

namespace Arena

/-- Validation finds nothing wrong with the vertex, and leaves the others as they are. -/
def Passes (levels left : Nat) (a : Arena) (v : Nat) : Prop :=
  ∃ b, faultsAt (processAt levels) left false v a = ([], b) ∧ Extends (· = v) a b

end Arena

namespace Eval

variable {a b : Arena} {v s : Nat} {parent : Option Nat} {paths : List Path}

theorem passes_condition (levels left : Nat) {t : Condition} (hlt : v < a.vertices.size)
    (hv : a.vertex v = .fresh parent paths [.of t.toExpr s false]) (ht : a.Clear s t)
    (hheight : t.height ≤ maxDepth) (hmeets : Condition.ruleOut [t] none = false)
    (hbelow : a.hasFillsBelow paths = false) : a.Passes (levels + 1) (left + 1) v := by
  have hheights : ∀ u ∈ [t], u.height ≤ maxDepth := List.forall_mem_singleton.mpr hheight
  have hbears : a.Bears [t] none [.of t.toExpr s false] := .cons ⟨rfl, ht⟩ .nil
  obtain ⟨b, hrun, hab, hfilled, -⟩ := exists_filled levels hlt hv hbears hheights hbelow
  obtain ⟨hbc, hfound⟩ := faultsAt_of_filled levels left false (settle_of_filled hrun hfilled)
    hfilled hheights
    nofun nofun
  refine ⟨_, Prod.ext (hfound.none ?_) rfl, ?_⟩
  · rw [hmeets]
    exact Bool.false_ne_true
  · have hab' : Extends (· = v) a b := hab.extends_self (by rw [hv]; exact Stage.noConfusion)
    exact hab'.trans_new hbc

theorem passes_anyList (levels left : Nat) (hlt : v < a.vertices.size)
    (hv : a.vertex v = .fresh parent paths [.of Mock.anyList s false])
    (hbelow : a.hasFillsBelow paths = false) : a.Passes (levels + 1) (left + 1) v := by
  have hselectors := fillSelectors_of_hasFillsBelow hbelow
  have hlists :
      List.Forall₂ Conjunct.IsList [.of Mock.anyList s false] [⟨[], some .top, s, false⟩] :=
    .cons ⟨rfl, rfl, rfl⟩ .nil
  obtain ⟨b, hrun, hab, hlist, -, -⟩ :=
    exists_enumerated levels hlt hv hlists (List.cons_ne_nil _ _) rfl
    (by rw [hselectors]; exact List.forall_mem_nil _)
  have hfaults : faultsAt (processAt (levels + 1)) (left + 1) false v a = _ :=
    faultsAt_of_list (settle_of_forward hrun hlist.forward) hlist.val hlist.pending
  rw [hlist.elems] at hfaults
  exact ⟨b, hfaults, hab⟩

theorem passes_limit (levels left : Nat) (hlt : v < a.vertices.size)
    (hv : a.vertex v = .fresh parent paths [.of Echo.limitExpr s false])
    (ht : a.Clear s Echo.countType) (hbelow : a.hasFillsBelow paths = false) :
    a.Passes (levels + 2) (left + 1) v := by
  have hval : Condition.narrow maxDepth [Echo.unlimited] .top = .atom (.int Mock.unbounded) := by
    rw [Echo.narrow_single (by decide)]
    rfl
  obtain ⟨b, w, hrun, hab, hsettles, hw⟩ := exists_settles_default levels (t := Echo.countType)
    (u := Echo.unlimited) hlt hv rfl ht nofun (by decide) hbelow (by rw [hval]; rfl)
  rw [hval] at hw
  refine ⟨b, faultsAt_of_atom (settle_of_settlesTo hrun hsettles) (by rw [hw]) (by rw [hw]; rfl),
    hab.extends_self ?_⟩
  rw [hv]
  exact Stage.noConfusion

theorem passes_pattern (levels left : Nat) {label value : Expr} (hlt : v < a.vertices.size)
    (hv : a.vertex v = .fresh parent paths [.of (.struct [.pattern label value]) s false])
    (hbelow : a.hasFillsBelow paths = false) : a.Passes (levels + 1) (left + 1) v := by
  let c : Conjunct := .of (.struct [.pattern label value]) s false
  let e := a.begin v
  let p : Pattern := ⟨label, value, e.scopes.size, false⟩
  let b := (e.addScope (.struct s [.pattern label value] v)).2.modify v (·.asPatterned p)
  have hs : (a.vertex v).stage = .pending := by rw [hv]; rfl
  have hstart : e.vertex v = { a.vertex v with stage := .processing } := vertex_begin hlt
  have hlte : v < e.vertices.size := by simpa [e] using hlt
  have hb : b.vertex v = (e.vertex v).asPatterned p := vertex_modify _ hlte
  rw [hstart, hv] at hb
  have hab : Intact (· = v) a b :=
    ((intact_begin a v).trans (intact_addScope _ e _)).trans (intact_modify_self _ v _)
  obtain ⟨rounds, hr⟩ : ∃ rounds, roundLimit e = rounds + 1 :=
    Nat.exists_eq_add_one.mpr (Nat.mul_pos (by decide) (Nat.succ_pos _))
  have hrounds : addRounds (processAt levels) v (roundLimit e) (e.vertex v).seeds e =
      (([c], []), b) := by
    have hadd : addConjunct (processAt levels) v c e = (.keep c, b) := addConjunct_pattern rfl rfl
    have hround : [c].mapM (addConjunct (processAt levels) v) e = ([.keep c], b) := by
      rw [run_mapM_cons, hadd]
      rfl
    have hseeds : (e.vertex v).seeds = [c] := by rw [hstart, hv]; rfl
    rw [hr, hseeds]
    exact addRounds_of_mapM hround rfl rfl rfl (addRounds_nil rounds)
  have hfinish : finish (processAt levels) v b = ((), b) := by
    have hval : (b.vertex v).val = .ofKinds .ofStruct := by rw [hb]; rfl
    have hbuild : buildList v b = ((), b) := by
      show (if !(b.vertex v).lists.isEmpty then _ else _ : Eval Unit) b = _
      rw [hb]
      rfl
    have hrequire : requireFilledParts v b = ((), b) := by
      refine requireFilledParts_of_fields hval ?_ ?_
      · rw [hb]
        exact List.forall_mem_nil _
      · rw [show (b.vertex v).paths = paths by rw [hb]; rfl, hab.fillSelectors,
          fillSelectors_of_hasFillsBelow hbelow]
        exact List.forall_mem_nil _
    have happly : applyPatterns (processAt levels) v b = ((), b) := by
      show (if !(b.vertex v).patterns.isEmpty then _ else _ : Eval Unit) b = _
      rw [hb]
      rfl
    show (if !(b.vertex v).val.isBottom then _ else _ : Eval Unit) b = _
    rw [hval, if_pos (by decide), run_bind, hbuild, run_bind, hrequire, run_bind, happly]
    exact checkClosed_of_eq_nil (by rw [hb]; rfl)
  have hrun : processAt (levels + 1) v a = ((), b.conclude v) :=
    processAt_of_unifySeeds hs ((unifySeeds_of_addRounds hrounds).trans hfinish)
  have hlast : (b.conclude v).vertex v = { b.vertex v with stage := .done } :=
    vertex_conclude (Nat.lt_of_lt_of_le hlt hab.size)
  rw [hb] at hlast
  refine ⟨b.conclude v, faultsAt_of_plain (settle_of_forward hrun ?_) ?_ ?_ ?_ ?_,
    (hab.trans (intact_conclude b v)).extends_self (by rw [hs]; decide)⟩
  all_goals rw [hlast]; rfl

/-- A struct passes if its fields do, whatever has happened to those before them. -/
theorem passes_struct (levels left : Nat) (ds : List (Label × Expr)) (hlt : v < a.vertices.size)
    (hv : a.vertex v = .fresh parent paths [.of (.struct (ds.map Decl.required)) s false])
    (hbelow : a.hasFillsBelow paths = false) (hds : (ds.map (·.1)).Nodup)
    (hparts : ∀ b, Extends (· = v) a b → b.scope a.scopes.size = .struct s (ds.map Decl.required) v →
      a.scopes.size < b.scopes.size → ∀ d ∈ ds, ∀ w < b.vertices.size,
        b.vertex w = .fresh (some v) (paths.map (·.child (.label d.1)))
          [.of d.2 a.scopes.size false] →
        b.Passes (levels + 1) left w) :
    ∃ b, faultsAt (processAt (levels + 1)) (left + 1) false v a = ([], b) ∧ Extends (· = v) a b ∧
      (b.vertex v).forward = none ∧ (b.vertex v).paths = paths ∧
      (b.vertex v).seeds = [.of (.struct (ds.map Decl.required)) s false] := by
  let n := a.vertices.size
  let c : Conjunct := .of (.struct (ds.map Decl.required)) s false
  let t : Table := ds.map fun d => (d.1, [.of d.2 a.scopes.size false])
  have hlabels : t.labels = ds.map (·.1) := List.map_map
  have hlength : t.length = ds.length := List.length_map _
  have hwhole : a.vertex v = { Vertex.fresh parent paths ([c] ++ []) with copied := [] } := by
    rw [hv]
    rfl
  have hfields : List.Forall₂ Conjunct.IsFields [c] [⟨ds, s, false⟩] :=
    .cons ⟨rfl, rfl, rfl, rfl⟩ .nil
  obtain ⟨b, hrun, hb⟩ := exists_assembled levels (t := t) hlt hwhole hfields (List.cons_ne_nil _ _)
    (List.forall_mem_nil _) (declareAll_nil hds).symm
    (by rw [fillSelectors_of_hasFillsBelow hbelow]; exact List.forall_mem_nil _)
    (fun p hp hclosed => by
      obtain rfl := List.mem_singleton.mp hp
      cases hclosed)
  have hab : Extends (· = v) a b := hb.intact.extends_self (by rw [hv]; exact Stage.noConfusion)
  have hself := hb.self
  rw [hv, hlabels] at hself
  have hscope : b.scope a.scopes.size = .struct s (ds.map Decl.required) v :=
    hb.scope (i := 0) Nat.zero_lt_one
  have hscopes : a.scopes.size < b.scopes.size := by rw [hb.scopes]; exact Nat.lt_succ_self _
  let f (e : Label × Nat) := faultsAt (processAt (levels + 1)) left (false && e.1.isRegular) e.2
  let R (c : Arena) (e : Label × Nat) (d : Label × Expr) : Prop := d ∈ ds ∧ n ≤ e.2 ∧
    e.2 < c.vertices.size ∧
    c.vertex e.2 = .fresh (some v) (paths.map (·.child (.label d.1))) [.of d.2 a.scopes.size false]
  have hf (c : Arena) (e : Label × Nat) (d : Label × Expr) (hI : Extends (n ≤ ·) b c)
      (hR : R c e d) :
      Extends (n ≤ ·) b (f e c).2 ∧ (f e c).1 = [] ∧
        Intact (fun u => u = e.2 ∨ False) c (f e c).2 := by
    obtain ⟨hd, hle, hltc, hvertex⟩ := hR
    obtain ⟨g, hfaults, hcg⟩ := hparts c (hab.trans_new hI) ((hI.scope hscopes).trans hscope)
      (Nat.lt_of_lt_of_le hscopes hI.scopes) d hd e.2 hltc hvertex
    rw [show f e c = ([], g) from hfaults]
    exact ⟨hI.trans (hcg.mono fun u _ hu => hu ▸ hle), rfl, Intact.mono hcg fun u _ hu => .inl hu.1⟩
  have hfields : (b.vertex v).fields = (ds.map (·.1)).zipIdx n := fields_of_arcsFrom (by rw [hself])
  have hstart : List.Forall₂ (R b) (b.vertex v).fields ds := by
    rw [hfields]
    refine List.forall₂_iff_get.mpr ⟨by simp, fun i _ hi => ?_⟩
    have hpart := hb.part (i := i) (by rw [hlength]; exact hi)
    have hlt' : n + i < b.vertices.size := by rw [hb.size, hlength]; omega
    have hlabel : ((ds.map (·.1)).zipIdx n).get ⟨i, by simpa using hi⟩ = (ds[i].1, n + i) := by simp
    have hnone (l : Selector) (seeds : List Conjunct) :
        a.fillsAt ((Vertex.fresh parent paths seeds).paths.map (·.child l)) = [] :=
          fillsAt_parts hbelow l
    rw [partVertex, hv, hnone] at hpart
    refine ⟨List.getElem_mem hi, ?_, ?_, ?_⟩
    all_goals rw [hlabel]
    · exact Nat.le_add_right n i
    · exact hlt'
    · rw [hpart]
      simp [t, Vertex.fresh]
  have hdistinct : ((b.vertex v).fields.map (·.2)).Nodup := by
    rw [hfields]
    simpa using List.nodup_range'
  obtain ⟨hwalk, hnone, -⟩ :=
    run_mapM_of_each (f := f) (Q := fun _ fs => fs = []) (·.2) (fun _ => False) hf
    (fun c d e e' x hR hi hne => ⟨hR.1, hR.2.1, Nat.lt_of_lt_of_le hR.2.2.1 hi.size,
      (hi.vertex hR.2.2.1 (by simpa using hne)).trans hR.2.2.2⟩) (.refl _ b) hstart hdistinct
  have hfaults : faultsAt (processAt (levels + 1)) (left + 1) false v a =
      (((b.vertex v).fields.mapM f b).1.flatten, ((b.vertex v).fields.mapM f b).2) :=
    faultsAt_of_struct (settle_of_forward hrun (by rw [hself]; rfl)) (by rw [hself]; rfl)
      (by rw [hself]; rfl)
  have hlast : (((b.vertex v).fields.mapM f b).2).vertex v = b.vertex v :=
    hwalk.vertex_of_done (by rw [hself])
  refine ⟨_, hfaults.trans (Prod.ext ?_ rfl), hab.trans_new hwalk, ?_, ?_, ?_⟩
  · exact flatten_of_forall₂ hnone
  all_goals rw [hlast, hself]; rfl

end Eval

namespace Echo

variable {a : Arena} {name : String} {ts : List Condition}

theorem Supplies.hasFillsBelow_of_nil (h : Supplies a name []) (ps : List Path) :
    a.hasFillsBelow ps = false := by
  rw [hasFillsBelow_eq_false_iff, h.fills]
  exact List.forall_mem_nil _

/-- The field of the built-in schema is yet to be processed. -/
def Unopened (a : Arena) (v : Nat) (d : Label × Expr) : Prop :=
  a.vertex v = .fresh (some root) [.field d.1] [.of d.2 baseScope false]

def errorFields : List (Label × Expr) := [(.regular "Error", .ident "string")]

theorem Ground.passes_error (levels left : Nat) (h : Ground a name ts) (hs : Supplies a name [])
    (hv : Unopened a 1 (.definition "Error", .struct (errorFields.map Decl.required))) :
    a.Passes (levels + 1) (left + 2) 1 := by
  let t : Condition := .type .string
  have hmeets : Condition.ruleOut [t] none = false := by
    rw [Condition.ruleOut, narrow_single (by decide)]
    rfl
  have hscopes := h.scopes
  obtain ⟨b, hrun, hab, -⟩ := passes_struct levels (left + 1) errorFields
    (Nat.lt_trans (by decide) h.size) hv (hs.hasFillsBelow_of_nil _) (by decide)
    fun b hab hscope hlt d hd w hw hvertex => by
      obtain rfl := List.mem_singleton.mp hd
      refine passes_condition levels left (t := t) hw hvertex ?_ (by decide) hmeets
        ((hs.intact hab).hasFillsBelow_of_nil _)
      refine ((h.clear t).intact hab Extends.not_done).within hlt hscope (Nat.lt_of_succ_lt hscopes)
        fun k hk => ?_
      obtain rfl := List.mem_singleton.mp hk
      decide
  exact ⟨b, hrun, hab⟩

theorem Ground.passes_vars (levels left : Nat) (h : Ground a name ts) (hs : Supplies a name [])
    (hv : Unopened a 3 (.regular Mock.varsName, .struct [.pattern (.ident "string") .top])) :
    a.Passes (levels + 1) (left + 1) 3 :=
  passes_pattern levels left (Nat.lt_trans (by decide) h.size) hv (hs.hasFillsBelow_of_nil _)

/-- The definition passes, and others can refer to it as before. -/
theorem Ground.passes_definition (levels left : Nat) (h : Ground a name ts)
    (hs : Supplies a name []) (hv : Unopened a definitionVertex (definitionLabel, .struct Mock.functionShape)) :
    ∃ b, faultsAt (processAt (levels + 2)) (left + 2) false definitionVertex a = ([], b) ∧
      Extends (· = definitionVertex) a b ∧ Ground b name ts := by
  have hscopes := h.scopes
  obtain ⟨b, hrun, hab, hforward, hpaths, hseeds⟩ := passes_struct (levels + 1) (left + 1) shape
    (Nat.lt_trans (by decide) h.size) hv (hs.hasFillsBelow_of_nil _) (by decide)
    fun b hab hscope hlt d hd w hw hvertex => by
      have hbelow := (hs.intact hab).hasFillsBelow_of_nil
        ([Path.field definitionLabel].map (·.child (.label d.1)))
      simp only [shape, List.mem_cons, List.not_mem_nil, or_false] at hd
      rcases hd with rfl | rfl | rfl
      · exact passes_anyList (levels + 1) left hw hvertex hbelow
      · exact passes_limit levels left hw hvertex (clear_within
          ((h.clear countType).intact hab Extends.not_done) hlt (Nat.lt_of_succ_lt hscopes) hscope
          (by decide)) hbelow
      · exact passes_anyList (levels + 1) left hw hvertex hbelow
  exact ⟨b, hrun, hab, h.extends hab (by decide) fun _ => ⟨hforward, hpaths, hseeds⟩⟩

/-! ## The whole -/

/-- If something is wrong with the conditions of the function, there is a fault below the
functions. -/
theorem faultsAt_funcs_ne_nil (levels left : Nat) (h : Ground a name ts) (hs : Supplies a name [])
    (heights : ∀ t ∈ ts, t.height ≤ maxDepth) (hname : Constraint.ofTypeName? name = none)
    (hflawed : (site ts heights a.scopes.size).Flawed []) :
    (faultsAt (processAt (levels + 3)) (left + 2) false funcsVertex a).1 ≠ [] := by
  obtain ⟨b, c, hrun, hl, hprocess, -, hdecided⟩ := exists_function levels h hs heights hname .nil
    (List.forall_mem_nil _) (Nat.zero_le _)
  obtain ⟨hforward, f, hval⟩ := hdecided.flawed hflawed
  have hself := hl.self
  rw [h.funcs] at hself
  have hfunction : faultsAt (processAt (levels + 3)) (left + 1) false a.vertices.size b =
      ([f.atPath (c.pathText a.vertices.size)], c) :=
    faultsAt_of_isBottom (settle_of_forward hprocess hforward) hval
  have hfields : (b.vertex funcsVertex).fields = [(.regular name, a.vertices.size)] := by
    rw [hself]
    rfl
  have hfaults : faultsAt (processAt (levels + 3)) (left + 2) false funcsVertex a = _ :=
    faultsAt_of_struct (settle_of_forward hrun (by rw [hself]; rfl)) (by rw [hself]; rfl)
      (by rw [hself]; rfl)
  rw [hfields] at hfaults
  dsimp only at hfaults
  rw [run_mapM_cons] at hfaults
  dsimp only at hfaults
  rw [Bool.false_and, hfunction] at hfaults
  rw [hfaults]
  exact List.cons_ne_nil _ _

/-- A file that passes has conditions that can be met. -/
theorem not_flawed_of_faults {package : Option String} {imports : List String}
    (heights : ∀ t ∈ ts, t.height ≤ maxDepth) (hname : Constraint.ofTypeName? name = none)
    (hfaults : (valueAt package imports name ts [] .root).faults false = []) (n : Nat) :
    ¬ (site ts heights n).Flawed [] := by
  intro hflawed
  obtain ⟨a, hrun, h, hs, hfields⟩ := exists_ground 255 package imports name ts []
  have hq : (valueAt package imports name ts [] .root).faults false =
      (Eval.faults evaluate false root a).1 := by
    refine Value.query_of_evaluate rfl ?_ h.stage h.forward _ _
    rw [Value.evaluate_eq]
    exact hrun
  have hsize := h.size
  have hall : Eval.faults evaluate false root a = _ :=
    faultsAt_of_struct (settle_of_forward (evaluate_of_stage (by rw [h.stage]; decide)) h.forward)
      h.val h.pending
  rw [fields_of_arcsFrom h.arcs] at hall
  rw [hq, hall] at hfaults
  obtain ⟨b, hb, hab⟩ : a.Passes (255 + 1) (254 + 2) 1 :=
    h.passes_error 255 254 hs (hfields 0 (by decide))
  have hgroundb := h.extends hab (by decide) fun h => absurd h (by decide)
  have hdefinition : b.vertex definitionVertex = a.vertex definitionVertex := by
    refine Intact.vertex hab (Nat.lt_trans (by decide) hsize) ?_
    rintro ⟨ho, -⟩
    exact absurd ho (by decide)
  obtain ⟨c, hc, hbc, hgroundc⟩ := hgroundb.passes_definition 254 254 (hs.intact hab)
    (hdefinition.trans (hfields 1 (by decide)))
  have hac : Extends (fun u => u = 1 ∨ u = definitionVertex) a c :=
    (hab.mono fun _ _ => .inl).trans (hbc.mono fun _ _ => .inr)
  have hvars : c.vertex 3 = a.vertex 3 := by
    refine Intact.vertex hac (Nat.lt_trans (by decide) hsize) ?_
    rintro ⟨ho | ho, -⟩ <;> exact absurd ho (by decide)
  obtain ⟨d, hd, hcd⟩ :=
    hgroundc.passes_vars 255 255 (hs.intact hac) (hvars.trans (hfields 2 (by decide)))
  have hgroundd := hgroundc.extends hcd (by decide) fun h => absurd h (by decide)
  have hfuncs := faultsAt_funcs_ne_nil 253 254 hgroundd ((hs.intact hac).intact hcd)
    heights hname hflawed
  rw [Value.evaluate_eq] at hfaults
  refine hfuncs ?_
  have hlast : ((baseFields.map (·.1)).zipIdx 1) =
      [(.definition "Error", 1), (definitionLabel, definitionVertex),
    (.regular Mock.varsName, 3), (funcsLabel, funcsVertex)] := rfl
  rw [hlast] at hfaults
  simp only [Nat.reduceAdd] at hb hc hd ⊢
  simp only [run_mapM_cons, Bool.false_and, maxDepth, Nat.reduceAdd, hb, hc, hd] at hfaults
  exact List.flatten_eq_nil_iff.mp hfaults _ (by simp)

end Echo

end SchemaMock
