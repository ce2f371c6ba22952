import SchemaMock.Proofs.Echo.Base

/-! # Queries of a function

The path of a function leads through the root and the struct of the functions to its vertex, which
has been decided by then. A query of the function, or of one of its parts, runs on what the vertex
stands for.
-/

namespace SchemaMock

open Arena Eval

namespace Eval

variable {a b c : Arena} {p : Path} {u v w : Nat}

def Leads (a : Arena) (p : Path) (v : Nat) (b : Arena) : Prop :=
  ∀ rest, ((p.selectors ++ rest).foldlM (select evaluate) root).run a =
    (rest.foldlM (select evaluate) v).run b

theorem leads_root (a : Arena) : Leads a .root root a := fun _ => rfl

/-- A path goes on with a part of what its vertex has settled to. -/
theorem Leads.child (h : Leads a p v b) (harrive : arrive evaluate v b = (w, c))
    (hdisjuncts : (c.vertex w).disjuncts = []) {s : Selector}
    (hpart : (c.vertex w).part? s = some u) : Leads a (p.child s) u c := by
  intro rest
  have hselectors : (p.child s).selectors ++ rest = p.selectors ++ s :: rest := by simp [Path.child]
  rw [hselectors, h, List.foldlM_cons, Attempt.run_bind,
    run_select_of_part harrive hdisjuncts hpart]

theorem Leads.query {α : Type} {x : Value} (h : Leads (ofInputs x.sources x.fills) x.path v b)
    (harrive : arrive evaluate v b = (w, c)) (onFault : Fault → α) (onVertex : Nat → Eval α) :
    x.query onFault onVertex = (onVertex w c).1 := by
  have hlookup : (Eval.lookup x.path).run (ofInputs x.sources x.fills) = (.ok w, c) := by
    have hend := h []
    rw [List.append_nil] at hend
    rw [lookup_eq, Attempt.run_bind, hend]
    show (Attempt.perform (arrive evaluate v)).run b = _
    rw [Attempt.run_perform, harrive]
  rw [Value.query_eq, hlookup]

/-- The parts of a vertex that stands for itself can be listed. -/
theorem run_listable (hsettle : settle evaluate v a = (w, b)) (h : partsObstacle? b w = none) :
    (listable v).run a = (.ok w, b) := by
  rw [listable, Attempt.run_bind, Attempt.run_perform, hsettle]
  dsimp only
  rw [Attempt.run_bind, Attempt.run_perform]
  dsimp only [view]
  rw [h]
  rfl

end Eval

namespace Echo

variable {e : Echo} {a : Arena} {x : Value}

/-- Queries of a value find the function. -/
structure Standing (x : Value) (e : Echo) (a : Arena) : Prop where
  formed : e.Formed a
  walkable : e.Walkable a
  leads : ∃ u c, Leads (ofInputs x.sources x.fills) x.path u c ∧ arrive evaluate u c = (e.vertex, a)

theorem Standing.query {α : Type} (h : Standing x e a) (onFault : Fault → α)
    (onVertex : Nat → Eval α) : x.query onFault onVertex = (onVertex e.vertex a).1 := by
  obtain ⟨u, c, hleads, harrive⟩ := h.leads
  exact hleads.query harrive onFault onVertex

theorem Standing.settle (h : Standing x e a) : settle evaluate e.vertex a = (e.vertex, a) :=
  settle_of_forward (evaluate_of_stage (by rw [h.formed.stage]; decide)) h.formed.forward

/-- A query of a part runs on what the vertex of the part stands for. -/
theorem Standing.query_part {α : Type} (h : Standing x e a) {l : Label} {v w : Nat} {b : Arena}
    (harc : (a.vertex e.vertex).arc? l = some ⟨v, true⟩)
    (hsettle : Eval.settle evaluate v a = (w, b)) (hstage : (b.vertex w).stage = .done)
    (onFault : Fault → α) (onVertex : Nat → Eval α) :
    (x.lookup ⟨[.label l]⟩).query onFault onVertex = (onVertex w b).1 := by
  obtain ⟨u, c, hleads, harrive⟩ := h.leads
  have hchild : Leads (ofInputs x.sources x.fills) (x.path.child (.label l)) v a :=
    hleads.child harrive h.formed.disjuncts (by rw [Vertex.part?, harc]; rfl)
  exact Leads.query (x := x.lookup ⟨[.label l]⟩) hchild (arrive_of_settle hsettle hstage)
    onFault onVertex

theorem Formed.arc? (h : e.Formed a) {i : Nat} (hi : i < 3) :
    (a.vertex e.vertex).arc? [argsLabel, returnsLabel, limitLabel][i] =
      some ⟨e.first + i, true⟩ := by
  rw [Vertex.arc?, h.arcs]
  obtain rfl | rfl | rfl : i = 0 ∨ i = 1 ∨ i = 2 := by omega
  all_goals rfl

theorem Standing.kinds (h : Standing x e a) : x.kinds = .ofStruct := by
  rw [Value.kinds, h.query, kindsOf, run_bind, run_bind, h.settle]
  show (a.vertex e.vertex).val.kinds = _
  rw [h.formed.val]
  rfl

/-- The parts that are asked for before anything is filled in. -/
theorem Walkable.args (h : e.Walkable a) : e.Untouched a ∨ ∃ n, e.Stocked a n := by
  rcases h with h | ⟨h, -, -⟩
  · exact .inl h.args
  · obtain ⟨m, hm⟩ := h.results
    exact .inr ((hm.stocked h.args).imp fun _ hn => hn.1)

theorem Walkable.results (h : e.Walkable a) : e.Unreturned a ∨ ∃ m, e.Echoed a m ∧
    e.Expects a m := by
  rcases h with h | ⟨h, hnone, hindex⟩
  · exact .inl h.results
  · obtain ⟨m, hm⟩ := h.results
    exact .inr ⟨m, hm, fun i hi hwhy => absurd (hindex i hi) (hwhy.resolve_left (by simp [hnone]))⟩

theorem Walkable.limit (h : e.Walkable a) : e.Unlimited a ∨ ∃ w, e.Limit a w :=
  h.imp (·.limit) (·.1.limit)

/-- A function has as many arguments as conditions. -/
theorem Standing.length (h : Standing x e a) :
    (x.lookup (.ofNames [Mock.argsName])).length = .ok e.conditions.length := by
  obtain ⟨b, n, hsettle, -, hstocked, -⟩ :=
    exists_settle_args (P := fun _ _ => True) 255 h.formed.stands
    (h.walkable.args.imp_right fun ⟨n, hn⟩ => ⟨n, hn, trivial⟩) fun _ _ _ => trivial
  have hlist := hstocked.list
  have hagain : Eval.settle evaluate e.first b = (e.first, b) :=
    settle_of_forward (evaluate_of_stage (by rw [hlist.stage]; decide)) hlist.forward
  have hobstacle : partsObstacle? b e.first = none := by
    simp only [partsObstacle?, hlist.val, hlist.disjuncts]
    rfl
  have hlength : (lengthOf e.first).run b = (.ok e.conditions.length, b) := by
    rw [lengthOf, Attempt.run_bind, run_listable hagain hobstacle]
    dsimp only
    rw [Attempt.run_bind, Attempt.run_perform]
    dsimp only [Eval.vertex]
    rw [hlist.val, if_pos (by rfl), hlist.elems, List.length_range']
    rfl
  have hquery : (x.lookup (.ofNames [Mock.argsName])).length = ((lengthOf e.first).run b).1 :=
    h.query_part (h.formed.arc? (i := 0) (by decide)) hsettle hlist.stage _ _
  rw [hquery, hlength]

/-- There is no limit to its calls. -/
theorem Standing.limit (h : Standing x e a) :
    (x.lookup (.ofNames [Mock.maxCallsName])).toNat = .ok Mock.unbounded := by
  obtain ⟨b, w, hsettle, -, hw⟩ := exists_settle_limit 254 h.formed.stands h.walkable.limit
  have hlast := hw.settles.last
  have hagain : Eval.settle evaluate w b = (w, b) :=
    settle_of_settlesTo (evaluate_of_stage (by rw [hlast.stage]; decide)) hlast
  have hexport : (exportVertex evaluate w).run b = (.ok (.int Mock.unbounded), b) :=
    run_exportAt_of_atom hagain hw.val hw.pending hlast.stage rfl
  have hquery : (x.lookup (.ofNames [Mock.maxCallsName])).attempt (exportVertex evaluate) =
      ((exportVertex evaluate w).run b).1 :=
    h.query_part (h.formed.arc? (i := 2) (by decide)) hsettle hlast.stage _ _
  rw [Value.toNat, Value.toJson, hquery, hexport]
  rfl

/-- A function has faults if something is wrong with its conditions, or the data for them. -/
theorem Standing.faults (h : Standing x e a) (hlength : e.args.length = e.conditions.length)
    (hdepth : ∀ j ∈ e.args, j.depth < maxDepth) :
    Found (∃ i ∈ List.range e.conditions.length, ¬ Indexes i ∨ e.Excludes i) (x.faults true) := by
  have hpassed : true = true → ∀ i < e.conditions.length, e.args[i]?.isSome = true :=
    fun _ i hi => by
    rw [← hlength] at hi
    simp [hi]
  obtain ⟨-, -, hfound⟩ := faultsAt_function 254 254 h.formed h.walkable hpassed fun j hj =>
    Nat.le_of_lt_succ (hdepth j hj)
  rw [Value.faults, h.query]
  exact hfound

/-- If nothing is wrong, it returns its arguments. -/
theorem Standing.returns (h : Standing x e a) (hlength : e.args.length = e.conditions.length)
    (hmeets : ∀ i < e.conditions.length, Indexes i ∧ ¬ e.Excludes i)
    (hdata : ∀ j ∈ e.args, j.canonical = true ∧ j.depth < maxDepth) :
    (x.lookup (.ofNames [Mock.returnsName])).toJson = .ok (.arr e.args) := by
  obtain ⟨b, m, hsettle, hab, hechoed, hexpects⟩ :=
    exists_settle_returns 255 h.formed.stands h.walkable.args
    h.walkable.results
  have hexport : ((exportVertex evaluate (e.first + 1)).run b).1 = .ok (.arr e.args) :=
    exportAt_returns 254 256 hechoed.stands (hechoed.args.imp_right fun ⟨n, hn, _⟩ => ⟨n, hn⟩)
      (.inr ⟨m, hechoed, hexpects⟩) hlength hmeets fun j hj => ⟨(hdata j hj).1,
      Nat.le_of_lt (hdata j hj).2⟩
  have hquery : (x.lookup (.ofNames [Mock.returnsName])).attempt (exportVertex evaluate) =
      ((exportVertex evaluate (e.first + 1)).run b).1 :=
    h.query_part (h.formed.arc? (i := 1) (by decide)) hsettle hechoed.list.stage _ _
  rw [Value.toJson, hquery, hexport]
  rfl

/-! ## The way to the function -/

variable {package : Option String} {imports : List String} {name : String} {ts : List Condition}
  {xs : List Expr}
  {args : List Json}

/-- The struct of the functions is done, and the function at `v` is its only field. -/
structure Lists (a : Arena) (name : String) (v : Nat) : Prop where
  stage : (a.vertex funcsVertex).stage = .done
  forward : (a.vertex funcsVertex).forward = none
  disjuncts : (a.vertex funcsVertex).disjuncts = []
  val : (a.vertex funcsVertex).val = .ofKinds .ofStruct
  arcs : (a.vertex funcsVertex).arcs = [(.regular name, ⟨v, true⟩)]

/-- The vertex of the functions lists the function, which is decided when it is processed. -/
theorem exists_leads (package : Option String) (imports : List String)
    (heights : ∀ t ∈ ts, t.height ≤ maxDepth) (hname : Constraint.ofTypeName? name = none)
    (hargs : List.Forall₂ (fun j x => ∃ left, Expr.encode left j = .ok x) args xs)
    (hcanonical : ∀ j ∈ args, j.canonical = true) (hlength : args.length ≤ ts.length) :
    ∃ a b c v n, Leads (ofInputs (sources package imports name ts) (argFills name xs))
      (.field funcsLabel) funcsVertex a ∧
      arrive evaluate funcsVertex a = (funcsVertex, b) ∧ Lists b name v ∧ evaluate v b = ((), c) ∧
      (site ts heights n).Decided args .done c v := by
  obtain ⟨a, hrun, h, hs, -⟩ := exists_ground 255 package imports name ts xs
  obtain ⟨b, c, hfuncs, hl, hprocess, -, hdecided⟩ :=
    exists_function 253 h hs heights hname hargs hcanonical hlength
  have hself := hl.self
  rw [h.funcs] at hself
  have hlists : Lists b name a.vertices.size :=
    ⟨by rw [hself], by rw [hself]; rfl, by rw [hself]; rfl, by rw [hself], by rw [hself]⟩
  have hroot :
      arrive evaluate root (ofInputs (sources package imports name ts) (argFills name xs)) =
        (root, a) :=
    arrive_of_settle (settle_of_forward hrun h.forward) h.stage
  have hpart : (a.vertex root).part? (.label funcsLabel) = some funcsVertex := by
    rw [Vertex.part?, Vertex.arc?, h.arcs]
    rfl
  refine ⟨a, b, c, _, _, (leads_root _).child hroot h.disjuncts hpart,
    arrive_of_settle (settle_of_forward hfuncs hlists.forward) hlists.stage, hlists,
    hprocess, hdecided⟩

/-- The function stands, if nothing is wrong with its conditions. -/
theorem exists_standing (package : Option String) (imports : List String)
    (heights : ∀ t ∈ ts, t.height ≤ maxDepth) (hname : Constraint.ofTypeName? name = none)
    (hargs : List.Forall₂ (fun j x => ∃ left, Expr.encode left j = .ok x) args xs)
    (hcanonical : ∀ j ∈ args, j.canonical = true) (hlength : args.length ≤ ts.length)
    (hsound : ∀ n, ¬ (site ts heights n).Flawed []) :
    ∃ e a, e.conditions = ts ∧ e.args = args ∧
      Standing (valueAt package imports name ts xs (functionPath name)) e a := by
  obtain ⟨a, b, c, v, n, hleads, harrive, hlists, hprocess, hdecided⟩ :=
    exists_leads package imports heights hname hargs hcanonical hlength
  obtain ⟨e, hstood⟩ := hdecided.sound (hsound n)
  have hpart : (b.vertex funcsVertex).part? (.label (.regular name)) = some v := by
    rw [Vertex.part?, Vertex.arc?, hlists.arcs]
    simp
  have hformed := hstood.holds.formed
  have hsettles : c.SettlesTo v e.vertex :=
    .there hdecided.stage hstood.forward hstood.after (.here hformed.stage hformed.forward)
  refine ⟨e, c, hstood.holds.conditions, hstood.holds.args, hformed, hstood.walkable, v, b,
    hleads.child harrive hlists.disjuncts hpart, ?_⟩
  exact arrive_of_settle (settle_of_settlesTo hprocess hsettles) hformed.stage

/-- The function is the only field of the functions. -/
theorem fields_eq (package : Option String) (imports : List String)
    (heights : ∀ t ∈ ts, t.height ≤ maxDepth) (hname : Constraint.ofTypeName? name = none) :
    (valueAt package imports name ts [] (.field funcsLabel)).fields = .ok
      [(.label (.regular name), valueAt package imports name ts [] (functionPath name))] := by
  obtain ⟨a, b, c, v, n, hleads, harrive, hlists, -, -⟩ :=
    exists_leads package imports heights hname .nil (List.forall_mem_nil _) (Nat.zero_le _)
  have hagain : Eval.settle evaluate funcsVertex b = (funcsVertex, b) :=
    settle_of_forward (evaluate_of_stage (by rw [hlists.stage]; decide)) hlists.forward
  have hobstacle : partsObstacle? b funcsVertex = none := by
    simp only [partsObstacle?, hlists.val, hlists.disjuncts]
    rfl
  have hfields : (fieldsOf funcsVertex).run b = (.ok [.label (.regular name)], b) := by
    rw [fieldsOf, Attempt.run_bind, run_listable hagain hobstacle]
    dsimp only
    rw [Attempt.run_bind, Attempt.run_perform]
    dsimp only [Eval.vertex]
    rw [hlists.val, if_pos (by rfl), Vertex.fields, hlists.arcs]
    rfl
  have hquery : (valueAt package imports name ts [] (.field funcsLabel)).attempt fieldsOf =
      ((fieldsOf funcsVertex).run b).1 :=
      Leads.query (x := valueAt package imports name ts [] _) hleads harrive _ _
  rw [Value.fields, hquery, hfields]
  rfl

end Echo

end SchemaMock
