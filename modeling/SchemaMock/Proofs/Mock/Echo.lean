import SchemaMock.Mock.Typed
import SchemaMock.Proofs.Echo.Query
import SchemaMock.Proofs.Expr.Comparison
import SchemaMock.Proofs.Expr.Rounds
import SchemaMock.Proofs.Mock.Quota
import SchemaMock.Proofs.Value

/-! # Calls of a function that returns its arguments

A call of such a function succeeds just if there are as many arguments as conditions, and each of
them meets its condition. It gives the arguments back.
-/

namespace SchemaMock

open Arena Eval

namespace Overload

theorem bindFrom_eq (v : Value) (index : Nat) (args : List Value) :
    bindFrom v index args = v.fillItems (.ofNames [Mock.argsName]) index args := by
  induction args generalizing v index with
  | nil => rfl
  | cons arg args ih => exact ih _ _

theorem returnsOf_eq_ok_iff {v : Value} {returns : List Value} :
    returnsOf v = .ok returns ↔
      ∃ items, (v.lookup (.ofNames [Mock.returnsName])).toJson = .ok (.arr items) ∧
        items.mapM Value.ofJson = .ok returns := by
  constructor
  · intro h
    obtain ⟨j, hj, h⟩ := Except.exists_of_bind_eq_ok h
    split at h
    case h_1 items => exact ⟨items, hj, Except.eq_ok_of_mapError h⟩
    case h_2 => cases h
  · rintro ⟨items, hj, h⟩
    rw [returnsOf, hj]
    exact congrArg (Except.mapError Fault.of) h

end Overload

namespace Condition

/-- Data is ruled out just if it does not meet the condition. -/
theorem ruleOut_some {t : Condition} (hheight : t.height ≤ maxDepth) (j : Json) :
    ruleOut [t, .any] (some j) = true ↔ admitsJson j t = false := by
  have hheights : ∀ u ∈ [t, .any], u.height ≤ maxDepth := by
    simp only [List.mem_cons, List.not_mem_nil, or_false, forall_eq_or_imp, forall_eq]
    exact ⟨hheight, by decide⟩
  rw [ruleOut_eq_true_iff hheights]
  simp [admitsJson_any]

end Condition

namespace Echo

variable {package : Option String} {imports : List String} {name : String} {ts : List Condition}
  {xs : List Expr}
  {args : List Json} {e : Echo} {a : Arena}

/-- The conditions of a file that is read take no more rounds than an evaluation has. -/
theorem height_of_parse {text : String}
    (h : SchemaFile.parse text = .ok (file package imports name ts)) :
    ∀ t ∈ ts, t.height ≤ maxDepth := by
  intro t ht
  have hfuncs := SchemaFile.shallow_of_parse h _ List.mem_cons_self _ List.mem_cons_self
  have hfunction : (declared ts).Shallow := hfuncs.within List.mem_cons_self
  have hstruct := hfunction.within (List.mem_cons_of_mem _ List.mem_cons_self)
  have hargs : (Expr.list (ts.map (·.toExpr)) none).Shallow := hstruct.within List.mem_cons_self
  have hcondition : t.toExpr.Shallow :=
    hargs.within (List.mem_append_left _ (List.mem_map_of_mem ht))
  exact hcondition.height_le

def Admits (ts : List Condition) (args : List Json) : Prop :=
  List.Forall₂ (fun t j => Condition.admitsJson j t = true) ts args

/-- Something is wrong with a function whose conditions can be met just if an argument does not meet
its own. -/
theorem excludes_iff (hlength : e.args.length = e.conditions.length)
    (hindex : ∀ i < e.conditions.length, Indexes i) :
    (∃ i ∈ List.range e.conditions.length, ¬ Indexes i ∨ e.Excludes i) ↔
    ¬ Admits e.conditions e.args := by
  have hone (i : Nat) (hi : i < e.conditions.length) (hi' : i < e.args.length) :
      (¬ Indexes i ∨ e.Excludes i) ↔ Condition.admitsJson e.args[i] e.conditions[i] = false := by
    rw [← Condition.ruleOut_some (e.heights _ (List.getElem_mem hi)), Excludes]
    simp [hi, hi', hindex i hi]
  rw [Admits, List.forall₂_iff_get, ← not_iff_not, not_not]
  simp only [List.mem_range, not_exists, not_and, List.get_eq_getElem]
  constructor
  · intro h
    refine ⟨hlength.symm, fun i hi hi' => ?_⟩
    rw [← Bool.not_eq_false]
    exact fun hno => h i hi ((hone i hi hi').mpr hno)
  · rintro ⟨-, hall⟩ i hi hwrong
    have hi' : i < e.args.length := by rw [hlength]; exact hi
    have := hall i hi hi'
    rw [(hone i hi hi').mp hwrong] at this
    cases this

/-! ## The value of the mock -/

theorem fillItems_valueAt (k : Nat) (fills : List Fill) (xs : List Expr) :
    (⟨sources package imports name ts, fills, functionPath name⟩ : Value).fillItems
      (.ofNames [Mock.argsName]) k (xs.map .ofExpr) =
    ⟨sources package imports name ts, fills ++ (xs.zipIdx k).map fun e => ⟨argPath name e.2, .expr e.1⟩,
      functionPath name⟩ := by
  induction xs generalizing k fills with
  | nil => simp [Value.fillItems]
  | cons x xs ih =>
    rw [List.map_cons, Value.fillItems, List.zipIdx_cons, List.map_cons, List.append_cons]
    exact ih (k + 1) _

theorem exists_values (hdepth : ∀ j ∈ args, j.depth ≤ maxDepth + 1) :
    ∃ xs, List.Forall₂ (fun j x => ∃ left, Expr.encode left j = .ok x) args xs ∧
      args.mapM Value.ofJson = .ok (xs.map Value.ofExpr) := by
  induction args with
  | nil => exact ⟨[], .nil, rfl⟩
  | cons j args ih =>
    obtain ⟨xs, hxs, hrest⟩ := ih fun k hk => hdepth k (List.mem_cons_of_mem j hk)
    obtain ⟨x, hx⟩ := Expr.exists_encode _ j (hdepth j List.mem_cons_self)
    refine ⟨x :: xs, .cons ⟨_, hx⟩ hxs, ?_⟩
    have hj : Value.ofJson j = .ok (.ofExpr x) := by rw [Value.ofJson, Expr.ofJson, hx]; rfl
    rw [List.mapM_cons, hj, hrest]
    rfl

end Echo

namespace Overload

variable {o : Overload} {n attempts : Nat} {values : List Value}

/-- Without a limit, a call with another number of arguments is rejected for that. -/
theorem judge_of_length (hm : o.maxCalls = .ok Mock.unbounded) (ha : o.arity = .ok n)
    (hn : n ≠ values.length) :
    o.judge attempts values = .rejected (.argumentCount n values.length) := by
  have hin : ¬ (Mock.unbounded < attempts ∧ attempts < Mock.unbounded) := by omega
  simp [judge, hm, ha, hn, hin]

/-- A call whose arguments do not fit is rejected with the faults. -/
theorem judge_of_faults {f : Fault} {fs : List Fault} (hm : o.maxCalls = .ok Mock.unbounded)
    (ha : o.arity = .ok values.length) (hf : (o.bind values).faults true = f :: fs) :
    o.judge attempts values = .rejected (.mismatch (f :: fs)) := by
  have hin : ¬ (Mock.unbounded < attempts ∧ attempts < Mock.unbounded) := by omega
  simp [judge, hm, ha, hf, hin]

end Overload

namespace Mock

variable {package : Option String} {imports : List String} {name text : String}
  {ts : List Condition} {m : Mock}
  {args : List Json}

theorem value_of_parse (hparse : SchemaFile.parse text = .ok (Echo.file package imports name ts))
    (hm : compile .empty .empty text = .ok m) :
    m.value = Echo.valueAt package imports name ts [] .root ∧
      (Echo.valueAt package imports name ts [] .root).faults false = [] := by
  obtain ⟨scope, fields, fs, hscope, hvalue, -, -, -⟩ := of_compile hm
  obtain rfl : base = scope := Except.ok.inj hscope
  rw [Value.compile, hparse] at hvalue
  simp only [Except.mapError, bind, Except.bind] at hvalue
  have hwhole : base.unify (.ofFile (Echo.file package imports name ts)) =
    Echo.valueAt package imports name ts [] .root := rfl
  rw [Value.inScope, hwhole] at hvalue
  split at hvalue
  case h_1 hnone => exact ⟨(Except.ok.inj hvalue).symm, hnone⟩
  case h_2 => cases hvalue

theorem find?_of_parse (hparse : SchemaFile.parse text = .ok (Echo.file package imports name ts))
    (hm : compile .empty .empty text = .ok m) (heights : ∀ t ∈ ts, t.height ≤ maxDepth)
    (hname : Constraint.ofTypeName? name = none)
    (hkinds : (Echo.valueAt package imports name ts [] (Echo.functionPath name)).kinds = .ofStruct) :
    ∃ e, m.find? name = some e ∧ e.function.name = name ∧
      e.function.overloads =
        [⟨0, Echo.valueAt package imports name ts [] (Echo.functionPath name)⟩] := by
  obtain ⟨scope, fields, fs, -, -, hfields, hfs, hentries⟩ := of_compile hm
  have hlookup : (Echo.valueAt package imports name ts [] .root).lookup (.ofNames [funcsName]) =
    Echo.valueAt package imports name ts [] (.field Echo.funcsLabel) := rfl
  rw [(value_of_parse hparse hm).1, hlookup, Echo.fields_eq package imports heights hname] at hfields
  cases hfields
  obtain ⟨f, hf, hfs⟩ := Except.exists_of_bind_eq_ok hfs
  cases hfs
  have hfname := MockFunction.name_of_ofValue hf
  rcases MockFunction.overloads_of_ofValue hf with ⟨-, ho⟩ | ⟨hlist, -⟩
  · refine ⟨entryOf f, ?_, hfname, ho⟩
    rw [find?, hentries]
    simp [entryOf, hfname]
  · rw [hkinds] at hlist
    cases hlist

/-- What a call of a function with a single overload comes to. -/
theorem resolve_single {f : MockFunction} {o : Overload} (ho : f.overloads = [o]) (l : Ledger)
    (values : List Value) : (f.resolve l values).1 = match o.verdict l values with
      | .accepted returns => .ok returns
      | .unreadable fault => .error (.schema f.name fault)
      | .rejected why => .error (.noMatch f.name [⟨o.index, why⟩]) := by
  rw [MockFunction.resolve, ho]
  rcases MockFunction.tryOverloads_cons f.name values [] l o [] with ⟨r, hv, hr⟩ | ⟨why, hv, hr⟩
  · rw [hr]
    cases h : o.verdict l values <;> rw [h] at hv <;> cases hv <;> rfl
  · rw [hr, hv]
    rfl

theorem mapM_id_ok (args : List Json) :
    (args.map Except.ok : List HostValue).mapM id = .ok args := by
  induction args with
  | nil => rfl
  | cons j args ih =>
    rw [List.map_cons, List.mapM_cons, ih]
    rfl

/-- Values of host data are decoded to the data. -/
theorem decodeFrom_some (k : Nat) {values : List Value}
    (hvalues : args.mapM Value.ofJson = .ok values) (hcanonical : ∀ j ∈ args, j.canonical = true) :
    decodeFrom name k (values.map (·, some)) = .ok args := by
  induction args generalizing k values with
  | nil => cases hvalues; rfl
  | cons j args ih =>
    rw [List.mapM_cons] at hvalues
    obtain ⟨v, hv, hvalues⟩ := Except.exists_of_bind_eq_ok hvalues
    obtain ⟨vs, hvs, hvalues⟩ := Except.exists_of_bind_eq_ok hvalues
    cases hvalues
    have hj := Value.toJson_of_ofJson hv (hcanonical j List.mem_cons_self)
    have hdecode : v.decode (some : Decoder Json) = .ok j := by rw [Value.decode, hj]; rfl
    rw [List.map_cons, decodeFrom, hdecode, ih (k + 1) hvs fun i hi => hcanonical i (List.mem_cons_of_mem j hi)]
    rfl

/-- The overload of the function, as it judges a call. -/
theorem judge_of_parse (hparse : SchemaFile.parse text = .ok (Echo.file package imports name ts))
    (hm : compile .empty .empty text = .ok m) (heights : ∀ t ∈ ts, t.height ≤ maxDepth)
    (hname : Constraint.ofTypeName? name = none) (hcanonical : ∀ j ∈ args, j.canonical = true)
    (hdepth : ∀ j ∈ args, j.depth < maxDepth) {values : List Value}
    (hvalues : args.mapM Value.ofJson = .ok values) {attempts : Nat}
    (hattempts : attempts ≤ unbounded) :
    let o : Overload := ⟨0, Echo.valueAt package imports name ts [] (Echo.functionPath name)⟩
    o.value.kinds = .ofStruct ∧
      (Echo.Admits ts args → o.judge attempts values = .accepted values) ∧
      (ts.length ≠ args.length → o.judge attempts values = .rejected (.argumentCount ts.length args.length)) ∧
      (ts.length = args.length → ¬ Echo.Admits ts args →
        ∃ f fs, o.judge attempts values = .rejected (.mismatch (f :: fs))) := by
  intro o
  have hsound := Echo.not_flawed_of_faults heights hname (value_of_parse hparse hm).2
  obtain ⟨e₀, a₀, hconditions₀, -, h₀⟩ := Echo.exists_standing package imports heights hname .nil
    (List.forall_mem_nil _) (Nat.zero_le _) hsound
  have hlimit : o.maxCalls = .ok unbounded := h₀.limit
  have harity : o.arity = .ok ts.length := hconditions₀ ▸ h₀.length
  have hvalueslength : values.length = args.length := Except.length_of_mapM hvalues
  obtain ⟨xs, hxs, hvalues'⟩ :=
    Echo.exists_values fun j hj => Nat.le_succ_of_le (Nat.le_of_lt (hdepth j hj))
  obtain rfl : values = xs.map Value.ofExpr := Except.ok.inj (hvalues.symm.trans hvalues')
  have hbind : o.bind (xs.map Value.ofExpr) = Echo.valueAt package imports name ts xs
      (Echo.functionPath name) := by
    rw [Overload.bind, Overload.bindFrom_eq]
    exact Echo.fillItems_valueAt 0 [] xs
  have hindex : ∀ i < ts.length, Echo.Indexes i := fun i hi => by
    by_contra hno
    exact hsound 0 ⟨i, List.mem_range.mpr hi, .inl hno⟩
  have hfilled (hlength : ts.length = args.length) : ∃ e a, e.conditions = ts ∧ e.args = args ∧
      Echo.Standing (o.bind (xs.map Value.ofExpr)) e a ∧
      Found (¬ Echo.Admits ts args) ((o.bind (xs.map Value.ofExpr)).faults true) := by
    obtain ⟨e, a, rfl, rfl, h⟩ := Echo.exists_standing package imports heights hname hxs hcanonical
      hlength.ge hsound
    rw [hbind]
    have hfound := h.faults hlength.symm hdepth
    rw [Echo.excludes_iff hlength.symm hindex] at hfound
    exact ⟨e, a, rfl, rfl, h, hfound⟩
  refine ⟨h₀.kinds, fun hadmits => ?_, fun hne => ?_, fun hlength hno => ?_⟩
  · have hlength : ts.length = args.length := List.Forall₂.length_eq hadmits
    obtain ⟨e, a, rfl, rfl, h, hfound⟩ := hfilled hlength
    have hmeets (i : Nat) (hi : i < e.conditions.length) : Echo.Indexes i ∧ ¬ e.Excludes i :=
      ⟨hindex i hi, fun hwrong => (Echo.excludes_iff hlength.symm hindex).mp
        ⟨i, List.mem_range.mpr hi, .inr hwrong⟩ hadmits⟩
    have hjson := h.returns hlength.symm hmeets fun j hj => ⟨hcanonical j hj, hdepth j hj⟩
    refine Overload.judge_of_accepts hlimit hattempts ⟨?_, hfound.none (not_not.mpr hadmits),
      Overload.returnsOf_eq_ok_iff.mpr ⟨_, hjson, hvalues⟩⟩
    rw [harity, hlength, hvalueslength]
  · rw [← hvalueslength] at hne ⊢
    exact Overload.judge_of_length hlimit harity hne
  · obtain ⟨e, a, -, -, -, hfound⟩ := hfilled hlength
    obtain ⟨g, hg, -⟩ := hfound.some hno
    obtain ⟨f, fs, hfs⟩ := List.exists_cons_of_ne_nil (List.ne_nil_of_mem hg)
    exact ⟨f, fs, Overload.judge_of_faults hlimit (by rw [harity, hlength, hvalueslength]) hfs⟩

/-- In every state that the mock can reach, a call gives the arguments back just if they are
admitted. -/
theorem echoes_of_run (hparse : SchemaFile.parse text = .ok (Echo.file package imports name ts))
    (hm : compile .empty .empty text = .ok m) (hname : Constraint.ofTypeName? name = none)
    (hcanonical : ∀ j ∈ args, j.canonical = true) (hdepth : ∀ j ∈ args, j.depth < maxDepth)
    (qs : List Request) :
    let r := ((m.replay qs).execValues name (args.map .ok)).1
    (r = .ok args ↔ Echo.Admits ts args) ∧
      (ts.length ≠ args.length → r = .error (.noMatch name [⟨0, .argumentCount ts.length args.length⟩])) ∧
      (ts.length = args.length → ¬ Echo.Admits ts args →
        ∃ f fs, r = .error (.noMatch name [⟨0, .mismatch (f :: fs)⟩])) := by
  intro r
  have heights := Echo.height_of_parse hparse
  obtain ⟨xs, -, hvalues⟩ :=
    Echo.exists_values fun j hj => Nat.le_succ_of_le (Nat.le_of_lt (hdepth j hj))
  have hjudge (n : Nat) := judge_of_parse hparse hm heights hname hcanonical hdepth hvalues
    (Nat.min_le_right (n + 1) unbounded)
  obtain ⟨e, he, hfname, ho⟩ := find?_of_parse hparse hm heights hname (hjudge 0).1
  obtain ⟨-, hl⟩ := entry_of_compile hm he
  obtain ⟨l, hfind, -, -⟩ := find?_replay (aligned_of_compile hm) he
    (fun i _ => by rw [hl, Ledger.slot_ofOverloads]; omega) qs
  have hr : r = (e.function.resolve l (xs.map Value.ofExpr)).1 >>= fun values =>
      decodeFrom name 0 (values.map (·, some)) := by
    show (((m.replay qs).callHost name (args.map .ok)).1 >>= _) = _
    rw [callHost, mapM_id_ok]
    dsimp only
    rw [call_of_find? hfind hvalues]
  obtain ⟨-, hok, hcount, hmismatch⟩ := hjudge (l.attemptsAt 0)
  rw [resolve_single ho, hfname] at hr
  have hcounted (hne : ts.length ≠ args.length) :
      r = .error (.noMatch name [⟨0, .argumentCount ts.length args.length⟩]) := by
    have hverdict : Overload.verdict _ l (xs.map Value.ofExpr) = _ := hcount hne
    rw [hr, hverdict]
    rfl
  have hmismatched (hlength : ts.length = args.length) (hno : ¬ Echo.Admits ts args) :
      ∃ f fs, r = .error (.noMatch name [⟨0, .mismatch (f :: fs)⟩]) := by
    obtain ⟨f, fs, hjudged⟩ := hmismatch hlength hno
    have hverdict : Overload.verdict _ l (xs.map Value.ofExpr) = _ := hjudged
    refine ⟨f, fs, ?_⟩
    rw [hr, hverdict]
    rfl
  refine ⟨⟨fun h => ?_, fun hadmits => ?_⟩, hcounted, hmismatched⟩
  · by_contra hno
    by_cases hlength : ts.length = args.length
    · obtain ⟨f, fs, hwhy⟩ := hmismatched hlength hno
      rw [hwhy] at h
      cases h
    · rw [hcounted hlength] at h
      cases h
  · have hverdict : Overload.verdict _ l (xs.map Value.ofExpr) = _ := hok hadmits
    rw [hr, hverdict]
    exact decodeFrom_some 0 hvalues hcanonical

/-- A positive number and whatever comes with it. -/
def pairText : String :=
  "funcs: F: #MockFunction & {args: [int & >0, _], returns: [args[0], args[1]]}"

def pairConditions : List Condition :=
  [.both (.type .int) (.bound .greater (.plain (.int 0))), .any]

theorem echoes_of_run_pair : ∃ m, compile .empty .empty pairText = .ok m ∧
    (m.execValues "F" [.ok (.int 2), .ok .null]).1 = .ok [.int 2, .null] := by
  obtain ⟨m, hm, -⟩ := exists_of_compilesTo pairText (fun _ => true) (by decide +kernel)
  have hparse : SchemaFile.parse pairText = .ok (Echo.file none [] "F" pairConditions) :=
    SchemaFile.parse_of_readsAs (by decide +kernel)
  have hargs : ∀ j ∈ [Json.int 2, .null], j.canonical = true ∧ j.depth < maxDepth := by
    simp only [List.mem_cons, List.not_mem_nil, or_false, forall_eq_or_imp, forall_eq]
    exact ⟨⟨rfl, by decide⟩, rfl, by decide⟩
  have hadmits : Echo.Admits pairConditions [.int 2, .null] :=
    .cons (by decide +kernel) (.cons rfl .nil)
  exact ⟨m, hm, (echoes_of_run hparse hm (by decide) (fun j hj => (hargs j hj).1) (fun j hj => (hargs j hj).2) []).1.mpr
    hadmits⟩

end Mock

end SchemaMock
