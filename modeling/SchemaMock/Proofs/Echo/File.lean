import SchemaMock.Proofs.Echo.Listing
import SchemaMock.Proofs.Eval.Record
import SchemaMock.Proofs.Fields

/-! # The file of a function

A file declares one function. With the built-in schema it makes up a root of four fields. The struct
of the functions is the last of them, and the definition of functions the second.
-/

namespace SchemaMock

open Arena Eval

namespace Echo

def funcsLabel : Label := .regular Mock.funcsName

def baseFields : List (Label × Expr) :=
  [(.definition "Error", .struct [Decl.required (.regular "Error", .ident "string")]),
    (definitionLabel, .struct Mock.functionShape),
    (.regular Mock.varsName, .struct [.pattern (.ident "string") .top]),
    (funcsLabel, .struct [.pattern (.ident "string") Mock.functionOrOverloads])]

def declared (ts : List Condition) : Expr :=
  .binary .unify (.ident definitionName) (.struct ((fields ts).map Decl.required))

def fileFields (name : String) (ts : List Condition) : List (Label × Expr) :=
  [(funcsLabel, .struct [Decl.required (.regular name, declared ts)])]

/-- The file `funcs: name: #MockFunction & {args: [...], returns: [args[0], ...]}`. -/
def file (package : Option String) (imports : List String) (name : String) (ts : List Condition) :
    SchemaFile :=
  ⟨package, imports, (fileFields name ts).map Decl.required⟩

def sources (package : Option String) (imports : List String) (name : String)
    (ts : List Condition) :
    List Input := [.file Mock.baseFile, .file (file package imports name ts)]

def baseScope : Nat := 3
def fileScope : Nat := 4

/-- The vertices of the definition and of the struct of the functions. -/
def definitionVertex : Nat := 2
def funcsVertex : Nat := 4

def functionPattern : Conjunct :=
  .of (.struct [.pattern (.ident "string") Mock.functionOrOverloads]) baseScope false

def functionField (name : String) (ts : List Condition) : Conjunct :=
  .of (.struct [Decl.required (.regular name, declared ts)]) fileScope false

/-- The arena in which the struct of the functions is yet to be processed. -/
structure Ground (a : Arena) (name : String) (ts : List Condition) : Prop where
  stage : (a.vertex root).stage = .done
  parent : (a.vertex root).parent = none
  forward : (a.vertex root).forward = none
  disjuncts : (a.vertex root).disjuncts = []
  pending : (a.vertex root).pending = []
  val : (a.vertex root).val = .ofKinds .ofStruct
  arcs : (a.vertex root).arcs = arcsFrom 1 (baseFields.map (·.1))
  size : funcsVertex < a.vertices.size
  scopes : fileScope < a.scopes.size
  outer : ∃ imports, a.scope 1 = .root imports
  outside : ∃ imports, a.scope 2 = .root imports
  base : a.scope baseScope = .struct 1 (baseFields.map Decl.required) root
  file : a.scope fileScope = .struct 2 ((fileFields name ts).map Decl.required) root
  definition : (a.vertex definitionVertex).forward = none ∧
    (a.vertex definitionVertex).paths = [.field definitionLabel] ∧
    (a.vertex definitionVertex).seeds = [.of (.struct Mock.functionShape) baseScope false]
  funcs : a.vertex funcsVertex =
    .fresh (some root) [.field funcsLabel] [functionPattern, functionField name ts]

variable {a b : Arena} {own : Nat → Prop} {name : String} {ts : List Condition}

theorem Ground.extends (h : Ground a name ts) (hi : Extends own a b) (hfuncs : ¬ own funcsVertex)
    (hdefinition : own definitionVertex → (b.vertex definitionVertex).forward = none ∧
      (b.vertex definitionVertex).paths = [.field definitionLabel] ∧
      (b.vertex definitionVertex).seeds = [.of (.struct Mock.functionShape) baseScope false]) :
    Ground b name ts := by
  have hroot : b.vertex root = a.vertex root := hi.vertex_of_done h.stage
  have hlt : definitionVertex < a.vertices.size := Nat.lt_trans (by decide) h.size
  have hscope {s : Nat} (hs : s ≤ fileScope) : b.scope s = a.scope s :=
    hi.scope (Nat.lt_of_le_of_lt hs h.scopes)
  refine ⟨?_, ?_, ?_, ?_, ?_, ?_, ?_, Nat.lt_of_lt_of_le h.size hi.size,
    Nat.lt_of_lt_of_le h.scopes hi.scopes, ?_, ?_, ?_, ?_, ?_, ?_⟩
  · rw [hroot]; exact h.stage
  · rw [hroot]; exact h.parent
  · rw [hroot]; exact h.forward
  · rw [hroot]; exact h.disjuncts
  · rw [hroot]; exact h.pending
  · rw [hroot]; exact h.val
  · rw [hroot]; exact h.arcs
  · rw [hscope (by decide)]; exact h.outer
  · rw [hscope (by decide)]; exact h.outside
  · rw [hscope (by decide)]; exact h.base
  · rw [hscope (by decide)]; exact h.file
  · by_cases ho : own definitionVertex
    · exact hdefinition ho
    · rw [Intact.vertex hi hlt fun h => ho h.1]
      exact h.definition
  · rw [Intact.vertex hi h.size fun h => hfuncs h.1]
    exact h.funcs

/-! ## The arguments as fills -/

def functionPath (name : String) : Path := (Path.field funcsLabel).child (.label (.regular name))

def argPath (name : String) (i : Nat) : Path :=
  ((functionPath name).child (.label argsLabel)).child (.index i)

def argFills (name : String) (xs : List Expr) : List Fill :=
  xs.zipIdx.map fun e => ⟨argPath name e.2, .expr e.1⟩

def valueAt (package : Option String) (imports : List String) (name : String) (ts : List Condition)
    (xs : List Expr) (p : Path) : Value := ⟨sources package imports name ts, argFills name xs, p⟩

theorem mem_argFills {xs : List Expr} {fill : Fill} : fill ∈ argFills name xs ↔
    ∃ i x, xs[i]? = some x ∧ fill = ⟨argPath name i, .expr x⟩ := by
  simp only [argFills, List.mem_map, Prod.exists]
  constructor
  · rintro ⟨x, i, hmem, rfl⟩
    exact ⟨i, x, List.mem_zipIdx_iff_getElem?.mp hmem, rfl⟩
  · rintro ⟨i, x, hx, rfl⟩
    exact ⟨x, i, List.mem_zipIdx_iff_getElem?.mpr hx, rfl⟩

theorem argPath_inj {i k : Nat} (h : argPath name i = argPath name k) : i = k := by
  injection h with hselectors
  have hlast := congrArg List.getLast? hselectors
  exact Selector.index.inj (Option.some.inj hlast)

theorem length_argPath (name : String) (i : Nat) : (argPath name i).length = 4 := rfl

/-- The fills are the arguments, and none is held back. -/
structure Supplies (a : Arena) (name : String) (xs : List Expr) : Prop where
  fills : a.fills = argFills name xs
  seen : ∀ fill ∈ a.fills, a.isWithheld fill.path = false

variable {xs : List Expr}

theorem Supplies.intact (h : Supplies a name xs) (hi : Intact own a b) : Supplies b name xs where
  fills := hi.fills.trans h.fills
  seen fill hfill := by
    rw [hi.fills] at hfill
    rw [hi.withheld fill hfill]
    exact h.seen fill hfill

/-- No argument stands at other paths. -/
theorem Supplies.fillsAt_eq_nil (h : Supplies a name xs) {ps : List Path}
    (hps : ∀ i, argPath name i ∉ ps) : a.fillsAt ps = [] := by
  simp only [fillsAt, List.map_eq_nil_iff, List.filter_eq_nil_iff, Bool.and_eq_true, not_and]
  intro fill hfill hat
  rw [h.fills] at hfill
  obtain ⟨i, x, -, rfl⟩ := mem_argFills.mp hfill
  exact absurd (List.contains_iff_mem.mp hat) (hps i)

theorem Supplies.fillsAt_of_length (h : Supplies a name xs) {ps : List Path}
    (hps : ∀ p ∈ ps, p.length ≠ 4) : a.fillsAt ps = [] :=
  h.fillsAt_eq_nil fun i hmem => hps _ hmem (length_argPath name i)

theorem Supplies.mem_fillSelectors (h : Supplies a name xs) {ps : List Path} {s : Selector}
    (hs : s ∈ a.fillSelectors ps) :
    ∃ i < xs.length, ∃ p ∈ ps, (argPath name i).startsWith p = true ∧
      (argPath name i).selectors[p.length]? = some s := by
  obtain ⟨fill, hfill, p, hp, hstarts, hsome⟩ := Arena.mem_fillSelectors hs
  rw [h.fills] at hfill
  obtain ⟨i, x, hx, rfl⟩ := mem_argFills.mp hfill
  exact ⟨i, (List.getElem?_eq_some_iff.mp hx).1, p, hp, hstarts, hsome⟩

theorem Supplies.hasFillsBelow_eq_false (h : Supplies a name xs) {ps : List Path}
    (hps : ∀ p ∈ ps, ∀ i, p.length < 4 → (argPath name i).startsWith p = false) :
    a.hasFillsBelow ps = false := by
  rw [hasFillsBelow_eq_false_iff, h.fills]
  rintro fill hfill p hp ⟨hlt, hstarts⟩
  obtain ⟨i, x, -, rfl⟩ := mem_argFills.mp hfill
  rw [hps p hp i hlt] at hstarts
  cases hstarts

theorem filter_zipIdx (xs : List Expr) (k i : Nat) :
    (xs.zipIdx k).filter (fun e => decide (e.2 = k + i)) =
      xs[i]?.toList.map fun x => (x, k + i) := by
  induction xs generalizing k i with
  | nil => rfl
  | cons x xs ih =>
    cases i with
    | zero =>
      have hrest : (xs.zipIdx (k + 1)).filter (fun e => decide (e.2 = k + 0)) = [] := by
        refine List.filter_eq_nil_iff.mpr fun e he => ?_
        have := List.le_snd_of_mem_zipIdx he
        simp only [decide_eq_true_eq]
        omega
      rw [List.zipIdx_cons, List.filter_cons_of_pos (by simp), hrest]
      rfl
    | succ i =>
      have hrest := ih (k + 1) i
      rw [show k + 1 + i = k + (i + 1) by omega] at hrest
      rw [List.zipIdx_cons, List.filter_cons_of_neg (by simp), hrest]
      rfl

/-- At the path of an argument stands that argument alone. -/
theorem Supplies.fillsAt_argument (h : Supplies a name xs) {i : Nat} {ps : List Path}
    (hps : ∀ k, argPath name k ∈ ps ↔ k = i) :
    a.fillsAt ps = xs[i]?.toList.map fun x => .of x plainScope false := by
  have hseen : a.fills.filter (fun fill => ps.contains fill.path && !a.isWithheld fill.path) =
      a.fills.filter fun fill => ps.contains fill.path :=
    List.filter_congr fun fill hfill => by rw [h.seen fill hfill, Bool.not_false, Bool.and_true]
  have hat (e : Expr × Nat) : ps.contains (argPath name e.2) = decide (e.2 = 0 + i) := by
    rw [Nat.zero_add, Bool.eq_iff_iff, List.contains_iff_mem, decide_eq_true_iff]
    exact hps e.2
  rw [fillsAt, hseen, h.fills, argFills, List.filter_map]
  simp only [Function.comp_def, hat]
  rw [filter_zipIdx xs 0 i, List.map_map, List.map_map]
  rfl

/-- Paths of arguments begin with the label of the functions. -/
theorem head_of_startsWith_argPath {i : Nat} {p : Path} (h : (argPath name i).startsWith p = true)
    (hne : p.selectors ≠ []) : p.selectors.head? = some (.label funcsLabel) := by
  rw [Path.startsWith_iff] at h
  obtain ⟨s, rest, hp⟩ := List.exists_cons_of_ne_nil hne
  rw [hp] at h
  obtain ⟨rfl, -⟩ := List.cons_prefix_cons.mp h
  rw [hp]
  rfl

theorem not_startsWith_definition (i : Nat) (q : Path) :
    (argPath name i).startsWith ((Path.field definitionLabel).join q) = false := by
  rw [← Bool.not_eq_true]
  intro h
  have hhead := head_of_startsWith_argPath h (List.cons_ne_nil _ _)
  have hlabels : some (Selector.label definitionLabel) = some (.label funcsLabel) := hhead
  revert hlabels
  decide

/-- Seen from the function, the fills are its arguments. -/
theorem Supplies.fed (h : Supplies a name xs) {args : List Json} {n : Nat} {extra : List Path}
    (hargs : List.Forall₂ (fun j x => ∃ left, Expr.encode left j = .ok x) args xs)
    (hcanonical : ∀ j ∈ args, j.canonical = true) (hlength : args.length ≤ n)
    (hextra : ∀ p ∈ extra, p = .field definitionLabel) :
    Fed a (functionPath name :: extra) n args := by
  have hone {p : Path} (hp : p ∈ functionPath name :: extra) : p = functionPath name ∨
      p = .field definitionLabel :=
    (List.mem_cons.mp hp).imp_right (hextra p)
  have hpart {l : Label} {p : Path} (hp : p ∈ (functionPath name :: extra).map (·.child (.label l))) :
      p = (functionPath name).child (.label l) ∨
        p = (Path.field definitionLabel).join ⟨[.label l]⟩ := by
    obtain ⟨q, hq, rfl⟩ := List.mem_map.mp hp
    exact (hone hq).imp (congrArg (Path.child · _)) (congrArg (Path.child · _))
  have hitem {i : Nat} {p : Path} (hp : p ∈ ((functionPath name :: extra).map
      (·.child (.label argsLabel))).map (·.child (.index i))) :
      p = argPath name i ∨
        p = (Path.field definitionLabel).join ⟨[.label argsLabel, .index i]⟩ := by
    obtain ⟨q, hq, rfl⟩ := List.mem_map.mp hp
    exact (hpart hq).imp (congrArg (Path.child · _)) (congrArg (Path.child · _))
  refine ⟨fun s hs => ?_, fun l => h.fillsAt_of_length fun p hp => ?_, fun s hs => ?_,
    fun i _ => ?_, fun i _ => ?_, fun l hl => ?_⟩
  · obtain ⟨i, -, p, hp, hstarts, hsome⟩ := h.mem_fillSelectors hs
    rcases hone hp with rfl | rfl
    · exact (Option.some.inj hsome).symm
    · exact absurd hstarts (Bool.eq_false_iff.mp (not_startsWith_definition i .root))
  · rcases hpart hp with rfl | rfl
    · exact (by decide : 3 ≠ 4)
    · exact (by decide : 2 ≠ 4)
  · obtain ⟨i, hi, p, hp, hstarts, hsome⟩ := h.mem_fillSelectors hs
    rcases hpart hp with rfl | rfl
    · exact ⟨i, by rw [← hargs.length_eq] at hi; omega, (Option.some.inj hsome).symm⟩
    · exact absurd hstarts (Bool.eq_false_iff.mp (not_startsWith_definition i _))
  · have hat : a.fillsAt (((functionPath name :: extra).map (·.child (.label argsLabel))).map (·.child (.index i))) =
        _ := h.fillsAt_argument (i := i) fun k => by
      constructor
      · intro hk
        rcases hitem hk with heq | heq
        · exact argPath_inj heq
        · have hstarts : (argPath name k).startsWith
              ((Path.field definitionLabel).join ⟨[.label argsLabel, .index i]⟩) = false :=
              not_startsWith_definition k _
          rw [← heq, Path.startsWith_iff.mpr List.prefix_rfl] at hstarts
          cases hstarts
      · rintro rfl
        exact List.mem_cons_self
    cases hj : args[i]? with
    | none =>
      have hx : xs[i]? = none := by
        rw [List.getElem?_eq_none_iff] at hj ⊢
        rwa [← hargs.length_eq]
      rw [hx] at hat
      exact hat
    | some j =>
      obtain ⟨hi, rfl⟩ := List.getElem?_eq_some_iff.mp hj
      have hx : i < xs.length := hargs.length_eq ▸ hi
      obtain ⟨left, hencode⟩ := hargs.get hi hx
      rw [List.getElem?_eq_getElem hx] at hat
      exact ⟨.of xs[i] plainScope false, hat, ⟨⟨left, _, hencode, rfl⟩, hcanonical _ (List.getElem_mem hi)⟩⟩
  · refine h.hasFillsBelow_eq_false fun p hp k hlt => ?_
    rcases hitem hp with rfl | rfl
    · exact absurd hlt (Nat.lt_irrefl 4)
    · exact not_startsWith_definition k _
  · refine h.hasFillsBelow_eq_false fun p hp k _ => ?_
    rcases hpart hp with rfl | rfl
    · rw [← Bool.not_eq_true, Path.startsWith_iff]
      intro hprefix
      have hthird : Selector.label l = .label argsLabel :=
        (List.cons_prefix_cons.mp (List.cons_prefix_cons.mp (List.cons_prefix_cons.mp hprefix).2).2).1
      exact hl (Selector.label.inj hthird)
    · exact not_startsWith_definition k _

/-! ## The root -/

/-- The root of both files is evaluated without its fields. -/
theorem exists_ground (left : Nat) (package : Option String) (imports : List String) (name : String)
    (ts : List Condition) (xs : List Expr) :
    ∃ b, processAt (left + 1) root (ofInputs (sources package imports name ts) (argFills name xs)) =
      ((), b) ∧ Ground b name ts ∧ Supplies b name xs ∧ ∀ i (h : i < 3), b.vertex (i + 1) =
        .fresh (some root) [.field (baseFields.get ⟨i, Nat.lt_succ_of_lt h⟩).1]
          [.of (baseFields.get ⟨i, Nat.lt_succ_of_lt h⟩).2 baseScope false] := by
  let a := ofInputs (sources package imports name ts) (argFills name xs)
  let c : Conjunct := .of (.struct (baseFields.map Decl.required)) 1 false
  let d : Conjunct := .of (.struct ((fileFields name ts).map Decl.required)) 2 false
  let ps : List StructPart := [⟨baseFields, 1, false⟩, ⟨fileFields name ts, 2, false⟩]
  let t : Table := [
    (.definition "Error",
      [.of (.struct [Decl.required (.regular "Error", .ident "string")]) baseScope false]),
    (definitionLabel, [.of (.struct Mock.functionShape) baseScope false]),
    (.regular Mock.varsName, [.of (.struct [.pattern (.ident "string") .top]) baseScope false]),
    (funcsLabel, [functionPattern, functionField name ts])]
  have hsupplies : Supplies a name xs := ⟨rfl, fun _ _ => rfl⟩
  have hroot : a.vertex root = .fresh none [.root] ([c, d] ++ a.fillsAt [.root]) := rfl
  rw [hsupplies.fillsAt_of_length (by decide), List.append_nil] at hroot
  obtain ⟨b, hrun, hb⟩ := exists_assembled left (a := a) (v := root) (t := t) Nat.zero_lt_one
    (hroot.trans (by rw [← List.append_nil [c, d]]; rfl))
    (List.Forall₂.cons (b := ⟨baseFields, 1, false⟩) ⟨rfl, rfl, rfl, rfl⟩
      (.cons (b := ⟨fileFields name ts, 2, false⟩) ⟨rfl, rfl, rfl, rfl⟩ .nil))
      (List.cons_ne_nil _ _)
    (List.forall_mem_nil _) rfl
    (fun s hs => by
      obtain ⟨i, -, p, hp, -, hsome⟩ := hsupplies.mem_fillSelectors hs
      obtain rfl := List.mem_singleton.mp hp
      exact ⟨funcsLabel, (by decide : funcsLabel ∈ baseFields.map (·.1)),
        (Option.some.inj hsome).symm⟩)
    (by
      intro p hp hclosed
      rcases List.mem_cons.mp hp with rfl | hp
      · cases hclosed
      · obtain rfl := List.mem_singleton.mp hp
        cases hclosed)
  have hself := hb.self
  rw [hroot] at hself
  have hpart (i : Nat) (hi : i < 4) :
      b.vertex (i + 1) = .fresh (some root) [.field t[i].1] t[i].2 := by
    rw [Nat.add_comm, show 1 + i = a.vertices.size + i from rfl, hb.part hi, partVertex, hroot]
    show Vertex.fresh (some root) [.field t[i].1] (a.fillsAt [.field t[i].1] ++ t[i].2) = _
    have hone : ∀ p ∈ [Path.field t[i].1], p.length ≠ 4 := fun p hp => by
      obtain rfl := List.mem_singleton.mp hp
      exact (by decide : 1 ≠ 4)
    rw [hsupplies.fillsAt_of_length hone, List.nil_append]
  refine ⟨b, hrun, ⟨?_, ?_, ?_, ?_, ?_, ?_, ?_, ?_, ?_, ⟨[], ?_⟩, ⟨imports, ?_⟩, ?_, ?_, ?_, ?_⟩,
    hsupplies.intact hb.intact, fun i hi => ?_⟩
  · rw [hself]
  · rw [hself]; rfl
  · rw [hself]; rfl
  · rw [hself]; rfl
  · rw [hself]; rfl
  · rw [hself]
  · rw [hself]; rfl
  · rw [hb.size]
    exact (by decide : funcsVertex < 1 + 4)
  · rw [hb.scopes]
    exact (by decide : fileScope < 3 + 2)
  · exact hb.intact.scope (s := 1) (by decide : 1 < 3)
  · exact hb.intact.scope (s := 2) (by decide : 2 < 3)
  · exact hb.scope (i := 0) Nat.two_pos
  · exact hb.scope (i := 1) Nat.one_lt_two
  · rw [show definitionVertex = 1 + 1 from rfl, hpart 1 (by decide)]
    exact ⟨rfl, rfl, rfl⟩
  · exact hpart 3 (by decide)
  · rw [hpart i (Nat.lt_succ_of_lt hi)]
    obtain rfl | rfl | rfl : i = 0 ∨ i = 1 ∨ i = 2 := by omega
    all_goals rfl

end Echo

end SchemaMock
