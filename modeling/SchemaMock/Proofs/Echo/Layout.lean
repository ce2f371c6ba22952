import SchemaMock.Mock.Base
import SchemaMock.Proofs.Eval.Assembly
import SchemaMock.Proofs.Eval.Elements
import SchemaMock.Proofs.Eval.Selection

/-! # A function that returns its arguments

The function has a condition for each argument and refers to each of them in its results. Both lists
have an element for each argument. An element has a fault where the condition is not met, and so has
the element that refers to it.
-/

namespace SchemaMock

open Arena Eval

namespace Arena

variable {a b : Arena} {own : Nat → Prop} {v : Nat} {x : Vertex} {bare : Prop} {t : Condition}

/-- A vertex is still as it was laid out, or it is done. Then it shows what its condition leaves, if
it has no data. -/
def Ready (a : Arena) (v : Nat) (x : Vertex) (bare : Prop) (t : Condition) : Prop :=
  a.vertex v = x ∨ (a.vertex v).stage = .done ∧
    (bare → a.Plain v (Condition.narrow maxDepth [t, .any] .top))

theorem Plain.congr {y : Val} (h : a.Plain v y) (hsame : b.vertex v = a.vertex v) :
    b.Plain v y := by
  refine ⟨?_, ?_, ?_, ?_, ?_, ?_⟩
  all_goals rw [hsame]
  exacts [h.stage, h.forward, h.pending, h.arcs, h.elems, h.val]

theorem Ready.congr (h : a.Ready v x bare t) (hsame : b.vertex v = a.vertex v) :
    b.Ready v x bare t := by
  refine h.imp (fun hx => hsame.trans hx) fun ⟨hs, hplain⟩ => ⟨?_,
    fun hb => (hplain hb).congr hsame⟩
  rw [hsame]
  exact hs

theorem Ready.eq_of_pending (h : a.Ready v x bare t) (hs : (a.vertex v).stage = .pending) :
    a.vertex v = x := by
  refine h.resolve_right fun hd => ?_
  rw [hs] at hd
  cases hd.1

end Arena

/-- A function that returns its arguments, as it is laid out in an arena. -/
structure Echo where
  /-- The conditions on the arguments. -/
  conditions : List Condition
  /-- The arguments that are filled in. -/
  args : List Json
  vertex : Nat
  /-- The vertex of `args`; that of `returns` and that of `maxCalls` are next. -/
  first : Nat
  /-- The scope of what is declared for the function, before that of the definition. -/
  scope : Nat
  paths : List Path
  visible : (paths.head?.map Path.hasDefinition).getD false = false
  heights : ∀ t ∈ conditions, t.height ≤ maxDepth

namespace Echo

def argsLabel : Label := .regular Mock.argsName
def returnsLabel : Label := .regular Mock.returnsName
def limitLabel : Label := .regular Mock.maxCallsName

def argument (i : Nat) : Expr := .index (.ident Mock.argsName) (.int i)

def fields (ts : List Condition) : List (Label × Expr) :=
  [(argsLabel, .list (ts.map (·.toExpr)) none),
    (returnsLabel, .list ((List.range ts.length).map argument) none)]

/-- The condition on a limit, and the limit that stands for none. -/
def countType : Condition := .type .uint
def unlimited : Condition := .equal (.plain (.int Mock.unbounded))

def limitExpr : Expr := .binary .disjoin countType.toExpr (.marked unlimited.toExpr)

def shape : List (Label × Expr) :=
  [(argsLabel, Mock.anyList), (limitLabel, limitExpr), (returnsLabel, Mock.anyList)]

variable (e : Echo)

def argsPaths : List Path := e.paths.map (·.child (.label argsLabel))

def returnsPaths : List Path := e.paths.map (·.child (.label returnsLabel))

def limitPaths : List Path := e.paths.map (·.child (.label limitLabel))

def pathsAt (i : Nat) : List Path := e.argsPaths.map (·.child (.index i))

theorem visible_pathsAt (i : Nat) :
    ((e.pathsAt i).head?.map Path.hasDefinition).getD false = false := by
  have h := e.visible
  cases hp : e.paths with
  | nil => simp [pathsAt, argsPaths, hp]
  | cons p ps =>
    have hargs : (Selector.label argsLabel).isDefinition = false := rfl
    have hindex : (Selector.index i).isDefinition = false := rfl
    rw [hp] at h
    simpa [pathsAt, argsPaths, hp, Path.hasDefinition, Path.child, hargs, hindex] using h

/-- The literal of the definition, which admits any list. -/
def openPart : ListPart := ⟨[], some .top, e.scope + 1, true⟩

def argsParts : List ListPart := [⟨e.conditions.map (·.toExpr), none, e.scope, false⟩, e.openPart]

def returnsParts : List ListPart :=
  [⟨(List.range e.conditions.length).map argument, none, e.scope, false⟩, e.openPart]

def seedsAt (x : Expr) : List Conjunct := [.of x e.scope false, .of .top (e.scope + 1) true]

def listSeeds (xs : List Expr) : List Conjunct :=
  [.of (.list xs none) e.scope false, .of Mock.anyList (e.scope + 1) true]

theorem agreedLength_args : agreedLength e.argsParts = .ok e.conditions.length := by
  simp [agreedLength, argsParts, openPart]

theorem agreedLength_returns : agreedLength e.returnsParts = .ok e.conditions.length := by
  simp [agreedLength, returnsParts, openPart]

def Supplied (a : Arena) (paths : List Path) : Option Json → Prop
  | none => a.fillsAt paths = []
  | some j => ∃ c : Conjunct, a.fillsAt paths = [c] ∧ c.Writes j

/-- Whether something is wrong with an argument: its condition rules out the data, or can never be
met. -/
def Excludes (i : Nat) : Prop :=
  ∃ t ∈ e.conditions[i]?, Condition.ruleOut [t, .any] e.args[i]? = true

/-- The function is a struct, whose fields and fills are known. -/
structure Stands (a : Arena) : Prop where
  refers : a.Refers argsLabel e.scope e.first
  clear : ∀ t ∈ e.conditions, a.Clear e.scope t
  count : a.Clear (e.scope + 1) countType
  apart : ∀ t, e.first ≤ t → a.Apart t (some e.vertex)
  selectors : ∀ s ∈ a.fillSelectors e.argsPaths, ∃ i < e.conditions.length, s = .index i
  supplied : ∀ i < e.conditions.length, Supplied a (e.pathsAt i) e.args[i]?
  ends : ∀ i < e.conditions.length, a.hasFillsBelow (e.pathsAt i) = false
  apartReturns : a.hasFillsBelow e.returnsPaths = false
  apartLimit : a.hasFillsBelow e.limitPaths = false

/-- The list of the arguments is not processed yet. -/
def Untouched (a : Arena) : Prop :=
  e.first + 2 < a.vertices.size ∧
    a.vertex e.first =
      .fresh (some e.vertex) e.argsPaths (e.listSeeds (e.conditions.map (·.toExpr)))

structure Argument (a : Arena) (i v : Nat) (t : Condition) : Prop where
  lt : v < a.vertices.size
  after : e.first + 2 < v
  forward : (a.vertex v).forward = none
  paths : (a.vertex v).paths = e.pathsAt i
  bears : a.Bears [t, .any] e.args[i]? (a.vertex v).seeds
  ready : a.Ready v (.fresh (some e.first) (e.pathsAt i) (a.vertex v).seeds) (e.args[i]? = none) t

/-- The list of the arguments is done, and its elements are numbered from `n` on. -/
structure Stocked (a : Arena) (n : Nat) : Prop where
  list : a.Enumerated e.first (some e.vertex) n e.conditions.length
  argument {i : Nat} (h : i < e.conditions.length) : e.Argument a i (n + i) e.conditions[i]

variable {e} {a b : Arena} {own : Nat → Prop} {n : Nat}

theorem Supplied.intact {paths : List Path} {arg : Option Json} (h : Supplied a paths arg)
    (hi : Intact own a b) : Supplied b paths arg := by
  cases arg with
  | none => exact (hi.fillsAt paths).trans h
  | some j =>
    obtain ⟨c, hc, hw⟩ := h
    exact ⟨c, (hi.fillsAt paths).trans hc, hw⟩

theorem Stands.extends (h : e.Stands a) (hi : Extends own a b) : e.Stands b where
  refers := h.refers.intact hi Extends.not_done
  clear t ht := (h.clear t ht).intact hi Extends.not_done
  count := h.count.intact hi Extends.not_done
  apart t ht := (h.apart t ht).intact hi Extends.not_done
  selectors := by
    rw [hi.fillSelectors]
    exact h.selectors
  supplied i hn := (h.supplied i hn).intact hi
  ends i hn := (hi.hasFillsBelow _).trans (h.ends i hn)
  apartReturns := (hi.hasFillsBelow _).trans h.apartReturns
  apartLimit := (hi.hasFillsBelow _).trans h.apartLimit

theorem Argument.extends {i v : Nat} {t : Condition} (h : e.Argument a i v t) (hi : Extends own a b)
    (hv : ¬ own v) : e.Argument b i v t := by
  have hsame : b.vertex v = a.vertex v := Intact.vertex hi h.lt fun ho => hv ho.1
  have hready := h.ready.congr hsame
  rw [← hsame] at hready
  exact ⟨Nat.lt_of_lt_of_le h.lt hi.size, h.after, by rw [hsame]; exact h.forward,
    by rw [hsame]; exact h.paths, by rw [hsame]; exact h.bears.intact hi Extends.not_done, hready⟩

/-- Arguments that have changed are looked at again. -/
theorem Stocked.extends (h : e.Stocked a n) (hi : Extends own a b)
    (hchanged : ∀ i (hlt : i < e.conditions.length), own (n + i) →
      e.Argument b i (n + i) e.conditions[i]) : e.Stocked b n where
  list := h.list.intact hi Extends.not_done
  argument {i} hlt := by
    by_cases ho : own (n + i)
    · exact hchanged i hlt ho
    · exact (h.argument hlt).extends hi ho

theorem Stocked.le_size (h : e.Stocked a n) {i : Nat} (hi : i < e.conditions.length) :
    n + e.conditions.length ≤ a.vertices.size := by
  have := (h.argument (i := e.conditions.length - 1) (by omega)).lt
  omega

theorem Untouched.extends (h : e.Untouched a) (hi : Extends own a b) (hown : ¬ own e.first) :
    e.Untouched b := by
  obtain ⟨hlt, hv⟩ := h
  exact ⟨Nat.lt_of_lt_of_le hlt hi.size,
    (Intact.vertex hi (by omega) fun ho => hown ho.1).trans hv⟩

end Echo

end SchemaMock
