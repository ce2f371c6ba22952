import Mathlib.Data.List.Nodup
import Mathlib.Logic.Function.Basic
import SchemaMock.Proofs.Eval.Narrowing
import SchemaMock.Proofs.Eval.Reference
import SchemaMock.Proofs.Member

/-! # Drafting a struct

A vertex takes in structs of fields, some of them optional, and of patterns. Fields of one name
share a vertex, which is new, and which collects what is declared for the name. That vertex is
present as soon as one of the fields is required. Nothing is evaluated on the way.
-/

namespace SchemaMock

open Arena Eval

/-- The fields of a label become present. -/
def Vertex.require (x : Vertex) (label : Label) (required : Bool) : Vertex :=
  { x with arcs := x.arcs.map fun (l, arc) =>
      (l, if l = label then { arc with required := arc.required || required } else arc) }

/-- The names of the fields so far, whether they are present, and what is declared for them. -/
structure Draft where
  names : List String
  required : String → Bool
  seeds : String → List Conjunct

namespace Draft

def empty : Draft := ⟨[], fun _ => false, fun _ => []⟩

/-- One more field, which may be there already. -/
def require (d : Draft) (name : String) (required : Bool) : Draft where
  names := if name ∈ d.names then d.names else d.names ++ [name]
  required k := d.required k || (decide (k = name) && required)
  seeds := d.seeds

def add (d : Draft) (name : String) (cs : List Conjunct) : Draft where
  names := d.names
  required := d.required
  seeds k := if k = name then d.seeds k ++ cs else d.seeds k

/-- The fields, where the vertex of each is known. -/
def arcs (d : Draft) (place : String → Nat) : List (Label × Arc) :=
  d.names.map fun k => (.regular k, ⟨place k, d.required k⟩)

theorem names_require (d : Draft) {name : String} (required : Bool) (h : name ∈ d.names) :
    (d.require name required).names = d.names := if_pos h

theorem names_require_new (d : Draft) {name : String} (required : Bool) (h : name ∉ d.names) :
    (d.require name required).names = d.names ++ [name] := if_neg h

@[simp] theorem mem_require (d : Draft) (name k : String) (required : Bool) :
    k ∈ (d.require name required).names ↔ k ∈ d.names ∨ k = name := by
  by_cases h : name ∈ d.names
  · rw [d.names_require required h]
    exact ⟨.inl, fun hk => hk.elim id fun e => e ▸ h⟩
  · rw [d.names_require_new required h, List.mem_append, List.mem_singleton]

end Draft

namespace Arena

variable {a b : Arena} {d d' : Draft} {n v : Nat} {place : String → Nat} {own : Nat → Prop}

/-- The vertex has the fields of a draft. They are vertices from `n` on, and nothing is filled in at
them. -/
structure Drafted (a : Arena) (n v : Nat) (d : Draft) (place : String → Nat) : Prop where
  lt : v < n
  le : n ≤ a.vertices.size
  stage : (a.vertex v).stage = .processing
  below : a.hasFillsBelow (a.vertex v).paths = false
  arcs : (a.vertex v).arcs = d.arcs place
  nodup : d.names.Nodup
  apart : ∀ k ∈ d.names, ∀ l ∈ d.names, place k = place l → k = l
  range : ∀ k ∈ d.names, n ≤ place k ∧ place k < a.vertices.size
  part : ∀ k ∈ d.names, ∃ paths, a.hasFillsBelow paths = false ∧
    a.vertex (place k) = .fresh (some v) paths (d.seeds k)
  absent : ∀ k ∉ d.names, d.required k = false ∧ d.seeds k = []

theorem lookup_regular (names : List String) (g : String → Arc) (k : String) :
    (names.map fun l => (Label.regular l, g l)).lookup (.regular k) =
      if k ∈ names then some (g k) else none := by
  induction names with
  | nil => rfl
  | cons l names ih =>
    rw [List.map_cons, List.lookup_cons, ih]
    by_cases h : k = l
    · simp [h]
    · have hne : ((Label.regular k) == .regular l) = false := by simp [h]
      simp [hne, h]

namespace Drafted

theorem lt_size (h : a.Drafted n v d place) : v < a.vertices.size := Nat.lt_of_lt_of_le h.lt h.le

theorem place_ne (h : a.Drafted n v d place) {k : String} (hk : k ∈ d.names) : place k ≠ v :=
  Nat.ne_of_gt (Nat.lt_of_lt_of_le h.lt (h.range k hk).1)

theorem pending (h : a.Drafted n v d place) {k : String} (hk : k ∈ d.names) :
    (a.vertex (place k)).stage = .pending := by
  obtain ⟨paths, -, hpart⟩ := h.part k hk
  rw [hpart]
  rfl

theorem arc? (h : a.Drafted n v d place) (k : String) :
    (a.vertex v).arc? (.regular k) = if k ∈ d.names then some ⟨place k, d.required k⟩
      else none := by
  rw [Vertex.arc?, h.arcs]
  exact lookup_regular d.names _ k

theorem intact (h : a.Drafted n v d place) (hi : Intact own a b) (hv : ¬ own v)
    (hparts : ∀ k ∈ d.names, ¬ own (place k)) : b.Drafted n v d place := by
  have hvertex := hi.vertex h.lt_size hv
  refine ⟨h.lt, Nat.le_trans h.le hi.size, ?_, ?_, ?_, h.nodup, h.apart, ?_, ?_, h.absent⟩
  · rw [hvertex, h.stage]
  · rw [hi.hasFillsBelow, hvertex, h.below]
  · rw [hvertex, h.arcs]
  · exact fun k hk => ⟨(h.range k hk).1, Nat.lt_of_lt_of_le (h.range k hk).2 hi.size⟩
  · intro k hk
    obtain ⟨paths, hpaths, hpart⟩ := h.part k hk
    exact ⟨paths, by rw [hi.hasFillsBelow, hpaths], by rw [hi.vertex (h.range k hk).2 (hparts k hk), hpart]⟩

theorem modify (h : a.Drafted n v d place) {f : Vertex → Vertex}
    (hstage : (f (a.vertex v)).stage = .processing)
    (hbelow : a.hasFillsBelow (f (a.vertex v)).paths = false)
    (harcs : (f (a.vertex v)).arcs = d'.arcs place) (hnames : d'.names = d.names)
    (hseeds : d'.seeds = d.seeds) (habsent : ∀ k ∉ d'.names, d'.required k = false) :
    (a.modify v f).Drafted n v d' place := by
  have hvertex : (a.modify v f).vertex v = f (a.vertex v) := vertex_modify f h.lt_size
  refine ⟨h.lt, ?_, ?_, ?_, ?_, ?_, ?_, ?_, ?_, ?_⟩
  · rw [size_modify]
    exact h.le
  · rw [hvertex, hstage]
  · rw [hvertex]
    exact hbelow
  · rw [hvertex, harcs]
  · rw [hnames]
    exact h.nodup
  · rw [hnames]
    exact h.apart
  · rw [hnames, size_modify]
    exact h.range
  · intro k hk
    rw [hnames] at hk
    obtain ⟨paths, hpaths, hpart⟩ := h.part k hk
    exact ⟨paths, hpaths, by rw [vertex_modify_of_ne a f (h.place_ne hk), hseeds, hpart]⟩
  · intro k hk
    rw [hseeds]
    exact ⟨habsent k hk, (h.absent k (hnames ▸ hk)).2⟩

/-- More is declared for a field. -/
theorem add (h : a.Drafted n v d place) {k : String} (hk : k ∈ d.names) (cs : List Conjunct) :
    (a.modify (place k) fun x => { x with seeds := x.seeds ++ cs }).Drafted n v
    (d.add k cs) place := by
  let f (x : Vertex) : Vertex := { x with seeds := x.seeds ++ cs }
  have hv : (a.modify (place k) f).vertex v = a.vertex v :=
    vertex_modify_of_ne a f (h.place_ne hk).symm
  refine ⟨h.lt, ?_, ?_, ?_, ?_, h.nodup, h.apart, ?_, ?_, ?_⟩
  · rw [size_modify]
    exact h.le
  · rw [hv, h.stage]
  · rw [hv]
    exact h.below
  · rw [hv, h.arcs]
    rfl
  · rw [size_modify]
    exact h.range
  · intro l hl
    obtain ⟨paths, hpaths, hpart⟩ := h.part l hl
    refine ⟨paths, hpaths, ?_⟩
    by_cases heq : l = k
    · subst heq
      rw [vertex_modify f (h.range l hl).2, hpart]
      simp [f, Draft.add, Vertex.fresh]
    · rw [vertex_modify_of_ne a f fun e => heq (h.apart l hl k hk e), hpart]
      simp [Draft.add, heq]
  · intro l hl
    have hne : l ≠ k := fun e => hl (e ▸ hk)
    simpa [Draft.add, hne] using h.absent l hl

/-- A field of a new name. -/
theorem append (h : a.Drafted n v d place) {k : String} (hk : k ∉ d.names) (required : Bool) :
    let x : Vertex := .fresh (some v) ((a.vertex v).paths.map (·.child (.label (.regular k)))) []
    ((a.append [x]).modify v fun y =>
      { y with arcs := y.arcs ++ [(.regular k, ⟨a.vertices.size, required⟩)] }).Drafted n v
        (d.require k required) (Function.update place k a.vertices.size) := by
  intro x
  let f (y : Vertex) : Vertex :=
    { y with arcs := y.arcs ++ [(.regular k, ⟨a.vertices.size, required⟩)] }
  let b := (a.append [x]).modify v f
  have hsize : b.vertices.size = a.vertices.size + 1 := by
    rw [size_modify, size_append, List.length_singleton]
  have hv : b.vertex v = f (a.vertex v) := by
    rw [vertex_modify f, vertex_append_of_lt _ h.lt_size]
    rw [size_append]
    exact Nat.lt_add_right _ h.lt_size
  have hnew : b.vertex a.vertices.size = x := by
    rw [vertex_modify_of_ne _ f (Nat.ne_of_gt h.lt_size)]
    exact vertex_append a (i := 0) (show 0 < [x].length from Nat.zero_lt_one)
  have hold (l : String) (hl : l ∈ d.names) : b.vertex (place l) = a.vertex (place l) := by
    rw [vertex_modify_of_ne _ f (h.place_ne hl), vertex_append_of_lt _ (h.range l hl).2]
  have hnames := d.names_require_new required hk
  have hne (l : String) (hl : l ∈ d.names) : l ≠ k := fun e => hk (e ▸ hl)
  have hplace (l : String) (hl : l ∈ d.names) :
      Function.update place k a.vertices.size l = place l :=
    Function.update_of_ne (hne l hl) _ _
  have habsent := h.absent k hk
  refine ⟨h.lt, ?_, ?_, ?_, ?_, ?_, ?_, ?_, ?_, ?_⟩
  · rw [hsize]
    exact Nat.le_succ_of_le h.le
  · rw [hv]
    exact h.stage
  · rw [hv]
    exact h.below
  · rw [hv]
    show (a.vertex v).arcs ++ _ = _
    rw [h.arcs, Draft.arcs, Draft.arcs, hnames, List.map_append, List.map_singleton,
      Function.update_self]
    congr 1
    · apply List.map_congr_left
      intro l hl
      rw [hplace l hl]
      simp [Draft.require, hne l hl]
    · simp [Draft.require, habsent.1]
  · rw [hnames]
    refine List.nodup_append.mpr ⟨h.nodup, List.nodup_singleton k, fun l hl m hm => ?_⟩
    rw [List.mem_singleton.mp hm]
    exact hne l hl
  · intro l hl m hm heq
    rw [Draft.mem_require] at hl hm
    rcases hl with hl | rfl <;> rcases hm with hm | rfl
    · rw [hplace l hl, hplace m hm] at heq
      exact h.apart l hl m hm heq
    · rw [hplace l hl, Function.update_self] at heq
      exact absurd heq (Nat.ne_of_lt (h.range l hl).2)
    · rw [hplace m hm, Function.update_self] at heq
      exact absurd heq.symm (Nat.ne_of_lt (h.range m hm).2)
    · rfl
  · intro l hl
    rw [hsize]
    rcases (d.mem_require k l required).mp hl with hl | rfl
    · rw [hplace l hl]
      exact ⟨(h.range l hl).1, Nat.lt_succ_of_lt (h.range l hl).2⟩
    · rw [Function.update_self]
      exact ⟨h.le, Nat.lt_succ_self _⟩
  · intro l hl
    rcases (d.mem_require k l required).mp hl with hl | rfl
    · obtain ⟨paths, hpaths, hpart⟩ := h.part l hl
      exact ⟨paths, hpaths, by rw [hplace l hl, hold l hl, hpart]; rfl⟩
    · refine ⟨x.paths, hasFillsBelow_parts h.below (.label (.regular l)), ?_⟩
      rw [Function.update_self, hnew]
      exact congrArg (Vertex.fresh (some v) x.paths) habsent.2.symm
  · intro l hl
    rw [Draft.mem_require, not_or] at hl
    simpa [Draft.require, hl.2] using h.absent l hl.1

end Drafted

end Arena

namespace Eval

variable {a b : Arena} {d : Draft} {n v : Nat} {place : String → Nat}

theorem run_arc_of_some {label : Label} {old : Arc} (h : (a.vertex v).arc? label = some old)
    (required : Bool) :
    arc v label required a = (old.vertex, a.modify v (·.require label required)) := by
  simp only [arc, bind, StateT.bind, vertex, h]
  rfl

theorem run_arc_of_none {label : Label} (h : (a.vertex v).arc? label = none) (required : Bool)
    (hfills : a.fillsAt ((a.vertex v).paths.map (·.child (.label label))) = []) :
    arc v label required a = (a.vertices.size,
      (a.append [.fresh (some v) ((a.vertex v).paths.map (·.child (.label label))) []]).modify v
        fun x => { x with arcs := x.arcs ++ [(label, ⟨a.vertices.size, required⟩)] }) := by
  let paths := (a.vertex v).paths.map (·.child (.label label))
  simp only [arc, bind, StateT.bind, vertex, h]
  show ((do
    let w ← add (some v) paths (a.fillsAt paths)
    update v fun x => { x with
      arcs := x.arcs ++ [(label, ⟨w, required || !(a.fillsAt paths).isEmpty⟩)] }
    return w : Eval Nat)) a = _
  rw [hfills]
  simp only [List.isEmpty_nil, Bool.not_true, Bool.or_false]
  show (a.vertices.size, (a.add (.fresh (some v) paths [])).2.modify v _) = _
  rw [add_eq_append]

/-- A field joins the others, unless it is there already. -/
theorem exists_required (h : a.Drafted n v d place) (k : String) (required : Bool) :
    ∃ b place', arc v (.regular k) required a = (place' k, b) ∧
      b.Drafted n v (d.require k required) place' ∧ Extends (· = v) a b ∧
      b.vertex v = { a.vertex v with arcs := (d.require k required).arcs place' } ∧
      b.scopes = a.scopes := by
  have hnot : (a.vertex v).stage ≠ .done := by
    rw [h.stage]
    exact Stage.noConfusion
  by_cases hk : k ∈ d.names
  · let f (x : Vertex) : Vertex := x.require (.regular k) required
    have harc : (a.vertex v).arc? (.regular k) = some ⟨place k, d.required k⟩ := by
      rw [h.arc?, if_pos hk]
    have hnames := d.names_require required hk
    have harcs : (f (a.vertex v)).arcs = (d.require k required).arcs place := by
      rw [Draft.arcs, hnames]
      show (a.vertex v).arcs.map _ = _
      rw [h.arcs, Draft.arcs, List.map_map]
      apply List.map_congr_left
      intro l _
      by_cases hl : l = k <;> simp [Draft.require, hl]
    refine ⟨a.modify v f, place, run_arc_of_some harc required, ?_, ?_, ?_, rfl⟩
    · apply h.modify h.stage h.below harcs hnames rfl
      intro l hl
      rw [Draft.mem_require, not_or] at hl
      simp [Draft.require, hl.2, (h.absent l hl.1).1]
    · exact (intact_modify_self a v f).extends_self hnot
    · rw [vertex_modify f h.lt_size, ← harcs]
      rfl
  · have harc : (a.vertex v).arc? (.regular k) = none := by rw [h.arc?, if_neg hk]
    let x : Vertex := .fresh (some v) ((a.vertex v).paths.map (·.child (.label (.regular k)))) []
    let f (y : Vertex) : Vertex :=
      { y with arcs := y.arcs ++ [(.regular k, ⟨a.vertices.size, required⟩)] }
    have hb := h.append hk required
    have hv : ((a.append [x]).modify v f).vertex v = f (a.vertex v) := by
      rw [vertex_modify f, vertex_append_of_lt _ h.lt_size]
      rw [size_append]
      exact Nat.lt_add_right _ h.lt_size
    refine ⟨(a.append [x]).modify v f, Function.update place k a.vertices.size, ?_, hb, ?_, ?_, rfl⟩
    · rw [Function.update_self]
      exact run_arc_of_none harc required (fillsAt_parts h.below _)
    · apply Intact.extends_self _ hnot
      exact (intact_append _ a [x]).trans (intact_modify_self _ v f)
    · rw [← hb.arcs, hv]

end Eval

/-! ## Declarations -/

namespace Draft

def take (scope : Nat) (closed : Bool) (d : Draft) : Member → Draft
  | .field name optional t => (d.require name !optional).add name [.of t.toExpr scope closed]
  | _ => d

theorem mem_take (scope : Nat) (closed : Bool) (d : Draft) (m : Member) (k : String) :
    k ∈ (d.take scope closed m).names ↔ k ∈ d.names ∨ m.declares k = true := by
  cases m with
  | field name optional t => simp [take, add, Member.declares]
  | _ => simp [take, Member.declares]

theorem required_take (scope : Nat) (closed : Bool) (d : Draft) (m : Member) (k : String) :
    (d.take scope closed m).required k = (d.required k || m.requires k) := by
  cases m with
  | field name optional t => rfl
  | _ => simp [take, Member.requires]

theorem seeds_take (scope : Nat) (closed : Bool) (d : Draft) (m : Member) (k : String) :
    (d.take scope closed m).seeds k =
      d.seeds k ++ (m.ofField k).map fun t => .of t.toExpr scope closed := by
  cases m with
  | field name optional t => by_cases h : k = name <;> simp [take, add, require, Member.ofField, h]
  | _ => simp [take, Member.ofField]

/-- The draft after the declarations of a struct. -/
def takeAll (d : Draft) (scope : Nat) (closed : Bool) (ms : List Member) : Draft :=
  ms.foldl (take scope closed) d

variable (d : Draft) (scope : Nat) (closed : Bool) (ms : List Member) (k : String)

theorem mem_takeAll : k ∈ (d.takeAll scope closed ms).names ↔ k ∈ d.names ∨
    ms.any (·.declares k) = true := by
  induction ms generalizing d with
  | nil => simp [takeAll]
  | cons m ms ih =>
    refine (ih _).trans ?_
    rw [mem_take, or_assoc, List.any_cons, Bool.or_eq_true]

theorem required_takeAll :
    (d.takeAll scope closed ms).required k = (d.required k || ms.any (·.requires k)) := by
  induction ms generalizing d with
  | nil => simp [takeAll]
  | cons m ms ih =>
    refine (ih _).trans ?_
    rw [required_take, Bool.or_assoc, List.any_cons]

theorem seeds_takeAll : (d.takeAll scope closed ms).seeds k =
    d.seeds k ++ (ms.flatMap (·.ofField k)).map fun t => .of t.toExpr scope closed := by
  induction ms generalizing d with
  | nil => simp [takeAll]
  | cons m ms ih =>
    refine (ih _).trans ?_
    rw [seeds_take, List.append_assoc, List.flatMap_cons, List.map_append]

end Draft

namespace Member

/-- The pattern of a vertex for a label and a value. -/
def toPattern (scope : Nat) (closed : Bool) (q : Condition × Condition) : Pattern :=
  ⟨q.1.toExpr, q.2.toExpr, scope, closed⟩

/-- What a closed struct admits after one more declaration. -/
def permit (scope : Nat) (g : Group) : Member → Group
  | field name _ _ => { g with labels := g.labels ++ [.regular name] }
  | pattern label _ => { g with patterns := g.patterns ++ [(label.toExpr, scope)] }
  | ellipsis => { g with anything := true }

/-- What a closed struct of the declarations admits. -/
def group (scope : Nat) (ms : List Member) : Group := ms.foldl (permit scope) ⟨[], [], false⟩

end Member

def Vertex.note (scope : Nat) (closed : Bool) (group : Option Nat) (x : Vertex) (ms : List Member) :
    Vertex :=
  { x with
    patterns := x.patterns ++ (ms.filterMap Member.pattern?).map (Member.toPattern scope closed)
    groups := group.elim x.groups (x.groups.modify · (ms.foldl (Member.permit scope))) }

theorem Vertex.note_nil (scope : Nat) (closed : Bool) (group : Option Nat) (x : Vertex) :
    x.note scope closed group [] = x := by
  cases group with
  | none => simp [note]
  | some g =>
    have hgroups : x.groups.modify g (fun y => y) = x.groups := List.modify_id g x.groups
    simp [note, hgroups]

theorem Vertex.note_cons (scope : Nat) (closed : Bool) (group : Option Nat)
    (x : Vertex) (m : Member) (ms : List Member) :
    x.note scope closed group (m :: ms) = (x.note scope closed group [m]).note scope closed
      group ms := by
  have hpatterns : (m :: ms).filterMap Member.pattern? = [m].filterMap Member.pattern? ++
      ms.filterMap Member.pattern? :=
    List.filterMap_append (l := [m])
  cases group with
  | none => simp [note, hpatterns]
  | some g => simp [note, hpatterns, List.modify_modify_eq, Function.comp_def]

namespace Eval

variable {a b : Arena} {d : Draft} {n v : Nat} {place : String → Nat}

theorem run_updateGroup (v : Nat) (group : Option Nat) (f : Group → Group) (a : Arena) :
    updateGroup v group f a =
      ((), a.modify v fun x => { x with groups := group.elim x.groups (x.groups.modify · f) }) := by
  cases group with
  | none => exact congrArg (Prod.mk ()) (modify_eq_self (a := a) (v := v) rfl).symm
  | some g => rfl

/-- A declaration other than a field changes no more than the vertex. -/
theorem run_addDecl_of_ofField (c : Conjunct) (scope : Nat) (group : Option Nat) {m : Member}
    (hm : ∀ name optional t, m ≠ .field name optional t) (a : Arena) :
    addDecl v c scope group m.toDecl a = ([], a.modify v (·.note scope c.closed group [m])) := by
  cases m with
  | field name optional t => exact absurd rfl (hm name optional t)
  | pattern label t =>
    show (([] : List Conjunct), (updateGroup v group _ (a.modify v _)).2) = _
    rw [run_updateGroup, modify_modify]
    rfl
  | ellipsis =>
    show (([] : List Conjunct), (updateGroup v group _ a).2) = _
    rw [run_updateGroup]
    refine congrArg (Prod.mk _) (modify_congr ?_)
    simp [Vertex.note, Member.pattern?, Member.permit]

/-- A field is declared at its vertex, and is admitted by the closed struct. -/
theorem run_addDecl_field (c : Conjunct) (scope : Nat) (group : Option Nat) {name : String}
    {optional : Bool} (t : Condition) {w : Nat} (h : arc v (.regular name) (!optional) a = (w, b)) :
    addDecl v c scope group (Member.field name optional t).toDecl a =
      ([], (b.modify w fun x => { x with seeds := x.seeds ++ [.of t.toExpr scope c.closed] }).modify v
        (·.note scope c.closed group [.field name optional t])) := by
  show (do
    let w ← arc v (.regular name) !optional
    addSeed w (.of t.toExpr scope c.closed)
    updateGroup v group fun g => { g with labels := g.labels ++ [.regular name] }
    return [] : Eval (List Conjunct)) a = _
  rw [run_bind, h]
  show (([] : List Conjunct), (updateGroup v group _ _).2) = _
  rw [run_updateGroup]
  refine congrArg (Prod.mk _) (modify_congr ?_)
  simp [Vertex.note, Member.pattern?, Member.permit]

theorem exists_taken (h : a.Drafted n v d place) (c : Conjunct) (scope : Nat) (group : Option Nat)
    (m : Member) : ∃ e place', addDecl v c scope group m.toDecl a = ([], e) ∧
      e.Drafted n v (d.take scope c.closed m) place' ∧ Extends (fun u => u = v ∨ n ≤ u) a e ∧
      e.vertex v = { (a.vertex v).note scope c.closed group [m] with
        arcs := (d.take scope c.closed m).arcs place' } ∧
      e.scopes = a.scopes := by
  let note (x : Vertex) : Vertex := x.note scope c.closed group [m]
  have hnoted {b : Arena} {d : Draft} {place : String → Nat} (hb : b.Drafted n v d place) :
      (b.modify v note).Drafted n v d place ∧
      Extends (fun u => u = v ∨ n ≤ u) b (b.modify v note) := by
    have hnot : (b.vertex v).stage ≠ .done := by
      rw [hb.stage]
      exact Stage.noConfusion
    refine ⟨hb.modify hb.stage hb.below hb.arcs rfl rfl fun k hk => (hb.absent k hk).1, ?_⟩
    exact ((intact_modify_self b v note).extends_self hnot).mono fun _ _ => .inl
  have hother (hm : ∀ name optional t, m ≠ .field name optional t)
      (htake : d.take scope c.closed m = d) :
      ∃ e place', addDecl v c scope group m.toDecl a = ([], e) ∧
      e.Drafted n v (d.take scope c.closed m) place' ∧ Extends (fun u => u = v ∨ n ≤ u) a e ∧
      e.vertex v = { note (a.vertex v) with arcs := (d.take scope c.closed m).arcs place' } ∧
      e.scopes = a.scopes := by
    rw [htake]
    refine ⟨_, place, run_addDecl_of_ofField c scope group hm a, (hnoted h).1,
      (hnoted h).2, ?_, rfl⟩
    rw [vertex_modify _ h.lt_size, ← h.arcs]
    rfl
  cases m with
  | field name optional t =>
    obtain ⟨b, place', harc, hb, hab, hvb, hsb⟩ := exists_required h name !optional
    let seed : List Conjunct := [.of t.toExpr scope c.closed]
    have hname : name ∈ (d.require name !optional).names := (d.mem_require _ _ _).mpr (.inr rfl)
    have he := hb.add hname seed
    have hbe : Extends (· = place' name) b (b.modify (place' name) fun x => { x with seeds := x.seeds ++ seed }) := by
      apply (intact_modify_self b _ _).extends_self
      rw [hb.pending hname]
      exact Stage.noConfusion
    refine ⟨_, place', run_addDecl_field c scope group t harc, (hnoted he).1, ?_, ?_, hsb⟩
    · have hae := (hab.mono fun _ _ => Or.inl).trans
        (hbe.mono fun u _ hu => Or.inr (hu ▸ (hb.range name hname).1))
      exact hae.trans (hnoted he).2
    · rw [vertex_modify _ he.lt_size, vertex_modify_of_ne _ _ (hb.place_ne hname).symm, hvb]
      rfl
  | pattern label t => exact hother (fun _ _ _ => Member.noConfusion) rfl
  | ellipsis => exact hother (fun _ _ _ => Member.noConfusion) rfl

theorem exists_takenAll (c : Conjunct) (scope : Nat) (group : Option Nat) (ms : List Member)
    (h : a.Drafted n v d place) :
    ∃ ys e place', (ms.map Member.toDecl).mapM (addDecl v c scope group) a = (ys, e) ∧
      ys.flatten = [] ∧
      e.Drafted n v (d.takeAll scope c.closed ms) place' ∧ Extends (fun u => u = v ∨ n ≤ u) a e ∧
      e.vertex v = { (a.vertex v).note scope c.closed group ms with
        arcs := (d.takeAll scope c.closed ms).arcs place' } ∧
      e.scopes = a.scopes := by
  induction ms generalizing a d place with
  | nil =>
    refine ⟨[], a, place, rfl, rfl, h, .refl _ a, ?_, rfl⟩
    rw [Vertex.note_nil]
    exact congrArg (fun arcs => { a.vertex v with arcs := arcs }) h.arcs
  | cons m ms ih =>
    obtain ⟨b, place', hrun, hb, hab, hvb, hsb⟩ := exists_taken h c scope group m
    obtain ⟨ys, e, place'', hruns, hnil, he, hbe, hve, hse⟩ := ih hb
    refine ⟨[] :: ys, e, place'', ?_, hnil, he, hab.trans hbe, ?_, hse.trans hsb⟩
    · rw [List.map_cons, run_mapM_cons, hrun, hruns]
    · rw [hve, hvb]
      exact congrArg (fun x : Vertex => { x with arcs := (d.takeAll scope c.closed (m :: ms)).arcs place'' })
        (Vertex.note_cons scope c.closed group (a.vertex v) m ms).symm

/-- A closed struct begins a group, if there is none yet. -/
theorem run_openGroup {c : Conjunct} (hgroup : c.group = none)
    (hgroups : (a.vertex v).groups = []) : openGroup v c a = (if c.closed then some 0 else none,
      a.modify v fun x => { x with groups := if c.closed then [⟨[], [], false⟩] else x.groups }) := by
  cases hc : c.closed with
  | false =>
    simp only [openGroup, hc, Bool.not_false, if_true, Bool.false_eq_true, if_false]
    exact congrArg (Prod.mk none) (modify_eq_self (a := a) (v := v) rfl).symm
  | true =>
    simp only [openGroup, hc, hgroup, Bool.not_true, Bool.false_eq_true, if_false, if_true]
    show (some (a.vertex v).groups.length, a.modify v _) = _
    rw [hgroups]
    refine congrArg (Prod.mk (some 0)) (modify_congr ?_)
    simp [hgroups]

theorem meet_struct {val : Val} (h : val = .top ∨ val = .ofKinds .ofStruct) :
    val.meet (.ofKinds .ofStruct) = .ofKinds .ofStruct := by
  rcases h with rfl | rfl <;> rfl

theorem exists_struct (h : a.Drafted n v d place) {c : Conjunct} (hgroup : c.group = none)
    (hgroups : (a.vertex v).groups = [])
    (hval : (a.vertex v).val = .top ∨ (a.vertex v).val = .ofKinds .ofStruct) (ms : List Member) :
    ∃ e place', addStruct v (ms.map Member.toDecl) c a = ([], e) ∧
      e.Drafted n v (d.takeAll a.scopes.size c.closed ms) place' ∧
      Extends (fun u => u = v ∨ n ≤ u) a e ∧
      e.vertex v = { a.vertex v with
        val := .ofKinds .ofStruct
        arcs := (d.takeAll a.scopes.size c.closed ms).arcs place'
        patterns := (a.vertex v).patterns ++ (ms.filterMap Member.pattern?).map
          (Member.toPattern a.scopes.size c.closed)
        groups := if c.closed then [Member.group a.scopes.size ms] else [] } ∧
      e.scopes = a.scopes.push (.struct c.scope (ms.map Member.toDecl) v) := by
  let f (x : Vertex) : Vertex := x.meet (.ofKinds .ofStruct)
  let b := ((a.modify v f).addScope (.struct c.scope (ms.map Member.toDecl) v)).2
  let g (x : Vertex) : Vertex :=
    { x with groups := if c.closed then [⟨[], [], false⟩] else x.groups }
  let group : Option Nat := if c.closed then some 0 else none
  have hmodify {b : Arena} (hb : b.Drafted n v d place) {f : Vertex → Vertex}
      (hf : ∀ x : Vertex, (f x).stage = x.stage ∧ (f x).paths = x.paths ∧ (f x).arcs = x.arcs) :
      (b.modify v f).Drafted n v d place ∧ Extends (fun u => u = v ∨ n ≤ u) b (b.modify v f) := by
    obtain ⟨hstage, hpaths, harcs⟩ := hf (b.vertex v)
    constructor
    · apply hb.modify (hstage.trans hb.stage) _ (harcs.trans hb.arcs) rfl rfl
        fun k hk => (hb.absent k hk).1
      rw [hpaths]
      exact hb.below
    · have hnot : (b.vertex v).stage ≠ .done := by
        rw [hb.stage]
        exact Stage.noConfusion
      exact ((intact_modify_self b v f).extends_self hnot).mono fun _ _ => Or.inl
  have hscope :=
    intact_addScope (fun _ => False) (a.modify v f) (.struct c.scope (ms.map Member.toDecl) v)
  obtain ⟨h₁, hab₁⟩ := hmodify h (f := f) fun x => ⟨rfl, rfl, rfl⟩
  have h₂ : b.Drafted n v d place := h₁.intact hscope id fun _ _ => id
  have hab₂ : Extends (fun u => u = v ∨ n ≤ u) a b :=
    hab₁.trans ((hscope.extends fun _ => False.elim).mono fun _ _ => False.elim)
  obtain ⟨h₃, hab₃⟩ := hmodify h₂ (f := g) fun x => ⟨rfl, rfl, rfl⟩
  have hb : b.vertex v = f (a.vertex v) := vertex_modify f h.lt_size
  have hopen : openGroup v c b = (group, b.modify v g) := by
    apply run_openGroup hgroup
    rw [hb]
    exact hgroups
  obtain ⟨ys, e, place', hruns, hnil, he, hbe, hve, hse⟩ :=
    exists_takenAll c a.scopes.size group ms h₃
  refine ⟨e, place', ?_, he, (hab₂.trans hab₃).trans hbe, ?_, hse⟩
  · show (do
      let group ← openGroup v c
      return (← (ms.map Member.toDecl).mapM (addDecl v c a.scopes.size group)).flatten :
        Eval (List Conjunct)) b = _
    rw [run_bind, hopen, run_bind, hruns]
    exact congrArg (·, e) hnil
  · rw [hve, vertex_modify g h₂.lt_size, hb]
    have hmeet : (a.vertex v).val.meet (.ofKinds .ofStruct) = .ofKinds .ofStruct := meet_struct hval
    cases hc : c.closed <;> simp [f, g, group, hc, Vertex.note, Vertex.meet, hmeet,
      hgroups, Member.group]

/-! ## Visits -/

theorem vertex_of_extends (h : a.Drafted n v d place) (hab : Extends (n ≤ ·) a b) :
    b.vertex v = a.vertex v :=
  hab.vertex h.lt_size fun hv => Nat.not_le_of_lt h.lt hv.1

/-- One vertex after the other is visited, and the draft grows with each visit. -/
theorem exists_visited {α : Type} {f : α → Eval PUnit} (step : Draft → α → Draft)
    (hstep : ∀ d x, (step d x).names = d.names) (xs : List α) (h : a.Drafted n v d place)
    (hf : ∀ x ∈ xs, ∀ b d', b.Drafted n v d' place → d'.names = d.names → Extends (n ≤ ·) a b →
      ∃ e, f x b = ((), e) ∧ e.Drafted n v (step d' x) place ∧ Extends (n ≤ ·) b e) :
    ∃ e, xs.forM f a = ((), e) ∧ e.Drafted n v (xs.foldl step d) place ∧ Extends (n ≤ ·) a e := by
  induction xs generalizing a d with
  | nil => exact ⟨a, rfl, h, .refl _ a⟩
  | cons x xs ih =>
    obtain ⟨b, hrun, hb, hab⟩ := hf x List.mem_cons_self a d h rfl (.refl _ a)
    obtain ⟨e, hruns, he, hbe⟩ := ih hb fun y hy c d' hc hnames hbc =>
      hf y (List.mem_cons_of_mem x hy) c d' hc (hnames.trans (hstep d x)) (hab.trans hbc)
    refine ⟨e, ?_, he, hab.trans hbe⟩
    show (f x >>= fun _ => xs.forM f) a = _
    rw [run_bind, hrun, hruns]

/-- A field answers to further paths. Nothing is filled in there. -/
theorem exists_addPathsToArc (h : a.Drafted n v d place) {added : List Path}
    (hfills : a.hasFillsBelow added = false) {k : String} (hk : k ∈ d.names) :
    ∃ e, addPathsToArc v added (.regular k) (place k) a = ((), e) ∧ e.Drafted n v d place ∧
      Extends (n ≤ ·) a e := by
  let ps := added.map (·.child (.label (.regular k)))
  let f (x : Vertex) : Vertex := { x with paths := x.paths ++ ps }
  have hrun : addPathsToArc v added (.regular k) (place k) a = ((), a.modify (place k) f) := by
    have hview : view (·.fillsAt ps) a = ([], a) := congrArg (·, a) (fillsAt_parts hfills _)
    rw [addPathsToArc, run_bind, hview]
    refine congrArg (Prod.mk ()) (modify_congr ?_)
    simp [f, ps]
  have hv : (a.modify (place k) f).vertex v = a.vertex v :=
    vertex_modify_of_ne a f (h.place_ne hk).symm
  refine ⟨a.modify (place k) f, hrun, ⟨h.lt, ?_, ?_, ?_, ?_, h.nodup, h.apart, ?_, ?_, h.absent⟩,
    ?_⟩
  · rw [size_modify]
    exact h.le
  · rw [hv, h.stage]
  · rw [hv]
    exact h.below
  · rw [hv, h.arcs]
  · rw [size_modify]
    exact h.range
  · intro l hl
    obtain ⟨paths, hpaths, hpart⟩ := h.part l hl
    by_cases heq : l = k
    · subst heq
      refine ⟨paths ++ ps, hasFillsBelow_append hpaths (hasFillsBelow_parts hfills _), ?_⟩
      rw [vertex_modify f (h.range l hl).2, hpart]
      rfl
    · refine ⟨paths, hpaths, ?_⟩
      rw [vertex_modify_of_ne a f fun e => heq (h.apart l hl k hk e), hpart]
  · have hstage : (a.vertex (place k)).stage ≠ .done := by
      rw [h.pending hk]
      exact Stage.noConfusion
    exact ((intact_modify_self a _ f).extends_self hstage).mono fun u _ hu => hu ▸ (h.range k hk).1

/-- A vertex answers to further paths. Nothing is filled in below them. -/
theorem exists_addPaths (h : a.Drafted n v d place) {paths : List Path}
    (hfills : a.hasFillsBelow paths = false) :
    ∃ e, addPaths v paths a = ((), e) ∧ e.Drafted n v d place ∧
      Extends (fun u => u = v ∨ n ≤ u) a e ∧
      e.vertex v = { a.vertex v with paths := (e.vertex v).paths } := by
  rw [addPaths_eq]
  by_cases hnone : (a.furtherPaths v paths).isEmpty = true
  · rw [if_pos hnone]
    exact ⟨a, rfl, h, .refl _ a, rfl⟩
  · rw [if_neg hnone]
    let f (x : Vertex) : Vertex := { x with paths := x.paths ++ a.furtherPaths v paths }
    have hadded : a.hasFillsBelow (a.furtherPaths v paths) = false :=
      hasFillsBelow_of_subset hfills fun _ => mem_of_mem_furtherPaths
    have hb : (a.modify v f).Drafted n v d place :=
      h.modify h.stage (hasFillsBelow_append h.below hadded) h.arcs rfl rfl
        fun k hk => (h.absent k hk).1
    have hnot : (a.vertex v).stage ≠ .done := by
      rw [h.stage]
      exact Stage.noConfusion
    have hab : Extends (· = v) a (a.modify v f) := (intact_modify_self a v f).extends_self hnot
    obtain ⟨e, hrun, he, hbe⟩ := exists_visited (fun d _ => d) (fun _ _ => rfl) (a.vertex v).arcs hb
      (f := fun e => addPathsToArc v (a.furtherPaths v paths) e.1 e.2.vertex)
      fun x hx c d' hc hnames hbc => by
        rw [h.arcs] at hx
        obtain ⟨k, hk, rfl⟩ := List.mem_map.mp hx
        refine exists_addPathsToArc hc ?_ (hnames ▸ hk)
        rw [hbc.hasFillsBelow]
        exact hadded
    refine ⟨e, hrun, ?_, (hab.mono fun _ _ => Or.inl).trans (hbe.mono fun _ _ => Or.inr), ?_⟩
    · rwa [List.foldl_fixed] at he
    · rw [vertex_of_extends hb hbe, vertex_modify f h.lt_size]

/-- A target joins the vertex. Nothing is filled in below its paths. -/
theorem exists_copied (h : a.Drafted n v d place) (c : Conjunct) {t : Nat}
    (hnew : t ∉ (a.vertex v).copied) (hne : t ≠ v)
    (hfills : a.hasFillsBelow (a.vertex t).paths = false) :
    ∃ e, copyTarget v t c a = ((a.vertex t).seeds.map (c.through (a.vertex t)), e) ∧
      e.Drafted n v d place ∧ Extends (fun u => u = v ∨ n ≤ u) a e ∧
      e.vertex v = { a.vertex v with copied := (a.vertex v).copied ++ [t], paths := (e.vertex v).paths } := by
  let f (x : Vertex) : Vertex := { x with copied := x.copied ++ [t] }
  have hb : (a.modify v f).Drafted n v d place :=
    h.modify h.stage h.below h.arcs rfl rfl fun k hk => (h.absent k hk).1
  have hnot : (a.vertex v).stage ≠ .done := by
    rw [h.stage]
    exact Stage.noConfusion
  have hab : Extends (· = v) a (a.modify v f) := (intact_modify_self a v f).extends_self hnot
  obtain ⟨e, hrun, he, hbe, hve⟩ := exists_addPaths hb hfills
  refine ⟨e, copyTarget_of_addPaths c hnew hne hrun, he, (hab.mono fun _ _ => Or.inl).trans hbe, ?_⟩
  rw [hve, vertex_modify f h.lt_size]

end Eval

end SchemaMock
