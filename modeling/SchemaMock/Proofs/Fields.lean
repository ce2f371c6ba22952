import SchemaMock.Proofs.Eval.Assembly
import SchemaMock.Proofs.Eval.Filling
import SchemaMock.Proofs.HostData

/-! # Files of fields

A file declares fields, and values may be filled in at them. The root becomes a struct, and its
fields are the next vertices, in the order of the file; a label that is declared more than once has
one of them. A query of a field runs on what its vertex has settled to.
-/

namespace SchemaMock

open Arena Eval

namespace Path

def field (l : Label) : Path := ⟨[.label l]⟩

end Path

namespace Arena

/-- What comes next on the way to a fill is a selector of its path. -/
theorem mem_fillSelectors {a : Arena} {paths : List Path} {s : Selector}
    (h : s ∈ a.fillSelectors paths) :
    ∃ fill ∈ a.fills, ∃ p ∈ paths, fill.path.startsWith p = true ∧
      fill.path.selectors[p.length]? = some s := by
  have hsome {found done : List Selector} (h : s ∈ found.foldl
      (fun done s => if done.contains s then done else done ++ [s]) done) : s ∈ done ∨
      s ∈ found := by
    induction found generalizing done with
    | nil => exact .inl h
    | cons t found ih =>
      rcases ih h with h | h
      · dsimp only at h
        split at h
        · exact .inl h
        · rcases List.mem_append.mp h with h | h
          · exact .inl h
          · exact .inr (List.mem_singleton.mp h ▸ List.mem_cons_self)
      · exact .inr (List.mem_cons_of_mem t h)
  obtain ⟨fill, hfill, hs⟩ := List.mem_flatMap.mp ((hsome h).resolve_left List.not_mem_nil)
  obtain ⟨p, hp, hs⟩ := List.mem_filterMap.mp hs
  split at hs
  · exact ⟨fill, List.mem_of_mem_filter hfill, p, hp, ‹_›, hs⟩
  · cases hs

/-- The fills are at fields of the root, or below them. -/
def Addressed (labels : List Label) (fills : List Fill) : Prop :=
  ∀ fill ∈ fills, ∃ l ∈ labels, fill.path.selectors.head? = some (.label l)

def fieldScope : Nat := 2

def declared (fields : List (Label × Expr)) : Table := Table.declareAll [] fieldScope false fields

/-- The root is the struct of a file. Its parts are those of a table, and are numbered from 1 on. -/
structure Founded (a : Arena) (t : Table) (fields : List (Label × Expr))
    (fills : List Fill) : Prop where
  size : a.vertices.size = t.length + 1
  stage : (a.vertex root).stage = .done
  parent : (a.vertex root).parent = none
  forward : (a.vertex root).forward = none
  disjuncts : (a.vertex root).disjuncts = []
  pending : (a.vertex root).pending = []
  val : (a.vertex root).val = .ofKinds .ofStruct
  arcs : (a.vertex root).arcs = arcsFrom 1 t.labels
  part {i : Nat} (h : i < t.length) : a.vertex (i + 1) = .fresh (some root)
    [.field t[i].1] (a.fillsAt [.field t[i].1] ++ t[i].2)
  scope : ∃ imports, a.scope 1 = .root imports
  inner : a.scope fieldScope = .struct 1 (fields.map Decl.required) root
  scopes : a.scopes.size = 3
  entries : a.fills = fills
  fillsAt (paths : List Path) : a.fillsAt paths =
    (fills.filter (paths.contains ·.path)).map fun fill => ⟨fill.source, plainScope, false, none⟩

/-- The root is the struct of a file. Its fields are numbered from 1 on. -/
structure Rooted (a : Arena) (fields : List (Label × Expr)) (fills : List Fill) : Prop where
  size : a.vertices.size = fields.length + 1
  stage : (a.vertex root).stage = .done
  parent : (a.vertex root).parent = none
  forward : (a.vertex root).forward = none
  disjuncts : (a.vertex root).disjuncts = []
  pending : (a.vertex root).pending = []
  val : (a.vertex root).val = .ofKinds .ofStruct
  arcs : (a.vertex root).arcs = arcsFrom 1 (fields.map (·.1))
  part {i : Nat} (h : i < fields.length) : a.vertex (i + 1) = .fresh (some root)
    [.field fields[i].1] (a.fillsAt [.field fields[i].1] ++ [.of fields[i].2 fieldScope false])
  scope : ∃ imports, a.scope 1 = .root imports
  inner : a.scope fieldScope = .struct 1 (fields.map Decl.required) root
  scopes : a.scopes.size = 3
  entries : a.fills = fills
  fillsAt (paths : List Path) : a.fillsAt paths =
    (fills.filter (paths.contains ·.path)).map fun fill => ⟨fill.source, plainScope, false, none⟩

variable {fields : List (Label × Expr)} {fills : List Fill} {a : Arena}

def tableOf (fields : List (Label × Expr)) : Table :=
  fields.map fun d => (d.1, [.of d.2 fieldScope false])

theorem labels_tableOf (fields : List (Label × Expr)) :
    (tableOf fields).labels = fields.map (·.1) := by
  rw [tableOf, Table.labels, List.map_map]
  rfl

theorem length_tableOf (fields : List (Label × Expr)) : (tableOf fields).length = fields.length :=
  List.length_map _

theorem getElem_tableOf {i : Nat} (hi : i < fields.length) (ht : i < (tableOf fields).length) :
    (tableOf fields)[i] = (fields[i].1, [.of fields[i].2 fieldScope false]) := List.getElem_map _

theorem declareAll_nil {scope : Nat} {closed : Bool} (h : (fields.map (·.1)).Nodup) :
    Table.declareAll [] scope closed fields =
      fields.map fun d => (d.1, [.of d.2 scope closed]) := by
  rw [Table.declareAll_eq [] scope closed h]
  simp [Table.labels]

theorem declared_eq_tableOf (h : (fields.map (·.1)).Nodup) : declared fields = tableOf fields :=
  declareAll_nil h

theorem mem_labels_declared {label : Label} : label ∈ (declared fields).labels ↔
    label ∈ fields.map (·.1) := by
  rw [declared, Table.mem_labels_declareAll]
  simp [Table.labels]

theorem nodup_declared (fields : List (Label × Expr)) : (declared fields).labels.Nodup :=
  Table.nodup_declareAll (t := []) List.nodup_nil _ _ fields

/-- All that a label is declared as. -/
theorem conjuncts_declared (fields : List (Label × Expr)) (label : Label) :
    (declared fields).conjuncts label =
    (fields.filter (·.1 = label)).map fun d => .of d.2 fieldScope false := by
  rw [declared, Table.conjuncts_declareAll]
  rfl

/-- The root of a file of fields is evaluated without the fields. -/
theorem exists_founded (package : Option String) (imports : List String)
    (hfills : Addressed (fields.map (·.1)) fills) :
    ∃ b, evaluate root (ofInputs [.file ⟨package, imports, fields.map Decl.required⟩] fills) =
      ((), b) ∧ b.Founded (declared fields) fields fills := by
  let file : SchemaFile := ⟨package, imports, fields.map Decl.required⟩
  let c : Conjunct := .of (.struct (fields.map Decl.required)) 1 false
  let p : StructPart := ⟨fields, 1, false⟩
  let t : Table := declared fields
  let a := ofInputs [.file file] fills
  have hnone : a.fillsAt [.root] = [] := by
    have hempty :
        fills.filter (fun fill => [Path.root].contains fill.path && !a.isWithheld fill.path) =
          [] := by
      rw [List.filter_eq_nil_iff]
      intro fill hfill hat
      obtain ⟨l, -, hl⟩ := hfills fill hfill
      rw [Bool.and_eq_true, List.contains_iff_mem, List.mem_singleton] at hat
      rw [hat.1] at hl
      cases hl
    exact congrArg (List.map _) hempty
  have hroot : a.vertex root = .fresh none [.root] ([c] ++ a.fillsAt [.root]) := rfl
  rw [hnone, List.append_nil] at hroot
  have htable : t = Table.declareParts [] a.scopes.size [p] := rfl
  obtain ⟨b, hrun, hb⟩ := exists_assembled 255 (a := a) (v := root) Nat.zero_lt_one
    (hroot.trans (by rw [← List.append_nil [c]]; rfl))
    (List.Forall₂.cons (b := p) ⟨rfl, rfl, rfl, rfl⟩ .nil) (List.cons_ne_nil _ _)
    (List.forall_mem_nil _) htable
    (fun s hs => by
      obtain ⟨fill, hfill, q, hq, -, hs⟩ := mem_fillSelectors hs
      obtain rfl := List.mem_singleton.mp hq
      obtain ⟨l, hl, hhead⟩ := hfills fill hfill
      refine ⟨l, mem_labels_declared.mpr hl, ?_⟩
      rw [List.head?_eq_getElem?] at hhead
      exact Option.some.inj (hs.symm.trans hhead))
    (fun q hq hclosed => by
      obtain rfl := List.mem_singleton.mp hq
      cases hclosed)
  have hself := hb.self
  rw [hroot] at hself
  rw [Value.evaluate_eq]
  refine ⟨b, hrun, ?_, ?_, ?_, ?_, ?_, ?_, ?_, ?_, fun {i} hi => ?_, ⟨imports, ?_⟩, ?_, hb.scopes,
    hb.intact.fills, ?_⟩
  · exact hb.size.trans (Nat.add_comm 1 t.length)
  · rw [hself]
  · rw [hself]; rfl
  · rw [hself]; rfl
  · rw [hself]; rfl
  · rw [hself]; rfl
  · rw [hself]
  · rw [hself]; rfl
  · have hpart := hb.part hi
    rw [Nat.add_comm, show 1 + i = a.vertices.size + i from rfl, hpart, partVertex, hroot,
      hb.intact.fillsAt]
    rfl
  · exact hb.intact.scope (s := 1) (by decide : 1 < 2)
  · exact hb.scope (i := 0) Nat.zero_lt_one
  · intro paths
    rw [hb.intact.fillsAt]
    have hall (fill : Fill) : (!a.isWithheld fill.path) = true := rfl
    simp [Arena.fillsAt, hall, show a.fills = fills from rfl]

theorem exists_rooted (package : Option String) (imports : List String)
    (hfields : (fields.map (·.1)).Nodup) (hfills : Addressed (fields.map (·.1)) fills) :
    ∃ b, evaluate root (ofInputs [.file ⟨package, imports, fields.map Decl.required⟩] fills) =
      ((), b) ∧ b.Rooted fields fills := by
  obtain ⟨b, hrun, hb⟩ := exists_founded package imports hfills
  rw [declared_eq_tableOf hfields] at hb
  refine ⟨b, hrun, hb.size.trans (by rw [length_tableOf]), hb.stage, hb.parent,
    hb.forward, hb.disjuncts, hb.pending, hb.val, hb.arcs.trans (by rw [labels_tableOf]),
    fun {i} hi => ?_, hb.scope, hb.inner, hb.scopes, hb.entries, hb.fillsAt⟩
  have hpart := hb.part (length_tableOf fields ▸ hi)
  rwa [getElem_tableOf hi] at hpart

theorem Rooted.founded (h : a.Rooted fields fills) : a.Founded (tableOf fields) fields fills := by
  refine ⟨h.size.trans (by rw [length_tableOf]), h.stage, h.parent, h.forward, h.disjuncts,
    h.pending, h.val, h.arcs.trans (by rw [labels_tableOf]), fun {i} hi => ?_, h.scope, h.inner,
    h.scopes, h.entries, h.fillsAt⟩
  rw [length_tableOf] at hi
  rw [getElem_tableOf hi]
  exact h.part hi

variable {b : Arena} {label : Label} {t : Table}

theorem Founded.settlesTo (h : a.Founded t fields fills) : a.SettlesTo root root :=
  .here h.stage h.forward

theorem Founded.arc? (h : a.Founded t fields fills) (ht : t.labels.Nodup) {i : Nat}
    (hi : i < t.length) : (a.vertex root).arc? t[i].1 = some ⟨i + 1, true⟩ := by
  have hil : i < t.labels.length := by simpa [Table.labels] using hi
  have hlabel : t.labels[i] = t[i].1 := List.getElem_map _
  rw [Vertex.arc?, h.arcs, ← hlabel, lookup_arcsFrom ht hil, Nat.add_comm]

/-- A name that is no field of the file is declared nowhere. -/
theorem Founded.outside (h : a.Founded t fields fills) (hlabel : label ∉ fields.map (·.1))
    (ht : label ∉ t.labels) : a.Outside label fieldScope ∧ a.Rootless label := by
  obtain ⟨imports, houter⟩ := h.scope
  have hsize : 1 < a.scopes.size := by rw [h.scopes]; decide
  have hinner : fieldScope < a.scopes.size := by rw [h.scopes]; decide
  constructor
  · exact .within hinner h.inner (Decl.any_declares_required fields hlabel) (by decide)
      (.root hsize houter)
  · refine ⟨root, h.settlesTo, ?_⟩
    rw [Vertex.arc?, h.arcs, lookup_arcsFrom_of_notMem ht]

theorem Rooted.settlesTo (h : a.Rooted fields fills) : a.SettlesTo root root := h.founded.settlesTo

theorem Rooted.arc? (h : a.Rooted fields fills) (hfields : (fields.map (·.1)).Nodup) {i : Nat}
    (hi : i < fields.length) : (a.vertex root).arc? fields[i].1 = some ⟨i + 1, true⟩ := by
  have harc := h.founded.arc? (by rwa [labels_tableOf]) (length_tableOf fields ▸ hi)
  rwa [getElem_tableOf hi] at harc

theorem Rooted.outside (h : a.Rooted fields fills) (hlabel : label ∉ fields.map (·.1)) :
    a.Outside label fieldScope ∧ a.Rootless label :=
  h.founded.outside hlabel (by rwa [labels_tableOf])

/-- Type names that are no fields of the file stand for types in it. -/
theorem Rooted.clear (h : a.Rooted fields fills) {t : Condition}
    (ht : ∀ name ∈ t.names, Label.ofIdent name.toList ∉ fields.map (·.1)) : a.Clear fieldScope t :=
  fun name hname => h.outside (ht name hname)

theorem Founded.clear (h : a.Founded (declared fields) fields fills) {t : Condition}
    (ht : ∀ name ∈ t.names, Label.ofIdent name.toList ∉ fields.map (·.1)) : a.Clear fieldScope t :=
  fun name hname => h.outside (ht name hname) (mt mem_labels_declared.mp (ht name hname))

theorem Rooted.apart (h : a.Rooted fields fills) {t : Nat} (ht : t ≠ root) :
    a.Apart t (some root) := by
  refine .under h.stage h.forward ht.symm ?_
  rw [h.parent]
  exact .top

theorem Rooted.fields_eq (h : a.Rooted fields fills) :
    (a.vertex root).fields = (fields.zipIdx 1).map fun e => (e.1.1, e.2) := by
  rw [fields_of_arcsFrom h.arcs, List.zipIdx_map]
  rfl

end Arena

namespace Eval

variable {a b : Arena} {fields : List (Label × Expr)} {fills : List Fill}

/-- The faults of a file are those of its fields. -/
theorem faults_of_rooted (h : a.Rooted fields fills) (concrete : Bool) :
    (Eval.faults evaluate concrete root a).1 = (((fields.zipIdx 1).mapM fun e =>
      faultsAt evaluate maxDepth (concrete && e.1.1.isRegular) e.2) a).1.flatten := by
  have hsettle : settle evaluate root a = (root, a) := by
    refine settle_of_forward (evaluate_of_stage ?_) h.forward
    rw [h.stage]
    exact Stage.noConfusion
  rw [Eval.faults, faultsAt_of_struct hsettle h.val h.pending, h.fields_eq, List.mapM_map]
  rfl

end Eval

namespace Value

variable {fields : List (Label × Expr)} {fills : List Fill} {a b c : Arena} {i w : Nat}

/-- The lookup of a part processes it after the root. -/
theorem lookup_part {t : Table} (hrun : evaluate root a = ((), b)) (h : b.Founded t fields fills)
    (ht : t.labels.Nodup) (hi : i < t.length)
    (hsettle : settle evaluate (i + 1) b = (w, c)) (hstage : (c.vertex w).stage = .done) :
    (Eval.lookup (.field t[i].1)).run a = (.ok w, c) := by
  have hroot : arrive evaluate root a = (root, b) := by
    rw [evaluate_eq] at hrun ⊢
    exact arrive_of_settle (settle_of_forward hrun h.forward) h.stage
  have hpart : (b.vertex root).part? (.label t[i].1) = some (i + 1) := by
    rw [Vertex.part?, h.arc? ht hi]
    rfl
  have hselect := run_select_of_part hroot h.disjuncts hpart
  have harrive : arrive evaluate (i + 1) b = (w, c) := by
    rw [evaluate_eq] at hsettle ⊢
    exact arrive_of_settle hsettle hstage
  have hpath : Eval.lookup (.field t[i].1) =
      (select evaluate root (.label t[i].1) >>= fun v => Attempt.perform (arrive evaluate v)) := by
    rw [lookup_eq]
    simp only [Path.field, List.foldlM_cons, List.foldlM_nil, bind_pure]
  rw [hpath, Attempt.run_bind, hselect]
  dsimp only
  rw [Attempt.run_perform, harrive]

/-- A query of a part runs on what its vertex has settled to. -/
theorem query_part {α : Type} {v : Value} {t : Table}
    (hrun : evaluate root (ofInputs v.sources v.fills) = ((), b)) (h : b.Founded t fields v.fills)
    (ht : t.labels.Nodup) (hi : i < t.length) (hpath : v.path = .field t[i].1)
    (hsettle : settle evaluate (i + 1) b = (w, c)) (hstage : (c.vertex w).stage = .done)
    (onFault : Fault → α) (onVertex : Nat → Eval α) :
    v.query onFault onVertex = (onVertex w c).1 := by
  rw [query_eq, hpath, lookup_part hrun h ht hi hsettle hstage]

/-- The lookup of a field processes it after the root. -/
theorem lookup_field (hrun : evaluate root a = ((), b)) (h : b.Rooted fields fills)
    (hfields : (fields.map (·.1)).Nodup) (hi : i < fields.length)
    (hsettle : settle evaluate (i + 1) b = (w, c)) (hstage : (c.vertex w).stage = .done) :
    (Eval.lookup (.field fields[i].1)).run a = (.ok w, c) := by
  have hlookup := lookup_part hrun h.founded (by rwa [labels_tableOf]) (length_tableOf fields ▸ hi)
    hsettle hstage
  rwa [getElem_tableOf hi] at hlookup

/-- A query of a field runs on what its vertex has settled to. -/
theorem query_field {α : Type} {v : Value}
    (hrun : evaluate root (ofInputs v.sources v.fills) = ((), b)) (h : b.Rooted fields v.fills)
    (hfields : (fields.map (·.1)).Nodup) (hi : i < fields.length)
    (hpath : v.path = .field fields[i].1) (hsettle : settle evaluate (i + 1) b = (w, c))
    (hstage : (c.vertex w).stage = .done) (onFault : Fault → α) (onVertex : Nat → Eval α) :
    v.query onFault onVertex = (onVertex w c).1 := by
  rw [query_eq, hpath, lookup_field hrun h hfields hi hsettle hstage]

end Value

end SchemaMock
