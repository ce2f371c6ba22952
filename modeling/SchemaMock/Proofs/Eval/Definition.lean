import SchemaMock.Eval.Process
import SchemaMock.Proofs.Eval.Growth
import SchemaMock.Proofs.Lattice

/-! # Vertices under a definition

A vertex that is declared to be an instance of a definition, or a list of instances, is under the
definition from before it is processed: a seed says so. When it has settled, its kinds say so. This
holds through every evaluation, as long as the name of the definition stands for a struct.
-/

namespace SchemaMock

def Conjunct.IsStruct (c : Conjunct) : Prop := ∃ decls, c.source = .expr (.struct decls)

namespace Expr

def listOf (name : String) : Expr := .list [] (some (.ident name))

def oneOrMany (name : String) : Expr := .binary .disjoin (.ident name) (listOf name)

end Expr

/-- A name, the scope in which it is used, and the vertex that it stands for. -/
structure Definition where
  name : String
  scope : Nat
  target : Nat

namespace Definition

open Arena

variable {d : Definition} {a b : Arena} {v w : Nat} {k l : Kinds} {c : Conjunct} {own : Option Nat}

/-- The name stands for the vertex, now and later, and the vertex is a struct. -/
structure Stands (d : Definition) (a : Arena) : Prop where
  declared : ∃ v t arc, a.Declares (.ofIdent d.name.toList) d.scope v ∧ a.SettlesTo v t ∧
    (a.vertex t).arc? (.ofIdent d.name.toList) = some arc ∧ arc.vertex = d.target
  struct : ∃ c ∈ (a.vertex d.target).seeds, c.IsStruct
  parent : ∀ p, (a.vertex d.target).parent = some p → p < d.target

theorem Stands.lookupName (h : d.Stands a) :
    a.lookupName d.name d.scope = .ok (.vertex d.target) := by
  obtain ⟨v, t, arc, hd, hs, harc, ht⟩ := h.declared
  rw [← ht]
  exact lookupName_of_declares hd (by rw [follow_of_settlesTo hs]; exact harc)

theorem Stands.lt_size (h : d.Stands a) : d.target < a.vertices.size := by
  obtain ⟨c, hc, -⟩ := h.struct
  refine Nat.lt_of_not_le fun hle => ?_
  rw [vertex_of_size_le hle] at hc
  cases hc

theorem Stands.grown (h : d.Stands a) (hg : Grown own a b)
    (hown : ∀ u, own = some u → (a.vertex u).stage = .processing) : d.Stands b := by
  have hnot (u : Nat) (hu : own = some u) : (a.vertex u).stage ≠ .done := by
    rw [hown u hu]
    decide
  obtain ⟨v, t, arc, hd, hs, harc, ht⟩ := h.declared
  obtain ⟨c, hc, hstruct⟩ := h.struct
  refine ⟨⟨v, t, arc, hd.grown hg, hs.grown hg hnot, ?_, ht⟩, ⟨c, hg.mem_seeds hc, hstruct⟩, ?_⟩
  · have he := hg.eq_of_stage (fun ho => hnot t ho hs.stage_last) (by rw [hs.stage_last]; decide)
    rw [he]
    exact harc
  · rw [hg.parent h.lt_size]
    exact h.parent

/-! ## Seeds -/

/-- A conjunct that leaves a vertex with these kinds, if with any. -/
inductive Guards (d : Definition) : Kinds → Conjunct → Prop
  | struct {c : Conjunct} : c.IsStruct → Guards d .ofStruct c
  | name {c : Conjunct} : c.source = .expr (.ident d.name) → c.scope = d.scope →
    Guards d .ofStruct c
  | list {c : Conjunct} : c.source = .expr (.listOf d.name) → c.scope = d.scope → Guards d .ofList c
  | either {c : Conjunct} : c.source = .expr (.oneOrMany d.name) → c.scope = d.scope →
      Guards d (Kinds.union .ofStruct .ofList) c

def Guarded (d : Definition) (k : Kinds) (cs : List Conjunct) : Prop :=
  ∃ c ∈ cs, ∃ l, d.Guards l c ∧ k.contains l = true

theorem Guarded.mono {cs ds : List Conjunct} (h : d.Guarded k cs) (hs : cs ⊆ ds) :
    d.Guarded k ds := by
  obtain ⟨c, hc, hg⟩ := h
  exact ⟨c, hs hc, hg⟩

structure Awaits (d : Definition) (a : Arena) (k : Kinds) (v : Nat) : Prop where
  lt_size : v < a.vertices.size
  stage : (a.vertex v).stage = .pending
  forward : (a.vertex v).forward = none
  elems : (a.vertex v).elems = []
  after : d.target < v
  apart : (a.vertex v).parent ≠ (a.vertex d.target).parent
  guarded : d.Guarded k (a.vertex v).seeds
  copied : d.target ∈ (a.vertex v).copied → ∃ c ∈ (a.vertex v).seeds, c.IsStruct

def Settled (a : Arena) (k : Kinds) (v : Nat) : Prop :=
  ∃ t, a.SettlesTo v t ∧ k.contains (a.vertex t).val.kinds = true

/-- A vertex is under the definition: by a seed while it is pending, and then by its kinds. -/
def Holds (d : Definition) (a : Arena) (k : Kinds) (v : Nat) : Prop :=
  d.Awaits a k v ∨ Settled a k v

/-- A vertex that has settled under the definition. The elements of a list are instances. -/
def Fulfils (d : Definition) (a : Arena) (k : Kinds) (v : Nat) : Prop :=
  ∃ t, a.SettlesTo v t ∧ k.contains (a.vertex t).val.kinds = true ∧
    ((a.vertex t).val.kinds = .ofList → ∀ w ∈ (a.vertex t).elems, d.Holds a .ofStruct w)

theorem Fulfils.settled (h : d.Fulfils a k v) : Settled a k v := by
  obtain ⟨t, ht, hk, -⟩ := h
  exact ⟨t, ht, hk⟩

/-- A vertex that is not processed stays under the definition. -/
theorem Awaits.grown (h : d.Awaits a k v) (hd : d.Stands a) (hg : Grown own a b)
    (hown : ∀ u, own = some u → (a.vertex u).stage = .processing)
    (hstill : (b.vertex v).stage = .pending) : d.Awaits b k v := by
  have hne : own ≠ some v := fun ho => by
    have := h.stage.symm.trans (hown v ho)
    cases this
  have he := (hg.vertex h.lt_size hne).rest (.inr hstill)
  have hsub : (a.vertex v).seeds ⊆ (b.vertex v).seeds := (hg.seeds h.lt_size).subset
  refine ⟨Nat.lt_of_lt_of_le h.lt_size hg.size, hstill, ?_, ?_, h.after, ?_,
    h.guarded.mono hsub, ?_⟩
  · rw [he]; exact h.forward
  · rw [he]; exact h.elems
  · rw [hg.parent h.lt_size, hg.parent hd.lt_size]
    exact h.apart
  · intro hc
    rw [he] at hc
    obtain ⟨c, hc, hs⟩ := h.copied hc
    exact ⟨c, hsub hc, hs⟩

/-- What settles under the definition stays so. -/
theorem Settled.grown (h : Settled a k v) (hg : Grown own a b)
    (hown : ∀ u, own = some u → (a.vertex u).stage = .processing) : Settled b k v := by
  have hnot (u : Nat) (hu : own = some u) : (a.vertex u).stage ≠ .done := by
    rw [hown u hu]
    decide
  obtain ⟨t, ht, hk⟩ := h
  have he := hg.eq_of_stage (fun ho => hnot t ho ht.stage_last) (by rw [ht.stage_last]; decide)
  exact ⟨t, ht.grown hg hnot, by rw [he]; exact hk⟩

/-- Where nothing is processed, all vertices stay under the definition. -/
theorem Holds.grown (h : d.Holds a k v) (hd : d.Stands a) (hg : Grown own a b)
    (hown : ∀ u, own = some u → (a.vertex u).stage = .processing)
    (hstill : ∀ u < a.vertices.size, (a.vertex u).stage = .pending → (b.vertex u).stage = .pending) :
    d.Holds b k v :=
  h.imp (fun h => h.grown hd hg hown (hstill _ h.lt_size h.stage)) fun h => h.grown hg hown

theorem Fulfils.grown (h : d.Fulfils a k v) (hg : Grown own a b)
    (hown : ∀ u, own = some u → (a.vertex u).stage = .processing)
    (hh : ∀ w, d.Holds a .ofStruct w → d.Holds b .ofStruct w) : d.Fulfils b k v := by
  have hnot (u : Nat) (hu : own = some u) : (a.vertex u).stage ≠ .done := by
    rw [hown u hu]
    decide
  obtain ⟨t, ht, hk, hw⟩ := h
  have he := hg.eq_of_stage (fun ho => hnot t ho ht.stage_last) (by rw [ht.stage_last]; decide)
  refine ⟨t, ht.grown hg hnot, ?_, fun hl w hmem => ?_⟩
  · rw [he]; exact hk
  · rw [he] at hl hmem
    exact hh w (hw hl w hmem)

end Definition

end SchemaMock
