import SchemaMock.Proofs.Eval.Closing
import SchemaMock.Proofs.Eval.Constrained

/-! # Records of a definition

A vertex has an object of scalars and refers to a definition. It takes the object in, then the
declarations of the definition as a closed struct. It ends as a struct, each of whose fields has yet
to be unified with the scalar of the object and with whatever is declared for its name.
-/

namespace SchemaMock

open Arena Eval

namespace Member

/-- The declarations that an object of scalars is written with. -/
def ofScalars (os : List (String × Scalar)) : List Member :=
  os.map fun o => .field o.1 false (.equal (.plain o.2))

theorem pattern?_ofScalars (os : List (String × Scalar)) :
    (ofScalars os).filterMap pattern? = [] := by
  rw [ofScalars, List.filterMap_map]
  exact List.filterMap_eq_nil_iff.mpr fun _ _ => rfl

theorem ofPattern_ofScalars (os : List (String × Scalar)) (k : String) :
    (ofScalars os).flatMap (ofPattern k) = [] := by
  rw [ofScalars, List.flatMap_map]
  exact List.flatMap_eq_nil_iff.mpr fun _ _ => rfl

theorem allOf_append (os : List (String × Scalar)) (ms : List Member) (k : String) :
    allOf (ofScalars os ++ ms) k = (ofScalars os).flatMap (ofField k) ++ allOf ms k := by
  rw [allOf, allOf, List.flatMap_append, List.flatMap_append, ofPattern_ofScalars, List.nil_append,
    List.append_assoc]

theorem declares_of_requires {m : Member} {k : String} (h : m.requires k = true) :
    m.declares k = true := by
  cases m with
  | field name optional t => exact (Bool.and_eq_true _ _ ▸ h).1
  | _ => cases h

theorem mem_conditions_of_mem_ofField {m : Member} {k : String} {t : Condition}
    (h : t ∈ m.ofField k) : t ∈ m.conditions := by
  cases m with
  | field name optional u =>
    rw [ofField] at h
    split at h
    · exact h
    · cases h
  | _ => cases h

theorem mem_conditions_of_mem_ofPattern {m : Member} {k : String} {t : Condition}
    (h : t ∈ m.ofPattern k) : t ∈ m.conditions := by
  cases m with
  | pattern label u =>
    rw [ofPattern] at h
    split at h
    · exact List.mem_cons_of_mem label h
    · cases h
  | _ => cases h

def faults (ms : List Member) (k : String) : List Fault :=
  if ms.any (·.knows k) then [] else [.of (.fieldNotAllowed k)]

theorem closedSeeds_eq (ms : List Member) (k : String) :
    closedSeeds ms k = (faults ms k).map fun f => ⟨.fault f, plainScope, false, none⟩ := by
  rw [closedSeeds, faults]
  split <;> rfl

/-- The type names in the declarations are not names of their fields, and their conditions nest no
deeper than expressions do. -/
def Legible (ms : List Member) : Prop :=
  ∀ m ∈ ms, ∀ t ∈ m.conditions, t.height ≤ maxDepth ∧ ∀ name ∈ t.names,
    ms.any (·.declares name) = false

end Member

/-- The name of a type is the name of a regular field. -/
theorem Label.ofIdent_of_ofTypeName? {name : String}
    (h : (Constraint.ofTypeName? name).isSome = true) :
    Label.ofIdent name.toList = .regular name := by
  unfold Constraint.ofTypeName? at h
  split at h
  all_goals first | decide | exact absurd h Bool.false_ne_true

def Draft.ofRecord (plain scope : Nat) (os : List (String × Scalar)) (ms : List Member) : Draft :=
  (((empty.takeAll plain false (Member.ofScalars os)).takeAll scope true ms).extend
    (patternSeeds scope true ms)).extend (closedSeeds ms)

namespace Draft

variable (plain scope : Nat) (os : List (String × Scalar)) (ms : List Member) (k : String)

theorem mem_ofRecord :
    k ∈ (ofRecord plain scope os ms).names ↔
    (Member.ofScalars os ++ ms).any (·.declares k) = true := by
  have hnames : (ofRecord plain scope os ms).names =
      ((empty.takeAll plain false (Member.ofScalars os)).takeAll scope true ms).names := rfl
  rw [hnames, mem_takeAll, mem_takeAll, List.any_append, Bool.or_eq_true]
  simp [empty]

theorem required_ofRecord :
    (ofRecord plain scope os ms).required k = (Member.ofScalars os ++ ms).any (·.requires k) := by
  have hrequired : (ofRecord plain scope os ms).required k =
      ((empty.takeAll plain false (Member.ofScalars os)).takeAll scope true ms).required k := rfl
  rw [hrequired, required_takeAll, required_takeAll, List.any_append]
  rfl

theorem seeds_ofRecord (hk : k ∈ (ofRecord plain scope os ms).names) :
    (ofRecord plain scope os ms).seeds k =
    ((Member.ofScalars os).flatMap (·.ofField k)).map (fun t => .of t.toExpr plain false) ++
      (Member.allOf ms k).map (fun t => .of t.toExpr scope true) ++
      (Member.faults ms k).map fun f => ⟨.fault f, plainScope, false, none⟩ := by
  have hseeds : (ofRecord plain scope os ms).seeds k =
      ((empty.takeAll plain false (Member.ofScalars os)).takeAll scope true ms).seeds k ++
        patternSeeds scope true ms k ++ closedSeeds ms k := by
    refine (if_pos hk).trans (congrArg (· ++ _) (if_pos hk))
  rw [hseeds, seeds_takeAll, seeds_takeAll, patternSeeds, Member.closedSeeds_eq, Member.allOf,
    List.map_append]
  simp [empty]

end Draft

namespace Arena

variable {a b : Arena} {own : Nat → Prop} {s t v outer : Nat} {name : String} {ms : List Member}

theorem any_declares_toDecl (ms : List Member) (k : String) :
    (ms.map Member.toDecl).any (Decl.declares (.regular k)) = ms.any (·.declares k) := by
  rw [List.any_map]
  refine congrArg (List.any ms) (funext fun m => ?_)
  cases m with
  | field name optional t =>
    rw [Bool.eq_iff_iff]
    simp [Member.toDecl, Decl.declares, Member.declares, eq_comm]
  | _ => rfl

theorem conditions_of_clear {ts : List Condition} (h : ∀ t ∈ ts, a.Clear s t) (closed : Bool) :
    a.Conditions (ts.map fun t => .of t.toExpr s closed) ts := by
  rw [Conditions, List.forall₂_map_left_iff, List.forall₂_same]
  exact fun t ht => ⟨rfl, h t ht⟩

/-- The type names in declarations stand for types inside their struct too. -/
theorem Readable.within {inner : Nat} (h : a.Readable outer ms) (hms : Member.Legible ms)
    (hinner : inner < a.scopes.size) (hscope : a.scope inner = .struct outer (ms.map Member.toDecl) v)
    (hlt : outer < inner) : a.Readable inner ms := by
  intro m hm t ht
  refine ⟨fun name hname => ?_, (h m hm t ht).2⟩
  obtain ⟨houtside, hroot⟩ := (h m hm t ht).1 name hname
  refine ⟨.within hinner hscope ?_ hlt houtside, hroot⟩
  rw [Label.ofIdent_of_ofTypeName? (Condition.isSome_of_mem_names hname), any_declares_toDecl]
  exact (hms m hm t ht).2 name hname

/-- A name stands for a definition whose declarations are known. -/
structure Defined (a : Arena) (name : String) (s t outer : Nat) (ms : List Member) : Prop where
  refers : a.Refers (.ofIdent name.toList) s t
  lt : t < a.vertices.size
  forward : (a.vertex t).forward = none
  seeds : (a.vertex t).seeds = [.of (.struct (ms.map Member.toDecl)) outer false]
  hidden : ((a.vertex t).paths.head?.map Path.hasDefinition).getD false = true
  below : a.hasFillsBelow (a.vertex t).paths = false
  scope : outer < a.scopes.size
  readable : a.Readable outer ms

theorem Defined.extends (h : a.Defined name s t outer ms) (hab : Extends own a b) (ht : ¬ own t) :
    b.Defined name s t outer ms := by
  have hsame : b.vertex t = a.vertex t := hab.vertex h.lt fun ho => ht ho.1
  exact {
    refers := h.refers.intact hab Extends.not_done
    lt := Nat.lt_of_lt_of_le h.lt hab.size
    forward := by rw [hsame]; exact h.forward
    seeds := by rw [hsame]; exact h.seeds
    hidden := by rw [hsame]; exact h.hidden
    below := by rw [hsame, hab.hasFillsBelow]; exact h.below
    scope := Nat.lt_of_lt_of_le h.scope hab.scopes
    readable := h.readable.extends hab }

/-- A vertex that is done as a struct, and whose fields have yet to be unified with what is declared
for them. -/
structure Record (a : Arena) (v : Nat) (d : Draft) (place : String → Nat)
    (ts : String → List Condition) (fs : String → List Fault) : Prop where
  stage : (a.vertex v).stage = .done
  forward : (a.vertex v).forward = none
  pending : (a.vertex v).pending = []
  val : (a.vertex v).val = .ofKinds .ofStruct
  arcs : (a.vertex v).arcs = d.arcs place
  nodup : d.names.Nodup
  apart : ∀ k ∈ d.names, ∀ l ∈ d.names, place k = place l → k = l
  part : ∀ k ∈ d.names, a.Constrained (place k) (ts k) (fs k)

variable {n plain scope : Nat} {os : List (String × Scalar)} {place : String → Nat} {k : String}

theorem readable_ofScalars (a : Arena) (scope : Nat) (os : List (String × Scalar)) :
    a.Readable scope (Member.ofScalars os) := by
  intro m hm t ht
  obtain ⟨o, -, rfl⟩ := List.mem_map.mp hm
  obtain rfl := List.mem_singleton.mp ht
  exact ⟨List.forall_mem_nil _, (by decide : 1 ≤ maxDepth)⟩

theorem Readable.of_mem_flatMap (h : a.Readable scope ms) {f : Member → List Condition}
    (hf : ∀ m, ∀ t ∈ f m, t ∈ m.conditions) {t : Condition} (ht : t ∈ ms.flatMap f) :
    a.Clear scope t ∧ t.height ≤ maxDepth := by
  obtain ⟨m, hm, ht⟩ := List.mem_flatMap.mp ht
  exact h m hm t (hf m t ht)

theorem Readable.of_mem_allOf (h : a.Readable scope ms) {t : Condition}
    (ht : t ∈ Member.allOf ms k) : a.Clear scope t ∧ t.height ≤ maxDepth :=
  (List.mem_append.mp ht).elim (h.of_mem_flatMap fun _ _ => Member.mem_conditions_of_mem_ofField)
    (h.of_mem_flatMap fun _ _ => Member.mem_conditions_of_mem_ofPattern)

/-- A field of the draft has yet to be unified with what is declared for it. -/
theorem Drafted.constrained (h : a.Drafted n v (.ofRecord plain scope os ms) place)
    (hms : a.Readable scope ms) (hk : k ∈ (Draft.ofRecord plain scope os ms).names) :
    a.Constrained (place k) (Member.allOf (Member.ofScalars os ++ ms) k) (Member.faults ms k) := by
  obtain ⟨paths, hpaths, hpart⟩ := h.part k hk
  have hos {t : Condition} : t ∈ (Member.ofScalars os).flatMap (·.ofField k) →
      a.Clear plain t ∧ t.height ≤ maxDepth :=
    (a.readable_ofScalars plain os).of_mem_flatMap fun _ _ => Member.mem_conditions_of_mem_ofField
  rw [Draft.seeds_ofRecord plain scope os ms k hk] at hpart
  rw [Member.allOf_append]
  refine ⟨(h.range k hk).2, ⟨some v, paths, _, hpart, ?_, hpaths⟩, ?_⟩
  · exact List.rel_append (conditions_of_clear (fun t ht => (hos ht).1) false)
      (conditions_of_clear (fun t ht => (hms.of_mem_allOf ht).1) true)
  · intro t ht
    rcases List.mem_append.mp ht with ht | ht
    · exact (hos ht).2
    · exact (hms.of_mem_allOf ht).2

/-- The turn of a vertex that has been drafted ends with a record. -/
theorem Drafted.record (h : a.Drafted n v (.ofRecord plain scope os ms) place)
    (hms : a.Readable scope ms) (hforward : (a.vertex v).forward = none)
    (hpending : (a.vertex v).pending = []) (hval : (a.vertex v).val = .ofKinds .ofStruct) :
    (a.conclude v).Record v (.ofRecord plain scope os ms) place
    (Member.allOf (Member.ofScalars os ++ ms))
      (Member.faults ms) := by
  have hlast : (a.conclude v).vertex v = { a.vertex v with stage := .done } :=
    vertex_conclude h.lt_size
  have hext : Extends (· = v) a (a.conclude v) := by
    apply (intact_conclude a v).extends_self
    rw [h.stage]
    exact Stage.noConfusion
  refine ⟨?_, ?_, ?_, ?_, ?_, h.nodup, h.apart, fun k hk => (h.constrained hms hk).extends hext
    (h.place_ne hk)⟩
  · rw [hlast]
  · rw [hlast]
    exact hforward
  · rw [hlast]
    exact hpending
  · rw [hlast]
    exact hval
  · rw [hlast]
    exact h.arcs

end Arena

namespace Eval

variable {a b : Arena} {d : Draft} {v s t outer left : Nat} {place : String → Nat} {name : String}
  {ms : List Member} {os : List (String × Scalar)}

/-! ## Validation -/

theorem fields_of_record {ts : String → List Condition} {fs : String → List Fault}
    (h : a.Record v d place ts fs) :
    (a.vertex v).fields = (d.names.filter d.required).map fun k => (.regular k, place k) := by
  rw [Vertex.fields, h.arcs, Draft.arcs, List.filter_map, List.map_map]
  rfl

/-- Validation finds nothing wrong with a record just when all its required fields have scalars. -/
theorem faultsAt_of_record (levels left : Nat) {ts : String → List Condition}
    {fs : String → List Fault} (h : a.Record v d place ts fs) :
    (faultsAt (processAt (levels + 1)) (left + 2) true v a).1 = [] ↔
      ∀ k, k ∈ d.names ∧ d.required k = true → ∃ s, Condition.remains (ts k) (fs k) = .atom s := by
  have hrun : processAt (levels + 1) v a = ((), a) := processAt_of_stage _ (by rw [h.stage]; decide)
  have hregular : ∀ e ∈ (a.vertex v).fields, e.1.isRegular = true := by
    rw [fields_of_record h, List.forall_mem_map]
    exact fun _ _ => rfl
  have hplaces : ((a.vertex v).fields.map (·.2)) = (d.names.filter d.required).map place := by
    rw [fields_of_record h, List.map_map]
    rfl
  have hdistinct : ((d.names.filter d.required).map place).Nodup :=
    (h.nodup.filter _).map_on fun k hk l hl =>
      h.apart k (List.mem_of_mem_filter hk) l (List.mem_of_mem_filter hl)
  rw [faultsAt_of_regular (settle_of_forward hrun h.forward) h.val h.pending hregular, hplaces]
  refine (flatten_faults_eq_nil levels left _ hdistinct fun k hk => h.part k (List.mem_of_mem_filter hk)).trans ?_
  simp only [List.mem_filter]

/-! ## Processing -/

/-- An object joins a vertex that has nothing yet. -/
theorem exists_object (process : Nat → Eval Unit) (os : List (String × Scalar))
    {parent : Option Nat} {paths : List Path} {seeds : List Conjunct} (hlt : v < a.vertices.size)
    (hbelow : a.hasFillsBelow paths = false)
    (hv : a.vertex v = { Vertex.fresh parent paths seeds with stage := .processing })
    (scope : Nat) :
    let c : Conjunct := .of (.struct ((Member.ofScalars os).map Member.toDecl)) scope false
    ∃ b place, addConjunct process v c a = (.keep c, b) ∧
      b.Drafted a.vertices.size v (Draft.empty.takeAll a.scopes.size false (Member.ofScalars os))
        place ∧
      Extends (fun u => u = v ∨ a.vertices.size ≤ u) a b ∧
      b.vertex v = { a.vertex v with val := .ofKinds .ofStruct, arcs := (b.vertex v).arcs } := by
  intro c
  have hdraft : a.Drafted a.vertices.size v .empty fun _ => 0 := by
    refine ⟨hlt, Nat.le_refl _, ?_, ?_, ?_, List.nodup_nil, ?_, ?_, ?_, fun _ _ => ⟨rfl, rfl⟩⟩
    · rw [hv]
    · rw [hv]
      exact hbelow
    · rw [hv]
      rfl
    · exact List.forall_mem_nil _
    · exact List.forall_mem_nil _
    · exact List.forall_mem_nil _
  obtain ⟨b, place, hrun, hb, hab, hvb, -⟩ := exists_struct hdraft (c := c) rfl (by rw [hv]; rfl)
    (by rw [hv]; exact .inl rfl) (Member.ofScalars os)
  refine ⟨b, place, ?_, hb, hab, ?_⟩
  · rw [addConjunct_of_expr rfl]
    show (addStruct v ((Member.ofScalars os).map Member.toDecl) c >>= fun embedded =>
      (return ⟨embedded, [c], []⟩ : Eval Yield)) a = _
    rw [run_bind, hrun]
    rfl
  · rw [hvb, Member.pattern?_ofScalars]
    simp [c, hv, Vertex.fresh, Conjunct.of]

def closedStruct (outer : Nat) (ms : List Member) : Conjunct :=
  .of (.struct (ms.map Member.toDecl)) outer true

/-- A definition joins a struct by reference. Its declarations come next. -/
theorem exists_referred (process : Nat → Eval Unit) {n : Nat} (hdraft : a.Drafted n v d place)
    (h : a.Defined name s t outer ms) (hne : t ≠ v) (hforward : (a.vertex v).forward = none)
    (hcopied : (a.vertex v).copied = []) (happart : a.Apart t (a.vertex v).parent) :
    ∃ b, addConjunct process v (.of (.ident name) s false) a =
      (⟨[closedStruct outer ms], [], []⟩, b) ∧
      b.Drafted n v d place ∧ Extends (fun u => u = v ∨ n ≤ u) a b ∧
      b.vertex v = { a.vertex v with copied := (b.vertex v).copied, paths := (b.vertex v).paths } := by
  let r : Conjunct := .of (.ident name) s false
  have hresolve : (resolve process r.scope (.ident name)).run a = (.ok (.vertex t), a) := by
    show (Attempt.ofExcept (a.lookupName name s)).run a = _
    rw [h.refers.lookupName]
    rfl
  obtain ⟨b, hcopy, hb, hab, hvb⟩ :=
    exists_copied hdraft r (t := t) (by rw [hcopied]; exact List.not_mem_nil)
    hne h.below
  have hthrough : (a.vertex t).seeds.map (r.through (a.vertex t)) = [closedStruct outer ms] := by
    rw [h.seeds, List.map_singleton, Conjunct.through, h.hidden]
    rfl
  refine ⟨b, ?_, hb, hab, ?_⟩
  · rw [addConjunct_of_expr (x := .ident name) rfl]
    show addReference process v (.ident name) r a = _
    rw [addReference_of_target hresolve hne h.forward hforward happart, hcopy, hthrough]
  · rw [hvb]

/-- The declarations of a definition join an object. -/
theorem exists_declared (process : Nat → Eval Unit) {n : Nat} (hdraft : a.Drafted n v d place)
    (hval : (a.vertex v).val = .ofKinds .ofStruct) (hgroups : (a.vertex v).groups = [])
    (hpatterns : (a.vertex v).patterns = []) (hscope : outer < a.scopes.size)
    (hms : a.Readable outer ms) (hlegible : Member.Legible ms) :
    let c := closedStruct outer ms
    let scope := a.scopes.size
    ∃ b place, addConjunct process v c a = (.keep c, b) ∧
      b.Drafted n v (d.takeAll scope true ms) place ∧ Extends (fun u => u = v ∨ n ≤ u) a b ∧
      b.vertex v = { a.vertex v with
        val := .ofKinds .ofStruct
        arcs := (b.vertex v).arcs
        patterns := (ms.filterMap Member.pattern?).map (Member.toPattern scope true)
        groups := [Member.group scope ms] } ∧
      b.Readable scope ms := by
  intro c scope
  obtain ⟨b, place, hrun, hb, hab, hvb, hsb⟩ :=
    exists_struct hdraft (c := c) rfl hgroups (.inr hval) ms
  refine ⟨b, place, ?_, hb, hab, ?_, ?_⟩
  · rw [addConjunct_of_expr rfl]
    show (addStruct v (ms.map Member.toDecl) c >>= fun embedded =>
      (return ⟨embedded, [c], []⟩ : Eval Yield)) a = _
    rw [run_bind, hrun]
    rfl
  · rw [hvb, hpatterns]
    rfl
  · have hinner : b.scope scope = .struct outer (ms.map Member.toDecl) v := by
      simp only [Arena.scope, hsb, scope]
      simp [c, closedStruct, Conjunct.of]
    refine (hms.extends hab).within hlegible ?_ hinner hscope
    rw [hsb, Array.size_push]
    exact Nat.lt_succ_self _

/-- A vertex with an object, which refers to a definition, becomes a record. -/
theorem exists_record (left : Nat) {parent : Option Nat} {paths : List Path}
    (hlt : v < a.vertices.size)
    (hv : a.vertex v = .fresh parent paths
      [.of (.struct ((Member.ofScalars os).map Member.toDecl)) plainScope false,
        .of (.ident name) s false])
    (hbelow : a.hasFillsBelow paths = false) (h : a.Defined name s t outer ms) (hne : t ≠ v)
    (happart : a.Apart t parent) (hlegible : Member.Legible ms) :
    ∃ b d place, processAt (left + 2) v a = ((), b) ∧
      b.Record v d place (Member.allOf (Member.ofScalars os ++ ms)) (Member.faults ms) ∧
      ∀ k, k ∈ d.names ∧ d.required k = true ↔
        (Member.ofScalars os ++ ms).any (·.requires k) = true := by
  let e := a.begin v
  let n := e.vertices.size
  have hs : (a.vertex v).stage = .pending := by
    rw [hv]
    rfl
  have hstart : e.vertex v = { a.vertex v with stage := .processing } := vertex_begin hlt
  have hae : Extends (· = v) a e :=
    (intact_begin a v).extends_self (by rw [hs]; exact Stage.noConfusion)
  rw [hv] at hstart
  have hlte : v < n := Nat.lt_of_lt_of_le hlt hae.size
  have hte : t < n := Nat.lt_of_lt_of_le h.lt hae.size
  have hkeep : ¬ (t = v ∨ n ≤ t) := by
    rintro (ht | ht)
    · exact hne ht
    · exact Nat.not_le_of_lt hte ht
  have he := h.extends hae hne
  -- the object comes first, so that the definition finds a struct
  obtain ⟨b₁, place₁, hobject, hb₁, heb₁, hv₁⟩ :=
    exists_object (processAt (left + 1)) os (a := e) hlte
    (by rw [hae.hasFillsBelow]; exact hbelow) hstart plainScope
  have h₁ := he.extends heb₁ hkeep
  obtain ⟨b₂, hreferred, hb₂, hb₁₂, hv₂⟩ := exists_referred (processAt (left + 1)) hb₁ h₁ hne
    (by rw [hv₁, hstart]; rfl) (by rw [hv₁, hstart]; rfl)
    (by
      rw [hv₁, hstart]
      exact (happart.intact hae Extends.not_done).intact heb₁ Extends.not_done)
  have h₂ := h₁.extends hb₁₂ hkeep
  obtain ⟨b₃, place₃, hdeclared, hb₃, hb₂₃, hv₃, hreadable⟩ :=
    exists_declared (processAt (left + 1)) hb₂
    (by rw [hv₂, hv₁]) (by rw [hv₂, hv₁, hstart]; rfl) (by rw [hv₂, hv₁, hstart]; rfl) h₂.scope
    h₂.readable hlegible
  obtain ⟨b₄, hfinish, hb₄, hb₃₄⟩ := exists_finished left hb₃ (by rw [hv₃, hv₂, hv₁]; rfl)
    (by rw [hv₃, hv₂, hv₁, hstart]; rfl) (by rw [hv₃]) (by rw [hv₃]) hreadable
  have hround₁ : (e.vertex v).seeds.mapM (addConjunct (processAt (left + 1)) v) e =
      ([.keep (.of (.struct ((Member.ofScalars os).map Member.toDecl)) plainScope false),
        ⟨[closedStruct outer ms], [], []⟩], b₂) := by
    rw [hstart]
    show [_, _].mapM (addConjunct (processAt (left + 1)) v) e = _
    rw [run_mapM_cons, hobject]
    dsimp only
    rw [run_mapM_cons, hreferred]
    rfl
  have hround₂ : [closedStruct outer ms].mapM (addConjunct (processAt (left + 1)) v) b₂ =
      ([.keep (closedStruct outer ms)], b₃) := by
    rw [run_mapM_cons, hdeclared]
    rfl
  obtain ⟨rounds, hr⟩ : ∃ rounds, roundLimit e = rounds + 1 + 1 := by
    obtain ⟨rounds, hr, hle⟩ := exists_rounds_left e
    have hsome : 1 ≤ rounds := Nat.le_trans (by decide) hle
    exact ⟨rounds - 1, by omega⟩
  have hrounds := addRounds_of_mapM hround₁ rfl rfl rfl (addRounds_of_mapM hround₂ rfl rfl rfl
    (addRounds_nil rounds))
  rw [← hr] at hrounds
  have hrun := processAt_of_unifySeeds hs ((unifySeeds_of_addRounds hrounds).trans hfinish)
  have hlast := vertex_of_extends hb₃ hb₃₄
  refine ⟨b₄.conclude v, .ofRecord e.scopes.size b₂.scopes.size os ms, place₃, hrun,
    Drafted.record hb₄ (hreadable.extends hb₃₄) ?_ ?_ ?_, fun k => ?_⟩
  · rw [hlast, hv₃, hv₂, hv₁, hstart]
    rfl
  · rw [hlast, hv₃, hv₂, hv₁, hstart]
    rfl
  · rw [hlast, hv₃]
  · rw [Draft.mem_ofRecord, Draft.required_ofRecord]
    refine and_iff_right_of_imp fun hrequires => ?_
    rw [List.any_eq_true] at hrequires ⊢
    obtain ⟨m, hm, hmk⟩ := hrequires
    exact ⟨m, hm, Member.declares_of_requires hmk⟩

end Eval

end SchemaMock
