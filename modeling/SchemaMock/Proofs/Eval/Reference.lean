import SchemaMock.Proofs.Eval.Conjunct
import SchemaMock.Proofs.Eval.Lookup
import SchemaMock.Proofs.Eval.Turn

/-! # Following references

A reference to a vertex that is not around the one at hand is replaced by the seeds of its target.
What a name refers to, and what is around a vertex, stays the same while other vertices are dealt
with.
-/

namespace SchemaMock

open Arena Eval

namespace Arena

variable {a b : Arena} {own : Nat → Prop} {s t u v w : Nat} {label : Label}

/-! ## Names -/

/-- A name stands for the vertex of a field: one that a struct around the scope declares, or one of
the root. -/
inductive Refers (a : Arena) (label : Label) (s t : Nat) : Prop
  | declared {v u : Nat} {arc : Arc} : a.Declares label s v → a.SettlesTo v u →
      (a.vertex u).arc? label = some arc → arc.vertex = t → Refers a label s t
  | outermost {u : Nat} {arc : Arc} : a.Outside label s → a.SettlesTo root u →
      (a.vertex u).arc? label = some arc → arc.vertex = t → Refers a label s t

theorem lookupName_of_outermost {name : String} {arc : Arc}
    (h : a.Outside (.ofIdent name.toList) s) (hroot : a.SettlesTo root u)
    (harc : (a.vertex u).arc? (.ofIdent name.toList) = some arc) :
    a.lookupName name s = .ok (.vertex arc.vertex) := by
  have hlast (imports : List String) :
      a.lookupOutermost name imports = .ok (.vertex arc.vertex) := by
    rw [lookupOutermost, follow_of_settlesTo hroot, harc]
  have hgo (n : Nat) (hn : s < n) : lookupName.go a name n s = .ok (.vertex arc.vertex) := by
    induction h generalizing n with
    | root hs hd =>
      cases n with
      | zero => omega
      | succ n => simp only [lookupName.go, hd, hlast]
    | within hs hd hl hp _ ih =>
      cases n with
      | zero => omega
      | succ n =>
        simp only [lookupName.go, hd, hl]
        exact ih n (by omega)
  exact hgo _ h.lt_size

theorem Refers.lookupName {name : String} (h : a.Refers (.ofIdent name.toList) s t) :
    a.lookupName name s = .ok (.vertex t) := by
  cases h with
  | declared hd hsettles harc ht =>
    rw [← ht]
    exact lookupName_of_declares hd (by rw [follow_of_settlesTo hsettles]; exact harc)
  | outermost ho hsettles harc ht =>
    rw [← ht]
    exact lookupName_of_outermost ho hsettles harc

/-- A struct that does not declare the name leaves it to what is around it. -/
theorem Refers.within {p v : Nat} {decls : List Decl} (h : a.Refers label p t)
    (hs : s < a.scopes.size) (hscope : a.scope s = .struct p decls v)
    (hdecls : decls.any (Decl.declares label) = false) (hp : p < s) :
    a.Refers label s t := by
  cases h with
  | declared hd hsettles harc ht => exact .declared (.outer hs hscope hdecls hp hd) hsettles harc ht
  | outermost ho hsettles harc ht =>
    exact .outermost (.within hs hscope hdecls hp ho) hsettles harc ht

theorem Declares.lt_size (h : a.Declares label s v) : s < a.scopes.size := by
  cases h with
  | here hs _ _ => exact hs
  | outer hs _ _ _ _ => exact hs

theorem Refers.lt_size (h : a.Refers label s t) : s < a.scopes.size := by
  cases h with
  | declared hd _ _ _ => exact hd.lt_size
  | outermost ho _ _ _ => exact ho.lt_size

theorem arc?_of_settlesTo (h : a.SettlesTo v u) (hi : Intact own a b)
    (hown : ∀ u, own u → (a.vertex u).stage ≠ .done) :
    (b.vertex u).arc? label = (a.vertex u).arc? label := by
  have hs := h.stage_last
  rw [hi.vertex_eq (by rw [hs]; decide) fun ho => hown u ho hs]

theorem Refers.intact (h : a.Refers label s t) (hi : Intact own a b)
    (hown : ∀ u, own u → (a.vertex u).stage ≠ .done) : b.Refers label s t := by
  cases h with
  | declared hd hsettles harc ht =>
    exact .declared (hd.intact hi) (hsettles.intact hi hown)
      ((arc?_of_settlesTo hsettles hi hown).trans harc) ht
  | outermost ho hsettles harc ht =>
    exact .outermost (ho.intact hi) (hsettles.intact hi hown)
      ((arc?_of_settlesTo hsettles hi hown).trans harc) ht

/-! ## Ancestors -/

/-- The vertices on the way up from a parent have settled, and `t` is none of them. -/
inductive Apart (a : Arena) (t : Nat) : Option Nat → Prop
  | top : Apart a t none
  | under {u : Nat} : (a.vertex u).stage = .done → (a.vertex u).forward = none → u ≠ t →
      Apart a t (a.vertex u).parent → Apart a t (some u)

theorem Apart.intact {p : Option Nat} (h : a.Apart t p) (hi : Intact own a b)
    (hown : ∀ u, own u → (a.vertex u).stage ≠ .done) : b.Apart t p := by
  induction h with
  | top => exact .top
  | @under u hs hf hne _ ih =>
    have hsame : b.vertex u = a.vertex u :=
      hi.vertex_eq (by rw [hs]; decide) fun ho => hown u ho hs
    exact .under (by rw [hsame]; exact hs) (by rw [hsame]; exact hf) hne (by rw [hsame]; exact ih)

theorem isAncestor_of_apart (h : a.Apart t (a.vertex v).parent) (ht : (a.vertex t).forward = none) :
    a.isAncestor t v = false := by
  have hgo {p : Option Nat} (hp : a.Apart t p) (n : Nat) : isAncestor.go a t n p = false := by
    induction hp generalizing n with
    | top => cases n <;> rfl
    | @under u _ hf hne _ ih =>
      cases n with
      | zero => rfl
      | succ n =>
        rw [isAncestor.go, follow_of_forward_eq_none hf, ih, Bool.or_false]
        exact beq_eq_false_iff_ne.mpr hne
  rw [isAncestor, follow_of_forward_eq_none ht]
  exact hgo h _

def unknownPaths (known paths : List Path) : List Path :=
  paths.foldl (fun done p => if known.contains p || done.contains p then done else done ++ [p]) []

/-- The paths that a vertex does not answer to yet. Without fills nothing asks for them. -/
def furtherPaths (a : Arena) (v : Nat) (paths : List Path) : List Path :=
  if a.fills.isEmpty && !(a.vertex v).paths.isEmpty then []
  else unknownPaths (a.vertex v).paths paths

theorem mem_of_mem_furtherPaths {paths : List Path} {p : Path} (h : p ∈ a.furtherPaths v paths) :
    p ∈ paths := by
  have hfold (known done : List Path) : ∀ q ∈ paths.foldl (fun done p =>
      if known.contains p || done.contains p then done else done ++ [p]) done,
      q ∈ done ∨ q ∈ paths := by
    clear h
    induction paths generalizing done with
    | nil => exact fun q hq => .inl hq
    | cons r paths ih =>
      intro q hq
      rcases ih _ q hq with hq | hq
      · dsimp only at hq
        split at hq
        · exact .inl hq
        · rcases List.mem_append.mp hq with hq | hq
          · exact .inl hq
          · exact .inr (List.mem_singleton.mp hq ▸ List.mem_cons_self)
      · exact .inr (List.mem_cons_of_mem r hq)
  unfold furtherPaths at h
  split at h
  · cases h
  · exact (hfold _ [] p h).resolve_left List.not_mem_nil

end Arena

def Conjunct.through (c : Conjunct) (y : Vertex) (seed : Conjunct) : Conjunct :=
  { seed with
    closed := seed.closed || (c.closed || (y.paths.head?.map Path.hasDefinition).getD false)
    group := c.group }

namespace Eval

variable {process : Nat → Eval Unit} {a b : Arena} {t u v w : Nat} {c : Conjunct}

/-! ## Targets -/

theorem copyTarget_of_copied (h : t ∈ (a.vertex v).copied) : copyTarget v t c a = ([], a) := by
  rw [copyTarget, run_bind]
  exact congrFun (if_pos (by simpa [vertex] using h)) a

/-- A vertex answers to further paths, and so do its fields. -/
theorem addPaths_eq (v : Nat) (paths : List Path) (a : Arena) :
    addPaths v paths a =
      if (a.furtherPaths v paths).isEmpty then ((), a)
      else ((a.vertex v).arcs.forM fun e => addPathsToArc v (a.furtherPaths v paths) e.1 e.2.vertex)
        (a.modify v fun x => { x with paths := x.paths ++ a.furtherPaths v paths }) := by
  rw [addPaths, run_bind]
  dsimp only [vertex]
  rw [run_bind]
  dsimp only [view]
  by_cases hfills : (a.fills.isEmpty && !(a.vertex v).paths.isEmpty) = true
  · rw [show a.furtherPaths v paths = [] from if_pos hfills]
    exact congrFun (if_pos hfills) a
  · have hpaths : a.furtherPaths v paths = unknownPaths (a.vertex v).paths paths := if_neg hfills
    refine (congrFun (if_neg hfills) a).trans ?_
    show (if !(unknownPaths (a.vertex v).paths paths).isEmpty then _ else _ : Eval Unit) a = _
    rw [← hpaths]
    cases hadded : a.furtherPaths v paths with
    | nil => rfl
    | cons p ps =>
      show ((a.vertex v).arcs.forM fun e =>
        addPathsToArc v (unknownPaths (a.vertex v).paths paths) e.1 e.2.vertex)
        (a.modify v fun x => { x with paths := x.paths ++ unknownPaths (a.vertex v).paths paths }) =
          _
      rw [← hpaths, hadded]
      rfl

/-- A vertex without fields answers to further paths. -/
theorem run_addPaths (paths : List Path) (harcs : (a.vertex v).arcs = []) :
    addPaths v paths a = ((), a.modify v fun x =>
      { x with paths := x.paths ++ a.furtherPaths v paths }) := by
  rw [addPaths_eq, harcs]
  split
  · next h =>
    refine congrArg (Prod.mk ()) (modify_eq_self ?_).symm
    rw [List.isEmpty_iff.mp h, List.append_nil]
  · rfl

/-- A target joins the vertex for the first time. -/
theorem copyTarget_of_addPaths (c : Conjunct) (hnew : t ∉ (a.vertex v).copied) (hne : t ≠ v)
    (h : addPaths v (a.vertex t).paths (a.modify v fun x => { x with copied := x.copied ++ [t] }) = ((), b)) :
    copyTarget v t c a = ((a.vertex t).seeds.map (c.through (a.vertex t)), b) := by
  have ht : (a.modify v fun x => { x with copied := x.copied ++ [t] }).vertex t = a.vertex t :=
    vertex_modify_of_ne a _ hne
  rw [copyTarget, run_bind]
  refine (congrFun (if_neg (by simpa [vertex] using hnew)) a).trans ?_
  rw [run_bind, run_bind, run_bind]
  dsimp only [update, vertex]
  rw [ht, h]
  rfl

theorem furtherPaths_modify (paths : List Path) {f : Vertex → Vertex} (hlt : v < a.vertices.size)
    (hf : (f (a.vertex v)).paths = (a.vertex v).paths) :
    (a.modify v f).furtherPaths v paths = a.furtherPaths v paths := by
  simp only [furtherPaths, vertex_modify f hlt, hf]
  rfl

/-- A vertex without fields takes over the seeds and the paths of a target. -/
theorem run_copyTarget (c : Conjunct) (hnew : t ∉ (a.vertex v).copied)
    (hlt : v < a.vertices.size) (harcs : (a.vertex v).arcs = []) (hne : t ≠ v) :
    copyTarget v t c a = ((a.vertex t).seeds.map (c.through (a.vertex t)), a.modify v fun x =>
      { x with copied := x.copied ++ [t], paths := x.paths ++ a.furtherPaths v (a.vertex t).paths }) := by
  let f (x : Vertex) : Vertex := { x with copied := x.copied ++ [t] }
  have hv : (a.modify v f).vertex v = f (a.vertex v) := vertex_modify f hlt
  have hpaths :=
    run_addPaths (a := a.modify v f) (v := v) (a.vertex t).paths (by rw [hv]; exact harcs)
  rw [furtherPaths_modify _ hlt rfl, modify_modify] at hpaths
  exact copyTarget_of_addPaths c hnew hne hpaths

/-- A reference is replaced by the seeds of its target. -/
theorem addReference_of_target {x : Expr}
    (hr : (resolve process c.scope x).run a = (.ok (.vertex t), b))
    (hne : t ≠ v) (ht : (b.vertex t).forward = none) (hv : (b.vertex v).forward = none)
    (happart : b.Apart t (b.vertex v).parent) :
    addReference process v x c a = (⟨(copyTarget v t c b).1, [], []⟩, (copyTarget v t c b).2) := by
  rw [addReference_of_vertex hr, follow_of_forward_eq_none ht, follow_of_forward_eq_none hv,
    if_neg (by simp [hne]), isAncestor_of_apart happart ht]
  rfl

/-! ## Selections -/

theorem arrive_of_settle {left : Nat} (h : settle (processAt left) v a = (w, b))
    (hs : (b.vertex w).stage = .done) : arrive (processAt left) v a = (w, b) := by
  have hdone : processAt left w b = ((), b) := processAt_of_stage left (by rw [hs]; decide)
  rw [arrive, run_bind, h]
  dsimp only
  rw [run_bind, hdone]
  rfl

theorem run_select_of_part {s : Selector} (h : arrive process v a = (w, b))
    (hd : (b.vertex w).disjuncts = []) (hu : (b.vertex w).part? s = some u) :
    (select process v s).run a = (.ok u, b) := by
  rw [run_select h, partOf, Attempt.run_bind, Attempt.run_perform]
  dsimp only [vertex]
  rw [hd, hu]
  rfl

end Eval

end SchemaMock
