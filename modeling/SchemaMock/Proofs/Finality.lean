import SchemaMock.Proofs.Eval.Finality
import SchemaMock.Proofs.Eval.Inputs
import SchemaMock.Proofs.Eval.Turn
import SchemaMock.Proofs.HostData

/-! # Which faults are final

In every arena that queries lead to, a vertex is bottom by a final fault, and what it still waits
for are incomplete ones. So a value is refused for final faults only: what is not yet concrete
compiles.
-/

namespace SchemaMock

open Arena Eval

/-! ## Processing -/

namespace Arena

theorem Parted.begin {a : Arena} (h : a.Parted) (v : Nat) : (a.begin v).Parted :=
  (parted_of_eq (b := { a with depth := a.depth + 1 }) h rfl rfl).modify v fun hx => { hx with }

theorem Parted.conclude {a : Arena} (h : a.Parted) (v : Nat) : (a.conclude v).Parted :=
  parted_of_eq (h.modify v (f := ({ · with stage := .done })) fun hx => { hx with }) rfl rfl

end Arena

namespace Eval

variable {process : Nat → Eval Unit}

theorem upholds_unifySeeds (hp : ∀ u, Keeps (Preserves Parted) (process u)) (v : Nat) :
    Upholds Parted (unifySeeds process v) fun _ => True := by
  rw [unifySeeds]
  -- the limit is a number that unification must not count down from
  generalize roundLimit = limit
  refine (upholds_vertex v).bind fun x hx => ?_
  refine (keeps_view limit).upholds.bind fun rounds _ => ?_
  refine (upholds_addRounds hp v rounds hx.seeds).bind fun r hr => ?_
  refine (upholds_vertex v).bind fun y _ => ?_
  split
  · exact upholds_finish hp v
  · exact upholds_decideChoice hp v hr.1 hr.2

theorem keeps_processAt_parted (left v : Nat) : Keeps (Preserves Parted) (processAt left v) := by
  induction left generalizing v with
  | zero =>
    refine Upholds.keeps (P := fun _ => True) ((upholds_vertex v).bind fun x _ => ?_)
    split
    · refine (keeps_view _).upholds.bind fun path _ => (upholds_meet v fun f hf => ?_).bind
        fun _ _ =>
        upholds_update v fun x hx => { hx with }
      cases hf
      rw [Fault.isIncomplete_atPath]
      rfl
    · exact upholds_pure trivial
  | succ left ih =>
    intro a ha
    by_cases hs : (a.vertex v).stage = .pending
    · rw [run_turn left hs]
      exact (upholds_unifySeeds ih v _ (ha.begin v)).1.conclude v
    · rw [processAt_of_stage _ hs]
      exact ha

theorem keeps_evaluate_parted (v : Nat) : Keeps (Preserves Parted) (evaluate v) :=
  keeps_processAt_parted maxDepth v

/-! ## Faults -/

/-- Without a demand for concrete values, the faults that are found are final. -/
theorem upholds_faultsAt (hp : ∀ u, Keeps (Preserves Parted) (process u)) (left v : Nat) :
    Upholds Parted (faultsAt process left false v) fun fs => ∀ f ∈ fs, f.isIncomplete = false := by
  induction left generalizing v with
  | zero => exact upholds_pure (List.forall_mem_singleton.mpr rfl)
  | succ left ih =>
    have hnone : ∀ f ∈ ([] : List Fault), f.isIncomplete = false := List.forall_mem_nil _
    have hflat {fss : List (List Fault)} (h : ∀ fs ∈ fss, ∀ f ∈ fs, f.isIncomplete = false) :
        ∀ f ∈ fss.flatten, f.isIncomplete = false := fun f hf =>
      (List.mem_flatten.mp hf).elim fun fs hfs => h fs hfs.1 f hfs.2
    refine (keeps_settle hp v).upholds.bind fun w _ => (upholds_vertex w).bind fun x hx => ?_
    refine (keeps_view _).upholds.bind fun path _ => ?_
    split
    · rename_i f hval
      refine upholds_pure (List.forall_mem_singleton.mpr ?_)
      rw [Fault.isIncomplete_atPath]
      exact hx.val f hval
    · split
      · exact upholds_pure hnone
      · split
        · exact (upholds_mapM fun e _ => ih e.2).bind fun _ h => upholds_pure (hflat h)
        · split
          · exact (upholds_mapM fun w _ => ih w).bind fun _ h => upholds_pure (hflat h)
          · split
            · exact upholds_pure hnone
            · exact upholds_pure hnone

end Eval

/-! ## Queries -/

/-- What an arena can be asked. -/
inductive Query where
  | lookup (path : Path)
  | faults (concrete : Bool) (v : Nat)
  | fault (v : Nat)
  | kinds (v : Nat)
  | fields (v : Nat)
  | length (v : Nat)
  | host (v : Nat)

def Query.next (a : Arena) : Query → Arena
  | lookup path => ((Eval.lookup path).run a).2
  | faults concrete v => (Eval.faults evaluate concrete v a).2
  | fault v => (Eval.faultOf v a).2
  | kinds v => (Eval.kindsOf v a).2
  | fields v => ((Eval.fieldsOf v).run a).2
  | length v => ((Eval.lengthOf v).run a).2
  | host v => ((Eval.exportVertex evaluate v).run a).2

/-- The arenas that queries lead to. -/
inductive Arena.Reached (inputs : List Input) (fills : List Fill) : Arena → Prop
  | start : Reached inputs fills (ofInputs inputs fills)
  | query {a : Arena} (h : Reached inputs fills a) (q : Query) : Reached inputs fills (q.next a)

namespace Eval

theorem keeps_lookup_parted (path : Path) : Keeps (Preserves Parted) (Eval.lookup path).run := by
  rw [lookup_eq]
  exact Attempt.keeps_bind (keeps_select_path keeps_evaluate_parted _ _) fun v =>
    Attempt.keeps_perform (keeps_arrive keeps_evaluate_parted v)

theorem keeps_faultOf (v : Nat) : Keeps (Preserves Parted) (faultOf v) := by
  refine (keeps_settle keeps_evaluate_parted v).bind fun w => (keeps_vertex w).bind fun x => ?_
  split
  · exact (keeps_view _).bind fun path => keeps_pure _
  · exact keeps_pure _

theorem keeps_kindsOf (v : Nat) : Keeps (Preserves Parted) (kindsOf v) :=
  (keeps_settle keeps_evaluate_parted v).bind fun w => (keeps_vertex w).bind fun _ => keeps_pure _

theorem keeps_listable (v : Nat) : Keeps (Preserves Parted) (listable v).run := by
  refine Attempt.keeps_bind (Attempt.keeps_perform (keeps_settle keeps_evaluate_parted v))
    fun w => ?_
  refine Attempt.keeps_bind (Attempt.keeps_perform (keeps_view _)) fun obstacle => ?_
  split
  · exact Attempt.keeps_throw _
  · exact Attempt.keeps_pure _

theorem keeps_fieldsOf (v : Nat) : Keeps (Preserves Parted) (fieldsOf v).run := by
  refine Attempt.keeps_bind (keeps_listable v) fun w => ?_
  refine Attempt.keeps_bind (Attempt.keeps_perform (keeps_vertex w)) fun x => ?_
  split
  · exact Attempt.keeps_pure _
  · exact keeps_failAt w _

theorem keeps_lengthOf (v : Nat) : Keeps (Preserves Parted) (lengthOf v).run := by
  refine Attempt.keeps_bind (keeps_listable v) fun w => ?_
  refine Attempt.keeps_bind (Attempt.keeps_perform (keeps_vertex w)) fun x => ?_
  split
  · exact Attempt.keeps_pure _
  · exact keeps_failAt w _

end Eval

theorem Arena.Parted.query {a : Arena} (h : a.Parted) (q : Query) : (q.next a).Parted := by
  cases q with
  | lookup path => exact keeps_lookup_parted path a h
  | faults concrete v => exact keeps_faults keeps_evaluate_parted concrete v a h
  | fault v => exact keeps_faultOf v a h
  | kinds v => exact keeps_kindsOf v a h
  | fields v => exact keeps_fieldsOf v a h
  | length v => exact keeps_lengthOf v a h
  | host v => exact keeps_exportVertex keeps_evaluate_parted v a h

namespace Arena

variable {inputs : List Input} {fills : List Fill}

/-- What sources and fills without faults bring in is final. -/
theorem parted_ofInputs (h : ∀ fill ∈ fills, ∃ x, fill.source = .expr x) :
    (ofInputs inputs fills).Parted := by
  have hfinal : ∀ fill ∈ fills, fill.source.Final := by
    intro fill hfill
    obtain ⟨x, hx⟩ := h fill hfill
    rw [hx]
    trivial
  have hgathered := gathered_inputs inputs fills
  refine Parted.add (a := (inputs.foldl addInput ([], ⟨#[], #[.root []], fills, [], 0⟩)).2) ?_ ?_
  · refine ⟨fun v => ?_, hgathered.fills.symm ▸ hfinal⟩
    rw [vertex_of_size_le (by rw [hgathered.vertices]; exact Nat.zero_le v)]
    exact Vertex.parted_default
  · refine Vertex.parted_fresh none [.root] fun c hc =>
      (List.mem_append.mp hc).elim (fun hc => ?_) ?_
    · obtain ⟨x, s, hc⟩ := hgathered.seeds c hc
      rw [hc]
      exact Conjunct.final_of _ _ _
    · intro hc
      obtain ⟨fill, hfill, rfl⟩ := List.mem_map.mp hc
      exact hfinal fill (hgathered.fills ▸ (List.mem_filter.mp hfill).1)

theorem Reached.parted {a : Arena} (h : Reached inputs fills a)
    (hfills : ∀ fill ∈ fills, ∃ x, fill.source = .expr x) : a.Parted := by
  induction h with
  | start => exact parted_ofInputs hfills
  | query _ q ih => exact ih.query q

end Arena

namespace Value

variable {v : Value}

/-- Without a demand for concrete values, a value that is there has final faults only. -/
theorem final_of_mem_faults (hfills : ∀ fill ∈ v.fills, ∃ x, fill.source = .expr x)
    (h : v.exists_ = true) : ∀ f ∈ v.faults false, f.isIncomplete = false := by
  rw [exists_, query_eq] at h
  rw [faults, query_eq]
  have hlookup := keeps_lookup_parted v.path (ofInputs v.sources v.fills) (parted_ofInputs hfills)
  generalize (Eval.lookup v.path).run (ofInputs v.sources v.fills) = r at h hlookup ⊢
  match r, h with
  | (.ok w, b), _ => exact (upholds_faultsAt keeps_evaluate_parted _ w b hlookup).2

/-- The root is always there. -/
theorem exists_of_isRoot (hpath : v.path = .root) : v.exists_ = true := by
  rw [exists_, query_eq, hpath, lookup_root]
  rfl

/-- A value is in scope unless it has faults, which are then reported. -/
theorem inScope_eq_error {fs : List Fault} (h : inScope none v = .error fs) :
    fs = v.faults false ∧ fs ≠ [] := by
  unfold inScope at h
  dsimp only at h
  split at h
  · cases h
  · rename_i hne
    cases h
    exact ⟨rfl, hne⟩

theorem compile_eq (text : String) : compile none text =
    match SchemaFile.parse text with
    | .ok file => inScope none (ofFile file)
    | .error m => .error (malformed m) := by
  unfold compile
  cases SchemaFile.parse text <;> simp only [Except.mapError, bind, Except.bind]

/-- A text that is refused is malformed, or has a final fault. -/
theorem not_allIncomplete_of_compile {text : String} {fs : List Fault}
    (h : compile none text = .error fs) : Fault.allIncomplete fs = false := by
  rw [compile_eq] at h
  split at h
  · rename_i file _
    obtain ⟨hfs, hne⟩ := inScope_eq_error h
    have hfinal :=
      final_of_mem_faults (v := ofFile file) (List.forall_mem_nil _) (exists_of_isRoot rfl)
    rw [← hfs] at hfinal
    obtain ⟨f, rest, rfl⟩ := List.exists_cons_of_ne_nil hne
    rw [Fault.allIncomplete, hfinal f List.mem_cons_self]
    rfl
  · cases h
    rfl

/-- Final faults and incomplete ones are never mixed up. Where no fill carries a fault, every vertex
that is bottom has a final fault and pending ones are incomplete, whatever is asked; a value that is
there has only final faults without a demand for concrete values; and so no text is refused for what
is not yet concrete. -/
theorem parted_of_reached (hfills : ∀ fill ∈ v.fills, ∃ x, fill.source = .expr x) :
    (∀ a, Reached v.sources v.fills a → ∀ w,
      (∀ f, (a.vertex w).val = .bottom f → f.isIncomplete = false) ∧
      ∀ f ∈ (a.vertex w).pending, f.isIncomplete = true) ∧
    (v.exists_ = true → ∀ f ∈ v.faults false, f.isIncomplete = false) ∧
    ∀ text fs, compile none text = .error fs → Fault.allIncomplete fs = false := by
  refine ⟨fun a ha w => ?_, final_of_mem_faults hfills, fun _ _ => not_allIncomplete_of_compile⟩
  have hx := (ha.parted hfills).vertex w
  exact ⟨hx.val, hx.pending⟩

def sampleClash : Value :=
  (ofFile ⟨none, [], [.field (.regular "x") false (.int 1)]⟩).fill ⟨[.label (.regular "x")]⟩
    (ofExpr (.int 2))

theorem parted_of_reached_clash : (∀ fill ∈ sampleClash.fills, ∃ x, fill.source = .expr x) ∧
    sampleClash.exists_ = true ∧ (sampleClash.faults false).isEmpty = false ∧
    ∀ f ∈ sampleClash.faults false, f.isIncomplete = false := by
  have hfills : ∀ fill ∈ sampleClash.fills, ∃ x, fill.source = .expr x :=
    List.forall_mem_singleton.mpr ⟨.int 2, rfl⟩
  have hexists : sampleClash.exists_ = true := exists_of_isRoot rfl
  exact ⟨hfills, hexists, by decide +kernel, (parted_of_reached hfills).2.1 hexists⟩

end Value

end SchemaMock
