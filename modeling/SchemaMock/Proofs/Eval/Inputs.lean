import SchemaMock.Proofs.Eval.Growth

/-! # The beginning of an evaluation

The arena of some inputs holds one vertex, the root, which is yet to be evaluated. Its seeds are the
inputs, each in a scope of its own.
-/

namespace SchemaMock.Arena

variable {fills : List Fill} {done : List Conjunct × Arena}

/-- Nothing but conjuncts for the root has been brought in. -/
structure Gathered (fills : List Fill) (done : List Conjunct × Arena) : Prop where
  vertices : done.2.vertices = #[]
  fills : done.2.fills = fills
  seeds : ∀ c ∈ done.1, ∃ x s, c = .of x s false

theorem gathered_addInput (h : Gathered fills done) (i : Input) :
    Gathered fills (addInput done i) := by
  have hmore (x : Expr) (s : Nat) : ∀ c ∈ done.1 ++ [.of x s false], ∃ x s, c = .of x s false :=
    fun c hc =>
    (List.mem_append.mp hc).elim (h.seeds c) fun hc => ⟨x, s, List.mem_singleton.mp hc⟩
  cases i with
  | file f => exact ⟨h.vertices, h.fills, hmore _ _⟩
  | expr x => exact ⟨h.vertices, h.fills, hmore x _⟩

theorem gathered_inputs (inputs : List Input) (fills : List Fill) :
    Gathered fills (inputs.foldl addInput ([], ⟨#[], #[.root []], fills, [], 0⟩)) :=
  List.foldlRecOn inputs addInput ⟨rfl, rfl, List.forall_mem_nil _⟩
    fun _ h i _ => gathered_addInput h i

/-- In the beginning no vertex has a stand-in. -/
theorem linked_ofInputs (inputs : List Input) (fills : List Fill) :
    (ofInputs inputs fills).Linked := by
  refine Linked.add (fun v w hw => ?_) rfl
  have hv := lt_size_of_forward hw
  rw [(gathered_inputs inputs fills).vertices] at hv
  exact absurd hv (Nat.not_lt_zero v)

end SchemaMock.Arena
