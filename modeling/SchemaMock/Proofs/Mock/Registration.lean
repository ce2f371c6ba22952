import Mathlib.Data.List.Nodup
import SchemaMock.Mock.Registry
import SchemaMock.Proofs.Outcome

/-! # Runs of registrations

A registration writes to the registry only once its definition has been read and the scope with it
has been found without a final fault. So along a run the scope has the sources of the built-in
schema and of the definitions that were accepted, in order, and a call that breaks off leaves
everything as it was.
-/

namespace SchemaMock

/-- A call of a registry, for a host type with its default value or for a type that is written as an
expression. -/
inductive Registration where
  | type (name : String) (default : HostValue)
  | schema (name text : String)

namespace Registration

def name : Registration → String
  | type name _ => name
  | schema name _ => name

/-- The expression that is to be defined, if the type can be encoded and the text can be read. -/
def body : Registration → Except MockFault Expr
  | type name default => do
    let refuse (c : Cause) : MockFault := .encode (.type name) (Fault.of c).display
    let j ← default.mapError fun reason => refuse (.unencodableType reason)
    (Expr.shapeOf j).mapError refuse
  | schema _ text => (Expr.parse text).mapError fun m => .compile (Value.malformed m)

def definition (c : Registration) : Except MockFault Expr :=
  c.body.map (Expr.field (.definition c.name))

def apply (c : Registration) (r : Registry) : Called Registry Unit :=
  match c with
  | type name default => r.register name default
  | schema name text => r.registerSchema name text

end Registration

namespace Registry

def extended (r : Registry) (x : Expr) : Value :=
  ⟨r.scope.sources ++ [.expr x], r.scope.fills, .root⟩

def add (r : Registry) (name : String) (x : Expr) : Registry :=
  ⟨r.extended x, if r.names.contains name then r.names else r.names ++ [name]⟩

variable {r : Registry} {c : Registration} {cs : List Registration} {x : Expr}

theorem unify_definition (h : r.scope.path = .root) (x : Expr) :
    r.scope.unify (.ofExpr x) = r.extended x := by
  have hroot : (r.scope.path.isRoot && (Value.ofExpr x).path.isRoot) = true := by
    rw [h]
    rfl
  rw [Value.unify, if_pos hroot, Value.ofExpr, List.append_nil, extended]

/-! ## One registration -/

theorem perform_get (r : Registry) (f : Registry → RegistryM Unit) :
    r.perform (get >>= f) = r.perform (f r) := rfl

theorem perform_modify (r : Registry) (g : Registry → Registry) (f : PUnit → RegistryM Unit) :
    r.perform (modify g >>= f) = (g r).perform (f ⟨⟩) := rfl

theorem perform_ofExcept {α : Type} (r : Registry) (a : Except MockFault α)
    (f : α → RegistryM Unit) : r.perform (MonadExcept.ofExcept a >>= f) =
      match a with
      | .ok a => r.perform (f a)
      | .error fault => (.error fault, r) := by
  cases a <;> rfl

/-- Without a final fault the scope is written, and then the name if it is new; with one, nothing
is. -/
theorem perform_define (h : r.scope.path = .root) (name : String) (x : Expr) :
    r.perform (define name x) =
      match (r.extended (.field (.definition name) x)).faults false with
      | [] => (.ok (), r.add name (.field (.definition name) x))
      | faults => (.error (.compile faults), r) := by
  have hscope := unify_definition h (.field (.definition name) x)
  rw [define, perform_get, hscope, perform_ofExcept, check]
  cases hfaults : (r.extended (.field (.definition name) x)).faults false with
  | cons fault faults => rfl
  | nil =>
    show r.perform (modify _ >>= fun _ => get >>= _) = _
    rw [perform_modify, perform_get, add]
    cases r.names.contains name <;> rfl

theorem apply_eq (h : r.scope.path = .root) (c : Registration) :
    c.apply r = match c.definition with
      | .error fault => (.error fault, r)
      | .ok x =>
        match (r.extended x).faults false with
        | [] => (.ok (), r.add c.name x)
        | faults => (.error (.compile faults), r) := by
  have hperform : c.apply r = r.perform (MonadExcept.ofExcept c.body >>= define c.name) := by
    cases c with
    | schema name text => rfl
    | type name default =>
      cases default with
      | error reason => rfl
      | ok j => rfl
  rw [hperform, perform_ofExcept, Registration.definition]
  cases c.body with
  | error fault => rfl
  | ok x => exact perform_define h c.name x

/-- A call that was made: the registry before it, its outcome, and the registry after it. -/
structure Event where
  before : Registry
  call : Registration
  outcome : Except MockFault Unit
  after : Registry

def step (r : Registry) (c : Registration) : Event := ⟨r, c, (c.apply r).1, (c.apply r).2⟩

/-- All that a call can do: add its definition, if it has one and this leaves no final fault, or
nothing. -/
theorem step_cases (h : r.scope.path = .root) (c : Registration) :
    (∃ x, c.definition = .ok x ∧ (r.extended x).faults false = [] ∧
      r.step c = ⟨r, c, .ok (), r.add c.name x⟩) ∨
    (∀ x, c.definition = .ok x → (r.extended x).faults false ≠ []) ∧
      ∃ fault, r.step c = ⟨r, c, .error fault, r⟩ := by
  unfold step
  rw [apply_eq h]
  cases c.definition with
  | error fault => exact .inr ⟨nofun, fault, rfl⟩
  | ok x =>
    cases hfaults : (r.extended x).faults false with
    | nil => exact .inl ⟨x, rfl, hfaults, by simp only [hfaults]⟩
    | cons fault faults =>
      refine .inr ⟨?_, .compile (fault :: faults), by simp only [hfaults]⟩
      rintro _ ⟨⟩
      simp [hfaults]

/-! ## Runs -/

def run (r : Registry) : List Registration → List Event
  | [] => []
  | c :: cs => r.step c :: (r.step c).after.run cs

def replay (r : Registry) (cs : List Registration) : Registry :=
  cs.foldl (fun r c => (r.step c).after) r

def accepted (r : Registry) (cs : List Registration) : List Registration :=
  ((r.run cs).filter (·.outcome.isOk)).map (·.call)

/-- The built-in schema with definitions beside it. -/
def scopeOf (xs : List Expr) : Value := ⟨.file Mock.baseFile :: xs.map .expr, [], .root⟩

theorem faults_base : Mock.base.faults false = [] := List.isEmpty_iff.mp (by decide +kernel)

/-- How a registry stands after these calls were accepted. -/
structure Holds (r : Registry) (accepted : List Registration) : Prop where
  nodup : r.names.Nodup
  names : r.names = (accepted.map (·.name)).eraseDups
  scope : ∃ xs, accepted.mapM Registration.definition = .ok xs ∧ r.scope = scopeOf xs
  faults : r.scope.faults false = []

theorem holds_empty : empty.Holds [] := ⟨List.nodup_nil, rfl, ⟨[], rfl, rfl⟩, faults_base⟩

theorem Holds.path (h : r.Holds cs) : r.scope.path = .root := by
  obtain ⟨xs, -, hscope⟩ := h.scope
  rw [hscope]
  rfl

theorem eraseDups_concat (names : List String) (name : String) : (names ++ [name]).eraseDups =
    if names.eraseDups.contains name then names.eraseDups else names.eraseDups ++ [name] := by
  have hmem : name ∈ names.eraseDups ↔ name ∈ names := List.mem_eraseDups
  rw [List.eraseDups_append, List.removeAll]
  by_cases h : name ∈ names <;> simp [h, hmem, List.eraseDups_cons]

theorem Holds.add (h : r.Holds cs) (hx : c.definition = .ok x)
    (hfaults : (r.extended x).faults false = []) : (r.add c.name x).Holds (cs ++ [c]) := by
  refine { nodup := ?nodup, names := ?names, scope := ?scope, faults := hfaults }
  case nodup =>
    show (if r.names.contains c.name then r.names else r.names ++ [c.name]).Nodup
    split
    case isTrue => exact h.nodup
    case isFalse hnew =>
      rw [← List.concat_eq_append]
      exact List.Nodup.concat (by simpa using hnew) h.nodup
  case names =>
    rw [List.map_append, List.map_singleton, eraseDups_concat, ← h.names]
    rfl
  case scope =>
    obtain ⟨xs, hxs, hscope⟩ := h.scope
    refine ⟨xs ++ [x], ?_, ?_⟩
    · rw [List.mapM_append, hxs]
      simp [hx]
      rfl
    · show r.extended x = _
      rw [extended, hscope, scopeOf, scopeOf, List.map_append]
      rfl

/-- What a run keeps, call by call. -/
theorem holds_run {before : List Registration} (h : r.Holds before) (cs : List Registration) :
    (r.replay cs).Holds (before ++ r.accepted cs) ∧
      ∀ e ∈ r.run cs, ∃ q calls c, Holds q calls ∧ e = q.step c ∧
        e.after.scope.faults false = [] := by
  induction cs generalizing r before with
  | nil =>
    refine ⟨?_, List.forall_mem_nil _⟩
    rwa [accepted, run, List.filter_nil, List.map_nil, List.append_nil]
  | cons c cs ih =>
    rw [run, List.forall_mem_cons, replay, List.foldl_cons, ← replay]
    obtain ⟨x, hx, hfaults, hstep⟩ | ⟨-, fault, hstep⟩ := step_cases h.path c
    · obtain ⟨hholds, hall⟩ := ih (h.add hx hfaults)
      have haccepted : r.accepted (c :: cs) = c :: (r.add c.name x).accepted cs := by
        rw [accepted, run, hstep]
        rfl
      have hafter : (r.step c).after = r.add c.name x := by rw [hstep]
      rw [haccepted, hafter, List.append_cons]
      exact ⟨hholds, ⟨r, before, c, h, rfl, hfaults⟩, hall⟩
    · obtain ⟨hholds, hall⟩ := ih h
      have haccepted : r.accepted (c :: cs) = r.accepted cs := by
        rw [accepted, run, hstep]
        rfl
      have hafter : (r.step c).after = r := by rw [hstep]
      rw [haccepted, hafter]
      exact ⟨hholds, ⟨r, before, c, h, rfl, h.faults⟩, hall⟩

/-- Along every run a call succeeds just where its definition can be read and leaves the scope
without a final fault, and a call that fails leaves scope and names as they were. The names are
those of the calls that succeeded, each where it came first, and the sources of the scope are the
built-in schema and their definitions, in order. -/
theorem registrations_of_run (cs : List Registration) :
    (∀ e ∈ empty.run cs,
      (e.outcome = .ok () ↔
        ∃ x, e.call.definition = .ok x ∧ (e.before.extended x).faults false = []) ∧
      (∀ fault, e.outcome = .error fault → e.after = e.before) ∧
      e.after.scope.faults false = []) ∧
    (empty.replay cs).names.Nodup ∧
    (empty.replay cs).names = ((empty.accepted cs).map (·.name)).eraseDups ∧
    ∃ xs, (empty.accepted cs).mapM Registration.definition = .ok xs ∧
      (empty.replay cs).scope.sources = .file Mock.baseFile :: xs.map .expr ∧
      (empty.replay cs).scope.fills = [] ∧ (empty.replay cs).scope.path = .root := by
  obtain ⟨hholds, hall⟩ := holds_run holds_empty cs
  obtain ⟨xs, hxs, hscope⟩ := hholds.scope
  refine ⟨fun e he => ?_, hholds.nodup, hholds.names, xs, hxs, ?_⟩
  case refine_2 =>
    rw [hscope]
    exact ⟨rfl, rfl, rfl⟩
  obtain ⟨r, calls, c, hbefore, rfl, hfaults⟩ := hall e he
  obtain ⟨x, hx, hvalid, hstep⟩ | ⟨hnone, fault, hstep⟩ := step_cases hbefore.path c
  · rw [hstep] at hfaults ⊢
    exact ⟨⟨fun _ => ⟨x, hx, hvalid⟩, fun _ => rfl⟩, nofun, hfaults⟩
  · rw [hstep] at hfaults ⊢
    exact ⟨⟨nofun, fun ⟨x, hx, hvalid⟩ => absurd hvalid (hnone x hx)⟩, fun _ _ => rfl, hfaults⟩

example : (empty.replay [.schema "N" "int", .schema "N" "string", .type "T" (.ok (.bool true)),
    .type "U" (.error "key must be a string"), .schema "U" "[", .schema "N" ">=0"]).names =
      ["N", "T"] := by
  decide +kernel

end Registry

end SchemaMock
