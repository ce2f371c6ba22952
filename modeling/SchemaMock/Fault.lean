import SchemaMock.Builtin
import SchemaMock.Json.Writer
import SchemaMock.Limits
import SchemaMock.Path

/-! # Faults of evaluation

A fault has a cause, the path of the value it belongs to, and for a disjunction the faults of its
alternatives. Faults that only say that a value is not yet concrete are incomplete: more
constraints may still settle them. All others are final.
-/

namespace SchemaMock

inductive FaultKind where
  | malformed
  | conflict
  | incomplete
  | reference
  | cycle
  | notAllowed
  | disjunction
  | decode
deriving DecidableEq, Repr, Inhabited

/-- What is wrong with the arguments of a function. -/
inductive ArgumentProblem where
  | count (expected actual : Nat)
  | notString (found : Json)
  | notList (found : Json)
  | notNumber (found : Json)
  | noLength (found : Json)
  | emptyList

def ArgumentProblem.message : ArgumentProblem → String
  | count expected actual => s!"expected {expected} arguments, found {actual}"
  | notString found => "expected string argument, found " ++ found.compact
  | notList found => "expected list argument, found " ++ found.compact
  | notNumber found => "expected number, found " ++ found.compact
  | noLength found => "invalid argument " ++ found.compact
  | emptyList => "empty list"

inductive Cause where
  | malformed (m : Malformed)
  /- conflicts -/
  | undefinedUnary (op : UnaryOp) (operand : Scalar)
  | mismatched (op : BinaryOp) (lhs rhs : Scalar)
  | integerOverflow
  | divisionByZero
  | boundAsOperator (op : BoundOp)
  | notValueOperator (op : BinaryOp)
  | argument (f : Builtin) (problem : ArgumentProblem)
  | differentAtoms (a b : Scalar)
  | atomOfOtherKind (a : Scalar) (c : Constraint)
  | outOfBound (a : Scalar) (b : Bound)
  | noCommonKind (a b : Constraint)
  | explicitBottom
  /-- A conflict that a caller states in words of its own. -/
  | stated (message : String)
  | listLengths (a b : Nat)
  | noFields (shown : String)
  | notList (shown : String)
  | notScalar (kinds : Kinds)
  | builtinAsValue (f : Builtin)
  | packageAsValue (name : String)
  | notFunction
  | notArgument
  | returnsNotList (found : Json)
  /- cycles and depth -/
  | cyclicReference (target : String)
  | structuralCycle (target : String)
  | evaluationDepth
  | valueDepth
  | hostDepth
  /- references -/
  | unknownName (name : String)
  | undefinedMember (package name : String)
  | selectFromScalar (label : Label)
  | indexIntoScalar
  | invalidIndex (shown : String)
  | indexRange (index length : Nat)
  | notReference
  | undefinedFieldOfClosed (s : Selector)
  /- values that are not yet concrete -/
  | undefinedField (s : Selector)
  | selectFromAlternatives (s : Selector)
  | indexIntoOpen (shown : String) (index : Nat)
  | notConcrete (shown : String)
  | incompleteValue (shown : String)
  | unresolved (alternatives : List String)
  /- closed structs -/
  | fieldNotAllowed (name : String)
  /- disjunctions -/
  | tooManyAlternatives
  | noAlternative
  /- host values -/
  | integerWidth (i : Int)
  | nonFinite (x : Float)
  | unencodableType (reason : String)
  | notUnsigned (found : Json)
  | undecodable

namespace Cause

def kind : Cause → FaultKind
  | malformed _ => .malformed
  | undefinedUnary .. | mismatched .. | integerOverflow | divisionByZero | boundAsOperator _
  | notValueOperator _ | argument .. | differentAtoms .. | atomOfOtherKind .. | outOfBound ..
  | noCommonKind .. | explicitBottom | stated _ | listLengths .. | noFields _ | notList _
  | notScalar _
  | builtinAsValue _ | packageAsValue _ | notFunction | notArgument | returnsNotList _ => .conflict
  | cyclicReference _ | structuralCycle _ | evaluationDepth | valueDepth | hostDepth => .cycle
  | unknownName _ | undefinedMember .. | selectFromScalar _ | indexIntoScalar | invalidIndex _
  | indexRange .. | notReference | undefinedFieldOfClosed _ => .reference
  | undefinedField _ | selectFromAlternatives _ | indexIntoOpen .. | notConcrete _
  | incompleteValue _ | unresolved _ => .incomplete
  | fieldNotAllowed _ => .notAllowed
  | tooManyAlternatives | noAlternative => .disjunction
  | integerWidth _ | nonFinite _ | unencodableType _ | notUnsigned _ | undecodable => .decode

/-- How a message names the unary operators of scalars. -/
def unarySymbol : UnaryOp → String
  | .not => "!"
  | .neg => "-"
  | .plus => "+"
  | .notEqual => "!="
  | .less => "<"
  | .lessEqual => "<="
  | .greater => ">"
  | .greaterEqual => ">="

def boundName : BoundOp → String
  | .notEqual => "NotEqual"
  | .less => "Less"
  | .lessEqual => "LessEqual"
  | .greater => "Greater"
  | .greaterEqual => "GreaterEqual"

def message : Cause → String
  | malformed m => m.fault.message
  | undefinedUnary op x =>
    s!"invalid operation {unarySymbol op}{x.display} (operator not defined on {x.kinds.display})"
  | mismatched op x y =>
    s!"invalid operation {x.display} {op.symbol} {y.display} " ++
      s!"(mismatched types {x.kinds.display} and {y.kinds.display})"
  | integerOverflow => "integer overflow"
  | divisionByZero => "division by zero"
  | boundAsOperator op => s!"bound {boundName op} cannot be applied as a value operator"
  | notValueOperator op => s!"operator {op.symbol} is not a value operator"
  | argument f problem => s!"{f.name}: {problem.message}"
  | differentAtoms a b => s!"conflicting values {a.display} and {b.display}"
  | atomOfOtherKind a c =>
    s!"conflicting values {a.display} and {c.display} " ++
      s!"(mismatched types {a.kinds.display} and {c.kinds.display})"
  | outOfBound a b => s!"invalid value {a.display} (out of bound {b.display})"
  | noCommonKind a b =>
    s!"conflicting values {a.display} and {b.display} " ++
      s!"(mismatched types {a.kinds.display} and {b.kinds.display})"
  | explicitBottom => "explicit error (_|_ literal)"
  | stated message => message
  | listLengths a b => s!"incompatible list lengths ({a} and {b})"
  | noFields shown => s!"cannot enumerate fields of {shown}"
  | notList shown => s!"{shown} is not a list"
  | notScalar kinds => s!"cannot use {kinds.display} as a scalar"
  | builtinAsValue f => s!"cannot use builtin {f.name} as a value"
  | packageAsValue name => s!"cannot use package {name} as a value"
  | notFunction => "cannot call a non-function value"
  | notArgument => "invalid builtin argument"
  | returnsNotList found => s!"returns must be a list, found {found.compact}"
  | cyclicReference target => s!"cyclic reference to {target}"
  | structuralCycle target => s!"structural cycle: reference to {target}"
  | evaluationDepth => "evaluation depth exceeded"
  | valueDepth => "value too deeply nested"
  | hostDepth => s!"value nested deeper than {maxDepth} levels"
  | unknownName name => s!"reference {Text.quote name} not found"
  | undefinedMember package name => s!"undefined: {package}.{name}"
  | selectFromScalar label => s!"cannot select {label.display} from a non-struct value"
  | indexIntoScalar => "cannot index a non-list value"
  | invalidIndex shown => s!"invalid index {shown}"
  | indexRange index length => s!"index {index} out of range (list has {length} elements)"
  | notReference => "expression is not a reference"
  | undefinedFieldOfClosed s => s!"undefined field: {s.display}"
  | undefinedField s => s!"undefined field: {s.display}"
  | selectFromAlternatives s => s!"cannot select {s.display} from an unresolved disjunction"
  | indexIntoOpen shown index => s!"cannot index {shown} with {index}"
  | notConcrete shown => s!"non-concrete value {shown}"
  | incompleteValue shown => s!"incomplete value {shown}"
  | unresolved alternatives =>
    "incomplete value: unresolved disjunction " ++ " | ".intercalate alternatives
  | fieldNotAllowed name => s!"field not allowed: {name}"
  | tooManyAlternatives => "too many disjunction alternatives"
  | noAlternative => "no disjunct matched"
  | integerWidth i => s!"integer {i} does not fit in 64 bits"
  | nonFinite x => s!"cannot export non-finite float {Scalar.floatLayout.write x}"
  | unencodableType reason => s!"cannot encode type: {reason}"
  | notUnsigned found => s!"cannot use value {found.compact} as uint64"
  | undecodable => "cannot decode value"

end Cause

/-- The path is empty where none is known or the value is the root. -/
inductive Fault where
  | mk (cause : Cause) (path : String) (causes : List Fault)

namespace Fault

def of (cause : Cause) : Fault := ⟨cause, "", []⟩

def cause : Fault → Cause
  | ⟨cause, _, _⟩ => cause

def path : Fault → String
  | ⟨_, path, _⟩ => path

def causes : Fault → List Fault
  | ⟨_, _, causes⟩ => causes

instance : Inhabited Fault := ⟨of .explicitBottom⟩

def kind (f : Fault) : FaultKind := f.cause.kind

/-- The first path that is given stays. -/
def atPath (f : Fault) (path : String) : Fault :=
  if f.path.isEmpty then ⟨f.cause, path, f.causes⟩ else f

mutual

/-- A disjunction is incomplete when all its alternatives failed incompletely. -/
def isIncomplete : Fault → Bool
  | ⟨cause, _, causes⟩ =>
    match cause.kind with
    | .incomplete => true
    | .disjunction => !causes.isEmpty && allIncomplete causes
    | _ => false

def allIncomplete : List Fault → Bool
  | [] => true
  | f :: rest => f.isIncomplete && allIncomplete rest

end

mutual

/-- The path and a colon, the message, and the alternatives in parentheses. -/
def display : Fault → String
  | ⟨cause, path, causes⟩ =>
    (if path.isEmpty then "" else path ++ ": ") ++ cause.message ++
      (if causes.isEmpty then "" else " (" ++ "; ".intercalate (displays causes) ++ ")")

def displays : List Fault → List String
  | [] => []
  | f :: rest => f.display :: displays rest

end

theorem allIncomplete_eq_all (fs : List Fault) : allIncomplete fs = fs.all isIncomplete := by
  induction fs with
  | nil => rfl
  | cons f fs ih => simp [allIncomplete, ih]

def displayAll (fs : List Fault) : String := "; ".intercalate (fs.map display)

end Fault

end SchemaMock
