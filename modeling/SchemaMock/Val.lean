import SchemaMock.Fault

/-! # The lattice of values

A value is a scalar, a constraint, or bottom with the fault that led there. Unification is the meet
of the lattice.
-/

namespace SchemaMock

inductive Val where
  | atom (a : Scalar)
  | constraint (c : Constraint)
  | bottom (f : Fault)
deriving Inhabited

namespace Val

/-- Admits every value. -/
def top : Val := constraint (.ofKinds .top)

def ofKinds (k : Kinds) : Val := constraint (.ofKinds k)

def ofCause (c : Cause) : Val := bottom (.of c)

def kinds : Val → Kinds
  | atom a => a.kinds
  | constraint c => c.kinds
  | bottom _ => .none

def isBottom : Val → Bool
  | bottom _ => true
  | _ => false

/-- A scalar must be of one of the kinds and within every bound. -/
def meetAtom (a : Scalar) (c : Constraint) : Val :=
  if !c.kinds.meets a.kinds then ofCause (.atomOfOtherKind a c)
  else match c.bounds.find? fun b => !b.admits a with
    | some b => ofCause (.outOfBound a b)
    | none => atom a

/-- The greatest lower bound. Of two bottoms the left one stays. -/
def meet : Val → Val → Val
  | bottom f, _ => bottom f
  | _, bottom f => bottom f
  | atom a, atom b => if a.same b then atom a else ofCause (.differentAtoms a b)
  | atom a, constraint c => meetAtom a c
  | constraint c, atom a => meetAtom a c
  | constraint a, constraint b =>
    let kinds := a.kinds.inter b.kinds
    if kinds.isEmpty then ofCause (.noCommonKind a b)
    else constraint ⟨kinds, Constraint.addBounds a.bounds b.bounds⟩

def display : Val → String
  | atom a => a.display
  | constraint c => c.display
  | bottom f => "_|_ (" ++ f.display ++ ")"

end Val

end SchemaMock
