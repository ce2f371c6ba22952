import SchemaMock.Proofs.Admission

/-! # Declarations of a record

A record is declared by fields, some of them optional, by patterns for all names that meet a
condition, and perhaps by an ellipsis, which leaves it open. An object is accepted if it has the
fields that are required, if its values meet what is declared for their names, and if all its names
are known. A field that is required need not be there if a literal among its conditions settles it.
-/

namespace SchemaMock

inductive Member where
  | field (name : String) (optional : Bool) (t : Condition)
  /-- The fields whose names meet a condition. -/
  | pattern (label t : Condition)
  /-- Any fields. -/
  | ellipsis

namespace Member

def toDecl : Member → Decl
  | field name optional t => .field (.regular name) optional t.toExpr
  | pattern label t => .pattern label.toExpr t.toExpr
  | ellipsis => .ellipsis

def conditions : Member → List Condition
  | field _ _ t => [t]
  | pattern label t => [label, t]
  | ellipsis => []

def pattern? : Member → Option (Condition × Condition)
  | pattern label t => some (label, t)
  | _ => none

def ofField (k : String) : Member → List Condition
  | field name _ t => if k = name then [t] else []
  | _ => []

def ofPattern (k : String) : Member → List Condition
  | pattern label t => if label.admits (.str k) then [t] else []
  | _ => []

def requires (k : String) : Member → Bool
  | field name optional _ => decide (k = name) && !optional
  | _ => false

def declares (k : String) : Member → Bool
  | field name _ _ => decide (k = name)
  | _ => false

def knows (k : String) : Member → Bool
  | field name _ _ => decide (k = name)
  | pattern label _ => label.admits (.str k)
  | ellipsis => true

def allOf (ms : List Member) (k : String) : List Condition :=
  ms.flatMap (ofField k) ++ ms.flatMap (ofPattern k)

/-- A literal for the name meets all that is declared for the name. -/
def Settles (ms : List Member) (k : String) : Prop :=
  ∃ s ∈ (allOf ms k).flatMap Condition.literals, ∀ t ∈ allOf ms k, t.admits s = true

/-- The declarations accept an object. -/
structure Accept (ms : List Member) (fields : List (String × Json)) : Prop where
  present : ∀ k, ms.any (requires k) = true → k ∈ fields.map (·.1) ∨ Settles ms k
  meets : ∀ f ∈ fields, ∀ t ∈ allOf ms f.1, Condition.admitsJson f.2 t = true
  known : ∀ f ∈ fields, ms.any (knows f.1) = true

end Member

end SchemaMock
