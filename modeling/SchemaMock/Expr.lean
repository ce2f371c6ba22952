/-! # Expressions of the schema language

A schema is a list of declarations; an expression denotes a value or a constraint on values.
-/

namespace SchemaMock

/-- The label of a field: regular, a definition (written with `#`), or hidden (its name begins with
`_`). -/
inductive Label where
  | regular (name : String)
  | definition (name : String)
  | hidden (name : String)
deriving DecidableEq, Repr, Inhabited

namespace Label

/-- A name is classified by its first character; `_` alone is regular. -/
def ofIdent (ident : List Char) : Label :=
  match ident with
  | '#' :: name => definition (String.ofList name)
  | '_' :: _ :: _ => hidden (String.ofList ident)
  | _ => regular (String.ofList ident)

def display : Label → String
  | regular name => name
  | definition name => "#" ++ name
  | hidden name => name

def isRegular : Label → Bool
  | regular _ => true
  | _ => false

end Label

inductive UnaryOp where
  | not
  | neg
  | plus
  | notEqual
  | less
  | lessEqual
  | greater
  | greaterEqual
deriving DecidableEq, Repr, Inhabited

inductive BinaryOp where
  | unify
  | disjoin
  | or
  | and
  | eq
  | ne
  | lt
  | le
  | gt
  | ge
  | add
  | sub
  | mul
  | div
deriving DecidableEq, Repr, Inhabited

namespace BinaryOp

/-- A higher precedence binds tighter. -/
def precedence : BinaryOp → Nat
  | disjoin => 1
  | unify => 2
  | or => 3
  | and => 4
  | eq | ne | lt | le | gt | ge => 5
  | add | sub => 6
  | mul | div => 7

def symbol : BinaryOp → String
  | unify => "&"
  | disjoin => "|"
  | or => "||"
  | and => "&&"
  | eq => "=="
  | ne => "!="
  | lt => "<"
  | le => "<="
  | gt => ">"
  | ge => ">="
  | add => "+"
  | sub => "-"
  | mul => "*"
  | div => "/"

end BinaryOp

mutual

inductive Expr where
  | top
  | bottom
  | null
  | bool (b : Bool)
  | int (i : Int)
  | float (x : Float)
  | str (s : String)
  /-- A reference by name. -/
  | ident (name : String)
  | struct (decls : List Decl)
  /-- A list of elements; with a tail it is open, and the tail constrains all further elements. -/
  | list (elems : List Expr) (tail : Option Expr)
  | select (base : Expr) (label : Label)
  | index (base position : Expr)
  | call (func : Expr) (args : List Expr)
  | unary (op : UnaryOp) (operand : Expr)
  | binary (op : BinaryOp) (lhs rhs : Expr)
  /-- An alternative marked as a default of its disjunction. -/
  | marked (x : Expr)

inductive Decl where
  | field (label : Label) (optional : Bool) (value : Expr)
  /-- A constraint on every regular field whose name it admits. -/
  | pattern (label value : Expr)
  /-- Leaves the struct open. -/
  | ellipsis
  /-- An expression unified into the enclosing struct. -/
  | embed (x : Expr)

end

instance : Inhabited Expr := ⟨.top⟩
instance : Inhabited Decl := ⟨.ellipsis⟩

namespace Expr

/-- A name other than `_`, with selections and indexing. -/
def isReference : Expr → Bool
  | ident name => name != "_"
  | select base _ => base.isReference
  | index base _ => base.isReference
  | _ => false

def field (label : Label) (value : Expr) : Expr := struct [.field label false value]

end Expr

structure SchemaFile where
  packageName : Option String
  imports : List String
  decls : List Decl
deriving Inhabited

def SchemaFile.body (f : SchemaFile) : Expr := .struct f.decls

end SchemaMock
