import SchemaMock.Value

/-! # The built-in schema

Every mock is compiled against a schema that reserves two fields of the root: `funcs`, where each
regular field is a function, one `#MockFunction` or a list of overloads, and `vars`, which receives
the variables of the host.
-/

namespace SchemaMock.Mock

def funcsName : String := "funcs"
def varsName : String := "vars"
def argsName : String := "args"
def returnsName : String := "returns"
def maxCallsName : String := "maxCalls"

/-- The greatest count of 64 bits; as a limit it stands for none. -/
def unbounded : Nat := 1 <<< 64 - 1

def fieldOf (name : String) (x : Expr) : Decl := .field (.regular name) false x

/-- Any list: `[..._]`. -/
def anyList : Expr := .list [] (some .top)

/-- What an overload declares:
`args: [..._], maxCalls: uint | *18446744073709551615, returns: [..._]`. -/
def functionShape : List Decl :=
  [fieldOf argsName anyList,
    fieldOf maxCallsName (.binary .disjoin (.ident "uint") (.marked (.int unbounded))),
    fieldOf returnsName anyList]

/-- One overload or a list of them: `#MockFunction | [...#MockFunction]`. -/
def functionOrOverloads : Expr :=
  .binary .disjoin (.ident "#MockFunction") (.list [] (some (.ident "#MockFunction")))

/-- The file

    #Error: { Error: string }
    #MockFunction: { args: [..._], maxCalls: uint | *18446744073709551615, returns: [..._] }
    vars: [string]: _
    funcs: [string]: #MockFunction | [...#MockFunction]
-/
def baseFile : SchemaFile where
  packageName := none
  imports := []
  decls :=
    [.field (.definition "Error") false (.struct [fieldOf "Error" (.ident "string")]),
      .field (.definition "MockFunction") false (.struct functionShape),
      fieldOf varsName (.struct [.pattern (.ident "string") .top]),
      fieldOf funcsName (.struct [.pattern (.ident "string") functionOrOverloads])]

def base : Value := .ofFile baseFile

end SchemaMock.Mock
