import ContractScript.Source.Term

/-!
# Declarations and programs

A program is a list of top-level items and a table of the documents they come from. A function
without a body, and an interface, describe what the host provides; their doc tags say how.
-/

namespace ContractScript

/-- A doc tag `@name payload` of a declaration. -/
structure DocTag where
  name : String
  payload : String
  span : Span
deriving Repr, DecidableEq, Inhabited

/-- A parameter of a function or method. -/
structure Param where
  id : Ident
  ty : Ty
  span : Span
deriving Repr, DecidableEq, Inhabited

/-- A function, with a body or provided by the host. -/
structure FunctionDecl where
  id : Ident
  params : List Param
  returnType : Ty
  body : Option Block
  /-- Listed in the interface of the contract. -/
  isExport : Bool
  /-- Declared not to change state. -/
  isSafe : Bool
  tags : List DocTag
  span : Span
deriving Inhabited

/-- A top-level constant. -/
structure ConstDecl where
  id : Ident
  ty : Ty
  value : Expr
  span : Span
deriving Repr, Inhabited

/-- A top-level variable, kept in a static slot. -/
structure StaticDecl where
  id : Ident
  ty : Ty
  init : Option Expr
  span : Span
deriving Repr, Inhabited

/-- Whether an interface member is called or read. -/
inductive MemberKind where
  | method
  | property
deriving Repr, DecidableEq, Inhabited

/-- A member of an interface; `ty` is what it returns or holds. -/
structure InterfaceMember where
  id : Ident
  kind : MemberKind
  params : List Param
  ty : Ty
  tags : List DocTag
  span : Span
deriving Repr, Inhabited

/-- An interface. -/
structure InterfaceDecl where
  id : Ident
  members : List InterfaceMember
  tags : List DocTag
  span : Span
deriving Repr, Inhabited

/-- A global object that has an interface. -/
structure ObjectDecl where
  id : Ident
  interface : Ident
  span : Span
deriving Repr, Inhabited

/-- A top-level item. -/
inductive Item where
  | function (decl : FunctionDecl)
  | const (decl : ConstDecl)
  | static (decl : StaticDecl)
  | interface (decl : InterfaceDecl)
  | object (decl : ObjectDecl)
  /-- A construct known only by the name of its kind. -/
  | other (kind : String) (span : Span)
deriving Inhabited

namespace Item

def span : Item → Span
  | .function d => d.span
  | .const d => d.span
  | .static d => d.span
  | .interface d => d.span
  | .object d => d.span
  | .other _ s => s

/-- The name of the node's kind. -/
def kind : Item → String
  | .function _ => "FunctionDeclaration"
  | .const _ | .static _ | .object _ => "VariableStatement"
  | .interface _ => "InterfaceDeclaration"
  | .other k _ => k

/-- The same `Item` at another place. -/
def withSpan (s : Span) : Item → Item
  | .function d => .function { d with span := s }
  | .const d => .const { d with span := s }
  | .static d => .static { d with span := s }
  | .interface d => .interface { d with span := s }
  | .object d => .object { d with span := s }
  | .other k _ => .other k s

end Item

/-- A source document. -/
structure Document where
  id : Nat
  path : String
deriving Repr, DecidableEq, Inhabited

/-- A checked program. -/
structure Program where
  files : List Document
  items : List Item
deriving Inhabited

namespace Program

/-- The path of a document, if the `Program` lists it. -/
def path? (p : Program) (file : Nat) : Option String :=
  (p.files.find? (·.id == file)).map (·.path)

/-- The functions with a body, in declaration order. -/
def functions (p : Program) : List FunctionDecl :=
  p.items.filterMap fun item =>
    match item with
    | .function d => if d.body.isSome then some d else none
    | _ => none

end Program

end ContractScript
