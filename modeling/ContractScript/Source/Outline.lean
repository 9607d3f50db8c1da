import ContractScript.Source.Program

/-!
# Programs laid out line by line

Programs built by hand have no text. An `Outline` gives each new name, literal and brace the next
line of one document, so that places stay distinct; a compound node spans what it is made of.

The functions are named for the nodes they make. Parts are made before the whole, in the order in
which the actions run.
-/

namespace ContractScript

/-- The document being laid out and the last line in use. -/
structure Cursor where
  file : Nat := 0
  path : String := "contract.ts"
  line : Nat := 0
deriving Repr, Inhabited

/-- Actions that make nodes and take lines for them. -/
abbrev Outline := StateM Cursor

namespace Outline

/-- The next line, as a `Span` of nine columns. -/
def nextSpan : Outline Span := do
  let c ← get
  let line := c.line + 1
  set { c with line := line }
  return ⟨c.file, line, 1, line, 10⟩

def ident (name : String) : Outline Ident := do
  return ⟨name, ← nextSpan⟩

/-! ## Expressions -/

/-- The type that a literal has by itself. -/
def literalTy : Literal → Ty
  | .int _ => .integer
  | .bool _ => .boolean
  | .string _ => .string
  | .bytes _ => .byteString
  | .null => .null

def literal (value : Literal) : Outline Expr := do
  return .literal value (literalTy value) (← nextSpan)

def var (name : String) (ty : Ty) : Outline Expr := do
  let id ← ident name
  return .ident id ty id.span

def binary (left : Expr) (op : BinaryOp) (right : Expr) (ty : Ty) : Outline Expr :=
  return .binary op left right ty (left.span.merge right.span)

def unary (op : UnaryOp) (operand : Expr) (ty : Ty) : Outline Expr :=
  return .unary op operand ty operand.span

def assign (target : Expr) (op : Option BinaryOp) (value : Expr) : Outline Expr :=
  return .assign op target value (target.span.merge value.span)

def call (callee : Expr) (args : List Expr) (ty : Ty) : Outline Expr :=
  return .call callee args ty callee.span

/-- A call of a function by its name; the name takes its line after the arguments. -/
def callNamed (name : String) (args : List Expr) (ty : Ty) : Outline Expr := do
  call (← var name .any) args ty

def member (object : Expr) (name : String) (ty : Ty) : Outline Expr := do
  let id ← ident name
  return .member object id ty (object.span.merge id.span)

def paren (inner : Expr) : Outline Expr :=
  return .paren inner inner.span

def otherExpr (kind : String) : Outline Expr := do
  return .other kind (← nextSpan)

/-! ## Statements -/

def exprStmt (e : Expr) : Outline Stmt :=
  return .expr e e.span

def declare (name : String) (ty : Ty) (init : Option Expr) (isConst : Bool) : Outline Stmt := do
  let id ← ident name
  return .declare id ty init isConst id.span

def returnStmt (value : Option Expr) : Outline Stmt := do
  return .return value (← nextSpan)

def throwStmt (value : Expr) : Outline Stmt := do
  return .throw value (← nextSpan)

def breakStmt : Outline Stmt := do
  return .break (← nextSpan)

def continueStmt : Outline Stmt := do
  return .continue (← nextSpan)

/-- Braces on two lines of their own around the `Stmt`s. -/
def block (stmts : List Stmt) : Outline Block := do
  let opening ← nextSpan
  let closing ← nextSpan
  return ⟨stmts, ⟨opening.file, opening.line, 1, closing.line, 2⟩⟩

def ifStmt (condition : Expr) (thenBranch : Stmt) (elseBranch : Option Stmt) : Outline Stmt :=
  return .if condition thenBranch elseBranch condition.span

def whileStmt (condition : Expr) (body : Stmt) : Outline Stmt :=
  return .while condition body condition.span

/-- A try statement; `handler` is the optional name of the exception and the handler's body. -/
def tryStmt (body : List Stmt) (handler : Option (Option String × List Stmt))
    (finalizer : Option (List Stmt)) : Outline Stmt := do
  let span ← nextSpan
  let body ← block body
  let handler ← handler.mapM fun (param, stmts) => do
    let param ← param.mapM ident
    let body ← block stmts
    return CatchClause.mk param body body.span
  let finalizer ← finalizer.mapM block
  return .try body handler finalizer span

def otherStmt (kind : String) : Outline Stmt := do
  return .other kind (← nextSpan)

/-! ## Declarations -/

def param (name : String) (ty : Ty) : Outline Param := do
  let id ← ident name
  return ⟨id, ty, id.span⟩

def docTag (name payload : String) : Outline DocTag := do
  return ⟨name, payload, ← nextSpan⟩

/-- A doc tag for each pair of name and payload. -/
def docTags (tags : List (String × String)) : Outline (List DocTag) :=
  tags.mapM fun (name, payload) => docTag name payload

/-- A `Param` for each pair of name and type. -/
def params (ps : List (String × Ty)) : Outline (List Param) :=
  ps.mapM fun (name, ty) => param name ty

/-- An exported function with a body. -/
def function (name : String) (ps : List (String × Ty)) (returnType : Ty) (body : List Stmt) :
    Outline FunctionDecl := do
  let id ← ident name
  let params ← params ps
  let body ← block body
  return ⟨id, params, returnType, some body, true, false, [], id.span.merge body.span⟩

/-- A function that the host provides, as its tags say. -/
def hostFunction (name : String) (ps : List (String × Ty)) (returnType : Ty)
    (tags : List (String × String)) : Outline FunctionDecl := do
  let tags ← docTags tags
  let id ← ident name
  let params ← params ps
  return ⟨id, params, returnType, none, false, false, tags, id.span⟩

def const (name : String) (ty : Ty) (value : Expr) : Outline ConstDecl := do
  let id ← ident name
  return ⟨id, ty, value, id.span⟩

def static (name : String) (ty : Ty) (init : Option Expr) : Outline StaticDecl := do
  let id ← ident name
  return ⟨id, ty, init, id.span⟩

def interface (name : String) (tags : List (String × String)) (members : List InterfaceMember) :
    Outline InterfaceDecl := do
  let tags ← docTags tags
  let id ← ident name
  return ⟨id, members, tags, id.span⟩

def method (name : String) (ps : List (String × Ty)) (returnType : Ty)
    (tags : List (String × String)) : Outline InterfaceMember := do
  let tags ← docTags tags
  let id ← ident name
  let params ← params ps
  return ⟨id, .method, params, returnType, tags, id.span⟩

def property (name : String) (ty : Ty) (tags : List (String × String)) :
    Outline InterfaceMember := do
  let tags ← docTags tags
  let id ← ident name
  return ⟨id, .property, [], ty, tags, id.span⟩

def object (name interface : String) : Outline ObjectDecl := do
  let id ← ident name
  return ⟨id, ← ident interface, id.span⟩

def otherItem (kind : String) : Outline Item := do
  return .other kind (← nextSpan)

/-- A `Program` of one document. -/
def program (items : List Item) : Outline Program := do
  let c ← get
  return ⟨[⟨c.file, c.path⟩], items⟩

end Outline

end ContractScript
