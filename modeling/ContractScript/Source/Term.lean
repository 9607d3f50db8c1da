import ContractScript.Source.Type
import ContractScript.Span

/-!
# Expressions and statements

Every node carries its place, every expression its type. A construct that the compiler does not
know is kept by the name of its kind, so that a message can name it.

- `Expr`, `Expr.ty`, `Expr.span`, `Expr.kind`, `Expr.unparenthesized`.
- `Stmt`, `Block`, `CatchClause`, `Stmt.span`, `Stmt.kind`.
-/

namespace ContractScript

/-- A name and its place. -/
structure Ident where
  name : String
  span : Span
deriving Repr, DecidableEq, Inhabited

/-- A value written out in the program. -/
inductive Literal where
  | int (value : Int)
  | bool (value : Bool)
  | string (text : String)
  | bytes (data : List UInt8)
  | null
deriving Repr, DecidableEq, Inhabited

/-- An expression. -/
inductive Expr where
  | literal (value : Literal) (ty : Ty) (span : Span)
  | ident (id : Ident) (ty : Ty) (span : Span)
  | binary (op : BinaryOp) (left right : Expr) (ty : Ty) (span : Span)
  | unary (op : UnaryOp) (operand : Expr) (ty : Ty) (span : Span)
  /-- An assignment; with an operator, `target op= value`. -/
  | assign (op : Option BinaryOp) (target value : Expr) (span : Span)
  | call (callee : Expr) (args : List Expr) (ty : Ty) (span : Span)
  | member (object : Expr) (id : Ident) (ty : Ty) (span : Span)
  | paren (inner : Expr) (span : Span)
  /-- A construct known only by the name of its kind. -/
  | other (kind : String) (span : Span)
deriving Repr, Inhabited

namespace Expr

def span : Expr → Span
  | .literal _ _ s => s
  | .ident _ _ s => s
  | .binary _ _ _ _ s => s
  | .unary _ _ _ s => s
  | .assign _ _ _ s => s
  | .call _ _ _ s => s
  | .member _ _ _ s => s
  | .paren _ s => s
  | .other _ s => s

/-- The checked type. An assignment has that of its target. -/
def ty : Expr → Ty
  | .literal _ t _ => t
  | .ident _ t _ => t
  | .binary _ _ _ t _ => t
  | .unary _ _ t _ => t
  | .assign _ target _ _ => target.ty
  | .call _ _ t _ => t
  | .member _ _ t _ => t
  | .paren inner _ => inner.ty
  | .other _ _ => .any

/-- The name of the node's kind. -/
def kind : Expr → String
  | .literal (.int _) _ _ => "NumericLiteral"
  | .literal (.bool true) _ _ => "TrueKeyword"
  | .literal (.bool false) _ _ => "FalseKeyword"
  | .literal (.string _) _ _ => "StringLiteral"
  | .literal (.bytes _) _ _ => "ByteStringLiteral"
  | .literal .null _ _ => "NullKeyword"
  | .ident _ _ _ => "Identifier"
  | .binary _ _ _ _ _ => "BinaryExpression"
  | .unary _ _ _ _ => "PrefixUnaryExpression"
  | .assign _ _ _ _ => "AssignmentExpression"
  | .call _ _ _ _ => "CallExpression"
  | .member _ _ _ _ => "PropertyAccessExpression"
  | .paren _ _ => "ParenthesizedExpression"
  | .other k _ => k

/-- The `Expr` inside any number of parentheses. -/
def unparenthesized : Expr → Expr
  | .paren inner _ => inner.unparenthesized
  | e => e

/-- The same node at another place. -/
def withSpan (s : Span) : Expr → Expr
  | .literal v t _ => .literal v t s
  | .ident i t _ => .ident i t s
  | .binary o l r t _ => .binary o l r t s
  | .unary o e t _ => .unary o e t s
  | .assign o t v _ => .assign o t v s
  | .call c a t _ => .call c a t s
  | .member o i t _ => .member o i t s
  | .paren e _ => .paren e s
  | .other k _ => .other k s

/-- The null literal, inside any number of parentheses. -/
def isNullLiteral (e : Expr) : Bool :=
  match e.unparenthesized with
  | .literal .null _ _ => true
  | _ => false

end Expr

mutual

/-- A statement. -/
inductive Stmt where
  | expr (e : Expr) (span : Span)
  /-- A local declaration, `let` or `const`. -/
  | declare (id : Ident) (ty : Ty) (init : Option Expr) (isConst : Bool) (span : Span)
  | return (value : Option Expr) (span : Span)
  | throw (value : Expr) (span : Span)
  | break (span : Span)
  | continue (span : Span)
  | block (body : Block)
  | if (condition : Expr) (thenBranch : Stmt) (elseBranch : Option Stmt) (span : Span)
  | while (condition : Expr) (body : Stmt) (span : Span)
  | try (body : Block) (handler : Option CatchClause) (finalizer : Option Block) (span : Span)
  /-- A construct known only by the name of its kind. -/
  | other (kind : String) (span : Span)

/-- Statements between braces; the span covers both braces. -/
inductive Block where
  | mk (stmts : List Stmt) (span : Span)

/-- The handler of a try statement, with the name it gives to the exception. -/
inductive CatchClause where
  | mk (param : Option Ident) (body : Block) (span : Span)

end

instance : Inhabited Stmt := ⟨.break default⟩
instance : Inhabited Block := ⟨⟨[], default⟩⟩

namespace Block

def stmts : Block → List Stmt
  | ⟨ss, _⟩ => ss

def span : Block → Span
  | ⟨_, s⟩ => s

/-- The same statements between other braces. -/
def withSpan (s : Span) : Block → Block
  | ⟨ss, _⟩ => ⟨ss, s⟩

end Block

namespace CatchClause

def param : CatchClause → Option Ident
  | ⟨p, _, _⟩ => p

def body : CatchClause → Block
  | ⟨_, b, _⟩ => b

def span : CatchClause → Span
  | ⟨_, _, s⟩ => s

end CatchClause

namespace Stmt

def span : Stmt → Span
  | .expr _ s => s
  | .declare _ _ _ _ s => s
  | .return _ s => s
  | .throw _ s => s
  | .break s => s
  | .continue s => s
  | .block b => b.span
  | .if _ _ _ s => s
  | .while _ _ s => s
  | .try _ _ _ s => s
  | .other _ s => s

/-- The name of the node's kind. -/
def kind : Stmt → String
  | .expr _ _ => "ExpressionStatement"
  | .declare _ _ _ _ _ => "VariableStatement"
  | .return _ _ => "ReturnStatement"
  | .throw _ _ => "ThrowStatement"
  | .break _ => "BreakStatement"
  | .continue _ => "ContinueStatement"
  | .block _ => "Block"
  | .if _ _ _ _ => "IfStatement"
  | .while _ _ _ => "WhileStatement"
  | .try _ _ _ _ => "TryStatement"
  | .other k _ => k

/-- The same node at another place. -/
def withSpan (s : Span) : Stmt → Stmt
  | .expr e _ => .expr e s
  | .declare i t init c _ => .declare i t init c s
  | .return v _ => .return v s
  | .throw v _ => .throw v s
  | .break _ => .break s
  | .continue _ => .continue s
  | .block b => .block (b.withSpan s)
  | .if c t e _ => .if c t e s
  | .while c b _ => .while c b s
  | .try b h f _ => .try b h f s
  | .other k _ => .other k s

end Stmt

end ContractScript
