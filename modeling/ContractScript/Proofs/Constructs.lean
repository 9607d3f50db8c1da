import ContractScript.Proofs.Computation

/-!
# The code of constructs

What each expression and statement of the language becomes, said by one rule per construct. The
code is a list of pieces, which keep what the operations alone do not show: the symbol that a call
was resolved to, whether its value is wanted, and whether a `return` has a value.
-/

namespace ContractScript

/-! ## Pieces of code -/

/-- A stretch of code, with what it stands for. -/
inductive Piece where
  /-- An operation of the construct itself. -/
  | op (operation : Operation)
  /-- What stands for a symbol that is called with so many arguments, or read as a property. The
  value is wanted, or it is only the effect. -/
  | use (symbol : Symbol) (argCount : Nat) (isWanted : Bool) (ops : List Operation)
  /-- The way out of the function, with a value or without. -/
  | leave (hasValue : Bool) (operation : Operation)

/-- The `Operation`s of a piece. -/
def Piece.ops : Piece → List Operation
  | .op operation => [operation]
  | .use _ _ _ ops => ops
  | .leave _ operation => [operation]

/-- The `Operation`s of pieces in order. -/
def codeOf (pieces : List Piece) : List Operation :=
  pieces.flatMap Piece.ops

/-- Operations as `Piece`s of their own. -/
def plain (ops : List Operation) : List Piece :=
  ops.map .op

@[simp] theorem codeOf_nil : codeOf [] = [] := rfl

@[simp] theorem codeOf_cons (piece : Piece) (pieces : List Piece) :
    codeOf (piece :: pieces) = piece.ops ++ codeOf pieces :=
  List.flatMap_cons

@[simp] theorem codeOf_append (pieces pieces' : List Piece) :
    codeOf (pieces ++ pieces') = codeOf pieces ++ codeOf pieces' :=
  List.flatMap_append

/-- `plain` adds nothing to operations. -/
@[simp] theorem codeOf_plain (ops : List Operation) : codeOf (plain ops) = ops := by
  induction ops with
  | nil => rfl
  | cons op ops ih => exact congrArg (op :: ·) ih

/-! ## What names stand for -/

namespace Scope

/-- The member of an object of the host that an access names. -/
def member? (scope : Scope) (object : Expr) (name : String) : Option Symbol :=
  match object.unparenthesized with
  | .ident id _ _ =>
    match scope.lookup id.name with
    | some ⟨_, _, _, .object members⟩ => findSymbol members name
    | _ => none
  | _ => none

/-- The `Symbol` that a call names. -/
def callee? (scope : Scope) (callee : Expr) : Option Symbol :=
  match callee.unparenthesized with
  | .ident id _ _ => scope.lookup id.name
  | .member object member _ _ => scope.member? object member.name
  | _ => none

/-- The slot that an assignment writes to. -/
def assigned? (scope : Scope) (target : Expr) : Option (SlotKind × Nat) :=
  match target.unparenthesized with
  | .ident id _ _ =>
    match scope.lookup id.name with
    | some ⟨_, _, _, .slot kind index true⟩ => some (kind, index)
    | _ => none
  | _ => none

/-- `assigned?` finds the slot of a mutable variable. -/
theorem exists_of_assigned? {scope : Scope} {target : Expr} {kind : SlotKind} {index : Nat}
    (h : scope.assigned? target = some (kind, index)) :
    ∃ id ty span symbol, target.unparenthesized = .ident id ty span ∧
      scope.lookup id.name = some symbol ∧ symbol.definition = .slot kind index true := by
  unfold assigned? at h
  split at h
  · next id ty span htarget =>
    split at h
    · next hlookup =>
      cases h
      exact ⟨id, ty, span, _, htarget, hlookup, rfl⟩
    · cases h
  · cases h

end Scope

namespace Definition

/-- Whether a call or a read leaves a value. -/
def returns : Definition → Bool
  | .function _ _ returns => returns
  | .host call => call.returns
  | .method ref => ref.returns
  | .slot _ _ _ | .constant _ | .event _ _ | .object _ => false

/-- Whether it is read like a property. -/
def isProperty : Definition → Bool
  | .host call => call.isProperty
  | .method ref => ref.isProperty
  | .function _ _ _ | .slot _ _ _ | .constant _ | .event _ _ | .object _ => false

end Definition

/-- An assignment or a call, which may stand as a statement whatever its type. -/
def Expr.isEffect : Expr → Bool
  | .assign _ _ _ _ | .call _ _ _ _ => true
  | _ => false

/-! ## What lowering sees -/

/-- What the lowering of a construct sees and leaves behind, besides the code. -/
structure Context where
  scope : Scope
  params : Array Slot
  locals : Array Slot
  /-- The next label. -/
  label : Label
  tokens : TokenTable

namespace Context

/-- Inside of a new frame. -/
def enter (ctx : Context) (name : String) : Context :=
  { ctx with scope := ctx.scope.enter name }

/-- Outside of the innermost frame. -/
def leave (ctx : Context) : Context :=
  { ctx with scope := ctx.scope.leave }

/-- After `Label`s were taken. -/
def withLabel (ctx : Context) (label : Label) : Context :=
  { ctx with label := label }

/-- After a local variable was declared. -/
def declareLocal (ctx : Context) (id : Ident) (ty : ParamType) (isMutable : Bool) : Context :=
  { ctx with
    scope := ctx.scope.push
      ⟨id.name, ctx.scope.frame.id, id.span, .slot .local ctx.locals.size isMutable⟩
    locals := ctx.locals.push ⟨id.name, ty⟩ }

/-- After a parameter was declared. -/
def declareParam (ctx : Context) (name : String) (span : Span) (ty : ParamType) : Context :=
  { ctx with
    scope := ctx.scope.push
      ⟨name, ctx.scope.frame.id, span, .slot .argument ctx.params.size true⟩
    params := ctx.params.push ⟨name, ty⟩ }

end Context

/-- What a state of lowering shows to a construct. -/
def LowerState.context (s : LowerState) : Context :=
  ⟨s.scope, s.draft.params, s.draft.locals, s.draft.labelCount, s.tokens⟩

/-! ## Expressions -/

/-- The operations that stand for the use of a `Definition` with a number of arguments. -/
inductive Uses : Definition → Nat → Context → List Operation → Context → Prop where
  | function {id : FunctionId} {paramCount : Nat} {returns : Bool} {argCount : Nat}
    {ctx : Context} :
    Uses (.function id paramCount returns) argCount ctx [.call id] ctx
  | host {call : HostCall} {argCount : Nat} {ctx : Context} :
    Uses (.host call) argCount ctx call.ops ctx
  | method {ref : MethodRef} {argCount : Nat} {ctx : Context} {index : Nat}
    {tokens : TokenTable} :
    ctx.tokens.add ref.token = (some index, tokens) →
    Uses (.method ref) argCount ctx [.callToken index] { ctx with tokens := tokens }
  | event {name : String} {paramCount : Nat} {argCount : Nat} {ctx : Context} :
    Uses (.event name paramCount) argCount ctx
      [.pushInt argCount, .simple .pack, .pushData (Text.utf8 name), .service .runtimeNotify] ctx

/-- The `Operation`s by which an assignment combines the variable with the right side. -/
def Combines (ty : Ty) : Option BinaryOp → List Operation → Prop
  | none, ops => ops = []
  | some op, ops => operatorOps? op ty = some ops

/-- The code of an assignment, from that of the right side. -/
def assignPieces (op : Option BinaryOp) (keep : Bool) (kind : SlotKind) (index : Nat)
    (value : List Piece) (ops : List Operation) : List Piece :=
  plain (bif op.isSome then [.load kind index] else []) ++ value ++
    plain (ops ++ storeCode keep kind index)

mutual

/-- The code of an expression that `lowerExpr` lowers for its value. -/
inductive ExprCode : Expr → Context → List Piece → Context → Prop where
  | literal {value : Literal} {ty : Ty} {span : Span} {ctx : Context} :
    ExprCode (.literal value ty span) ctx (plain [(Constant.ofLiteral value).push]) ctx
  | variable {id : Ident} {ty : Ty} {span : Span} {ctx : Context} {symbol : Symbol}
    {kind : SlotKind} {index : Nat} {isMutable : Bool} :
    ctx.scope.lookup id.name = some symbol → symbol.definition = .slot kind index isMutable →
    ExprCode (.ident id ty span) ctx (plain [.load kind index]) ctx
  | constant {id : Ident} {ty : Ty} {span : Span} {ctx : Context} {symbol : Symbol}
    {value : Constant} :
    ctx.scope.lookup id.name = some symbol → symbol.definition = .constant value →
    ExprCode (.ident id ty span) ctx (plain [value.push]) ctx
  /-- The right operand is guarded by a test of the left one. -/
  | shortCircuit {op : BinaryOp} {left right : Expr} {ty : Ty} {span : Span}
    {ctx ctx₁ ctx₂ : Context} {ps qs : List Piece} :
    op.isShortCircuit = true → ExprCode left ctx ps ctx₁ →
    ExprCode right (ctx₁.withLabel (ctx₁.label + 1)) qs ctx₂ →
    ExprCode (.binary op left right ty span) ctx
      (ps ++ plain (.simple .dup :: (decideCode op ctx₁.label ++ [.simple .drop])) ++ qs ++
        plain [.label ctx₁.label]) ctx₂
  /-- A comparison with null lowers only the other operand. -/
  | nullTest {op : BinaryOp} {left right operand : Expr} {ty : Ty} {span : Span}
    {ctx ctx' : Context} {ps : List Piece} :
    op.isShortCircuit = false → op.testsNull left right = true →
    operand = (if right.isNullLiteral then left else right) → ExprCode operand ctx ps ctx' →
    ExprCode (.binary op left right ty span) ctx
      (ps ++ plain (.simple .isNull :: (bif op == .notEqual then [.simple .not] else []))) ctx'
  | operator {op : BinaryOp} {left right : Expr} {ty : Ty} {span : Span}
    {ctx ctx₁ ctx₂ : Context} {ps qs : List Piece} {ops : List Operation} :
    op.isShortCircuit = false → op.testsNull left right = false →
    ExprCode left ctx ps ctx₁ → ExprCode right ctx₁ qs ctx₂ →
    operatorOps? op (operandType left right) = some ops →
    ExprCode (.binary op left right ty span) ctx (ps ++ qs ++ plain ops) ctx₂
  | negated {operand : Expr} {value : Int} {ty : Ty} {span : Span} {ctx : Context} :
    operand.intLiteral? = some value →
    ExprCode (.unary .neg operand ty span) ctx (plain [.pushInt (-value)]) ctx
  | unary {op : UnaryOp} {operand : Expr} {ty : Ty} {span : Span} {ctx ctx' : Context}
    {ps : List Piece} :
    (op = .neg → operand.intLiteral? = none) → ExprCode operand ctx ps ctx' →
    ExprCode (.unary op operand ty span) ctx (ps ++ plain op.ops) ctx'
  | assign {op : Option BinaryOp} {target value : Expr} {span : Span} {ctx ctx' : Context}
    {kind : SlotKind} {index : Nat} {ps : List Piece} {ops : List Operation} :
    ctx.scope.assigned? target = some (kind, index) → ExprCode value ctx ps ctx' →
    Combines target.ty op ops →
    ExprCode (.assign op target value span) ctx (assignPieces op true kind index ps ops) ctx'
  | call {callee : Expr} {args : List Expr} {ty : Ty} {span : Span} {ctx ctx₁ ctx₂ : Context}
    {symbol : Symbol} {ps : List Piece} {ops : List Operation} :
    ctx.scope.callee? callee = some symbol →
    symbol.definition.paramCount? = some args.length → ArgsCode args ctx ps ctx₁ →
    Uses symbol.definition args.length ctx₁ ops ctx₂ →
    ExprCode (.call callee args ty span) ctx (ps ++ [.use symbol args.length true ops]) ctx₂
  | property {object : Expr} {member : Ident} {ty : Ty} {span : Span} {ctx ctx' : Context}
    {symbol : Symbol} {ops : List Operation} :
    ctx.scope.member? object member.name = some symbol → symbol.definition.isProperty = true →
    Uses symbol.definition 0 ctx ops ctx' →
    ExprCode (.member object member ty span) ctx [.use symbol 0 true ops] ctx'
  | length {object : Expr} {member : Ident} {ty : Ty} {span : Span} {ctx ctx' : Context}
    {ps : List Piece} :
    ctx.scope.member? object member.name = none → member.name = "length" →
    object.ty.hasLength = true → ExprCode object ctx ps ctx' →
    ExprCode (.member object member ty span) ctx (ps ++ plain [.simple .size]) ctx'
  | paren {inner : Expr} {span : Span} {ctx ctx' : Context} {ps : List Piece} :
    ExprCode inner ctx ps ctx' → ExprCode (.paren inner span) ctx ps ctx'

/-- The code of arguments, the last one first. -/
inductive ArgsCode : List Expr → Context → List Piece → Context → Prop where
  | nil {ctx : Context} : ArgsCode [] ctx [] ctx
  | cons {arg : Expr} {rest : List Expr} {ctx ctx₁ ctx₂ : Context} {ps qs : List Piece} :
    ArgsCode rest ctx ps ctx₁ → ExprCode arg ctx₁ qs ctx₂ →
    ArgsCode (arg :: rest) ctx (ps ++ qs) ctx₂

end

/-- The code of an expression that `lowerDiscarded` lowers for its effects only. -/
inductive DiscardedCode : Expr → Context → List Piece → Context → Prop where
  | assign {e : Expr} {op : Option BinaryOp} {target value : Expr} {span : Span}
    {ctx ctx' : Context} {kind : SlotKind} {index : Nat} {ps : List Piece}
    {ops : List Operation} :
    e.unparenthesized = .assign op target value span →
    ctx.scope.assigned? target = some (kind, index) → ExprCode value ctx ps ctx' →
    Combines target.ty op ops →
    DiscardedCode e ctx (assignPieces op false kind index ps ops) ctx'
  | call {e callee : Expr} {args : List Expr} {ty : Ty} {span : Span} {ctx ctx₁ ctx₂ : Context}
    {symbol : Symbol} {ps : List Piece} {ops : List Operation} :
    e.unparenthesized = .call callee args ty span → ctx.scope.callee? callee = some symbol →
    symbol.definition.paramCount? = some args.length → ArgsCode args ctx ps ctx₁ →
    Uses symbol.definition args.length ctx₁ ops ctx₂ →
    DiscardedCode e ctx (ps ++ [.use symbol args.length false ops] ++
      plain (bif symbol.definition.returns then [.simple .drop] else [])) ctx₂
  | value {e : Expr} {ctx ctx' : Context} {ps : List Piece} :
    e.unparenthesized.isEffect = false → ExprCode e.unparenthesized ctx ps ctx' →
    DiscardedCode e ctx
      (ps ++ plain (bif e.unparenthesized.ty.isVoid then [] else [.simple .drop])) ctx'

/-! ## Statements -/

/-- The enclosing try statements seen from a part of a new one. -/
def Nesting.within (n : Nesting) (phase : TryPhase) : Nesting :=
  { n with tries := phase :: n.tries }

/-- `breakExit` leaves for the innermost loop. -/
theorem exists_of_breakExit {n : Nesting} {exit : Exit} (h : n.breakExit = .ok exit) :
    ∃ loop, n.loops.head? = some loop ∧ n.exitTo loop.breakLabel loop.tryDepth = .ok exit := by
  unfold Nesting.breakExit at h
  split at h
  · cases h
  · next loop outer hloops => exact ⟨loop, by rw [hloops, List.head?_cons], h⟩

theorem exists_of_continueExit {n : Nesting} {exit : Exit} (h : n.continueExit = .ok exit) :
    ∃ loop, n.loops.head? = some loop ∧ n.exitTo loop.continueLabel loop.tryDepth = .ok exit := by
  unfold Nesting.continueExit at h
  split at h
  · cases h
  · next loop outer hloops => exact ⟨loop, by rw [hloops, List.head?_cons], h⟩

/-- The `Label` of a part that may be absent, and the label after it. -/
def partLabel (isThere : Bool) (next : Label) : Option Label × Label :=
  bif isThere then (some next, next + 1) else (none, next)

/-- The code that takes the exception from the stack at the start of a handler. -/
inductive BindsException : Option Ident → Context → List Operation → Context → Prop where
  | drop {ctx : Context} : BindsException none ctx [.simple .drop] ctx
  | keep {id : Ident} {ctx : Context} :
    ctx.scope.isTaken id.name = false →
    BindsException (some id) ctx [.store .local ctx.locals.size] (ctx.declareLocal id .any true)

mutual

/-- The code of a statement inside of the loops and try statements of a `Nesting`. -/
inductive StmtCode : Nesting → Stmt → Context → List Piece → Context → Prop where
  | expr {n : Nesting} {e : Expr} {span : Span} {ctx ctx' : Context} {ps : List Piece} :
    DiscardedCode e ctx ps ctx' → StmtCode n (.expr e span) ctx ps ctx'
  | declare {n : Nesting} {id : Ident} {ty : Ty} {isConst : Bool} {span : Span} {ctx : Context} :
    ctx.scope.isTaken id.name = false →
    StmtCode n (.declare id ty none isConst span) ctx []
      (ctx.declareLocal id (ParamType.ofTy ty) (!isConst))
  | declareAs {n : Nesting} {id : Ident} {ty : Ty} {value : Expr} {isConst : Bool} {span : Span}
    {ctx ctx₁ : Context} {ps : List Piece} :
    ExprCode value ctx ps ctx₁ → ctx₁.scope.isTaken id.name = false →
    StmtCode n (.declare id ty (some value) isConst span) ctx
      (ps ++ plain [.store .local ctx₁.locals.size])
      (ctx₁.declareLocal id (ParamType.ofTy ty) (!isConst))
  | return {n : Nesting} {span : Span} {ctx : Context} {exit : Exit} :
    n.returnExit Draft.returnTarget = .ok exit →
    StmtCode n (.return none span) ctx [.leave false exit.operation] ctx
  | returnAs {n : Nesting} {value : Expr} {span : Span} {ctx ctx' : Context} {ps : List Piece}
    {exit : Exit} :
    ExprCode value ctx ps ctx' → n.returnExit Draft.returnTarget = .ok exit →
    StmtCode n (.return (some value) span) ctx (ps ++ [.leave true exit.operation]) ctx'
  | throw {n : Nesting} {value : Expr} {span : Span} {ctx ctx' : Context} {ps : List Piece} :
    ExprCode value ctx ps ctx' →
    StmtCode n (.throw value span) ctx (ps ++ plain [.simple .throw]) ctx'
  | break {n : Nesting} {span : Span} {ctx : Context} {exit : Exit} :
    n.breakExit = .ok exit → StmtCode n (.break span) ctx (plain [exit.operation]) ctx
  | continue {n : Nesting} {span : Span} {ctx : Context} {exit : Exit} :
    n.continueExit = .ok exit → StmtCode n (.continue span) ctx (plain [exit.operation]) ctx
  | block {n : Nesting} {body : Block} {ctx ctx' : Context} {ps : List Piece} :
    BlockCode n body ctx ps ctx' → StmtCode n (.block body) ctx ps ctx'
  | ifThen {n : Nesting} {condition : Expr} {thenBranch : Stmt} {span : Span}
    {ctx ctx₁ ctx₂ : Context} {ps qs : List Piece} :
    ExprCode condition (ctx.withLabel (ctx.label + 1)) ps ctx₁ →
    StmtCode n thenBranch ctx₁ qs ctx₂ →
    StmtCode n (.if condition thenBranch none span) ctx
      (ps ++ plain [.jump .ifFalse ctx.label] ++ qs ++ plain [.label ctx.label]) ctx₂
  | ifElse {n : Nesting} {condition : Expr} {thenBranch elseBranch : Stmt} {span : Span}
    {ctx ctx₁ ctx₂ ctx₃ : Context} {ps qs rs : List Piece} :
    ExprCode condition (ctx.withLabel (ctx.label + 1)) ps ctx₁ →
    StmtCode n thenBranch ctx₁ qs ctx₂ →
    StmtCode n elseBranch (ctx₂.withLabel (ctx₂.label + 1)) rs ctx₃ →
    StmtCode n (.if condition thenBranch (some elseBranch) span) ctx
      (ps ++ plain [.jump .ifFalse ctx.label] ++ qs ++
        plain [.jump .always ctx₂.label, .label ctx.label] ++ rs ++ plain [.label ctx₂.label]) ctx₃
  | while {n : Nesting} {condition : Expr} {body : Stmt} {span : Span} {ctx ctx₁ ctx₂ : Context}
    {ps qs : List Piece} :
    ExprCode condition (ctx.withLabel (ctx.label + 2)) ps ctx₁ →
    StmtCode (n.enterLoop ctx.label (ctx.label + 1)) body ctx₁ qs ctx₂ →
    StmtCode n (.while condition body span) ctx
      (plain [.label ctx.label] ++ ps ++ plain [.jump .ifFalse (ctx.label + 1)] ++ qs ++
        plain [.jump .always ctx.label, .label (ctx.label + 1)]) ctx₂
  | try {n : Nesting} {body : Block} {handler : Option CatchClause} {finalizer : Option Block}
    {span : Span} {ctx ctx₁ ctx₂ ctx₃ : Context} {h f : Option Label} {next endLabel : Label}
    {ps qs rs : List Piece} :
    partLabel handler.isSome ctx.label = (h, next) →
    partLabel finalizer.isSome next = (f, endLabel) →
    BlockCode (n.within .body) body (ctx.withLabel (endLabel + 1)) ps ctx₁ →
    CatchCode (n.within .handler) h endLabel handler ctx₁ qs ctx₂ →
    FinallyCode (n.within .finalizer) f finalizer ctx₂ rs ctx₃ →
    StmtCode n (.try body handler finalizer span) ctx
      (plain [.try h f] ++ ps ++ plain [.endTry endLabel] ++ qs ++ rs ++
        plain [.label endLabel]) ctx₃

/-- The code of `Stmt`s in order. -/
inductive StmtsCode : Nesting → List Stmt → Context → List Piece → Context → Prop where
  | nil {n : Nesting} {ctx : Context} : StmtsCode n [] ctx [] ctx
  | cons {n : Nesting} {s : Stmt} {rest : List Stmt} {ctx ctx₁ ctx₂ : Context}
    {ps qs : List Piece} :
    StmtCode n s ctx ps ctx₁ → StmtsCode n rest ctx₁ qs ctx₂ →
    StmtsCode n (s :: rest) ctx (ps ++ qs) ctx₂

/-- The code of a `Block`, between the marks of its braces. -/
inductive BlockCode : Nesting → Block → Context → List Piece → Context → Prop where
  | block {n : Nesting} {stmts : List Stmt} {span : Span} {ctx ctx' : Context} {ps : List Piece} :
    StmtsCode n stmts (ctx.enter "block") ps ctx' →
    BlockCode n ⟨stmts, span⟩ ctx (plain [.anchor] ++ ps ++ plain [.anchor]) ctx'.leave

/-- The code of a `CatchClause`, if there is one, from its label to the end of the region. -/
inductive CatchCode :
    Nesting → Option Label → Label → Option CatchClause → Context → List Piece → Context → Prop where
  | none {n : Nesting} {endLabel : Label} {ctx : Context} :
    CatchCode n none endLabel none ctx [] ctx
  | some {n : Nesting} {l endLabel : Label} {param : Option Ident} {body : Block} {span : Span}
    {ctx ctx₁ ctx₂ : Context} {ops : List Operation} {ps : List Piece} :
    BindsException param (ctx.enter "catch") ops ctx₁ → BlockCode n body ctx₁ ps ctx₂ →
    CatchCode n (some l) endLabel (some ⟨param, body, span⟩) ctx
      (plain (.label l :: ops) ++ ps ++ plain [.endTry endLabel]) ctx₂.leave

/-- The code of a finalizer, if there is one, from its `Label` to its end. -/
inductive FinallyCode :
    Nesting → Option Label → Option Block → Context → List Piece → Context → Prop where
  | none {n : Nesting} {ctx : Context} : FinallyCode n none none ctx [] ctx
  | some {n : Nesting} {l : Label} {body : Block} {ctx ctx' : Context} {ps : List Piece} :
    BlockCode n body ctx ps ctx' →
    FinallyCode n (some l) (some body) ctx
      (plain [.label l] ++ ps ++ plain [.simple .endFinally]) ctx'

end

/-! ## Functions -/

/-- Parameters are declared in order. -/
inductive ParamsIn : List Param → Context → Context → Prop where
  | nil {ctx : Context} : ParamsIn [] ctx ctx
  | cons {param : Param} {rest : List Param} {ctx ctx' : Context} :
    ctx.scope.isTaken param.id.name = false →
    ParamsIn rest (ctx.declareParam param.id.name param.span (ParamType.ofTy param.ty)) ctx' →
    ParamsIn (param :: rest) ctx ctx'

/-- The code of the body of a function, which sees the parameters in a frame of their own. -/
inductive FunctionCode : FunctionDecl → Context → List Piece → Context → Prop where
  | none {decl : FunctionDecl} {ctx ctx' : Context} :
    decl.body = none → ParamsIn decl.params (ctx.enter decl.id.name) ctx' →
    FunctionCode decl ctx [] ctx'.leave
  | some {decl : FunctionDecl} {body : Block} {ctx ctx₁ ctx₂ : Context} {ps : List Piece} :
    decl.body = some body → ParamsIn decl.params (ctx.enter decl.id.name) ctx₁ →
    BlockCode {} body ctx₁ ps ctx₂ → FunctionCode decl ctx ps ctx₂.leave

/-- `FunctionCode` of a function with a body is `BlockCode` of the body. -/
theorem FunctionCode.exists_blockCode {decl : FunctionDecl} {body : Block} {ctx ctx' : Context}
    {ps : List Piece} (h : FunctionCode decl ctx ps ctx') (hbody : decl.body = Option.some body) :
    ∃ ctx₁ ctx₂, ParamsIn decl.params (ctx.enter decl.id.name) ctx₁ ∧
      BlockCode {} body ctx₁ ps ctx₂ ∧ ctx' = ctx₂.leave := by
  cases h with
  | none hnone _ => cases hbody.symm.trans hnone
  | some hsome hparams hblock =>
    cases hbody.symm.trans hsome
    exact ⟨_, _, hparams, hblock, rfl⟩

/-- The code that fills the static slots from an index on, as `lowerStatics` does. -/
inductive StaticsCode : List StaticDecl → Nat → Context → List Piece → Context → Prop where
  | nil {index : Nat} {ctx : Context} : StaticsCode [] index ctx [] ctx
  | skip {decl : StaticDecl} {rest : List StaticDecl} {index : Nat} {ctx ctx' : Context}
    {ps : List Piece} :
    decl.init = none → StaticsCode rest (index + 1) ctx ps ctx' →
    StaticsCode (decl :: rest) index ctx ps ctx'
  | fill {decl : StaticDecl} {rest : List StaticDecl} {value : Expr} {index : Nat}
    {ctx ctx₁ ctx₂ : Context} {ps qs : List Piece} :
    decl.init = some value → ExprCode value ctx ps ctx₁ →
    StaticsCode rest (index + 1) ctx₁ qs ctx₂ →
    StaticsCode (decl :: rest) index ctx (ps ++ plain [.store .static index] ++ qs) ctx₂

end ContractScript
