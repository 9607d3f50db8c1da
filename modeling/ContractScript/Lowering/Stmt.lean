import ContractScript.Lowering.Expr

/-!
# Lowering of statements

- `lowerStmt`, `lowerStmts`, `lowerBlock`: statements, each in the scope that encloses it.
- `emitExit`: how `break`, `continue` and `return` leave loops and try statements.
- `lowerCondition`: a test that jumps if it fails.
- `emitTry`: the regions of a try statement.

Statements that are not themselves made of statements mark their first operation with their place.
A block marks its two braces.
-/

namespace ContractScript

open Lower

/-- The diagnostic of a keyword that cannot leave what encloses it. -/
def ExitError.toLowering (keyword : String) (span : Span) : ExitError → LoweringError
  | .notInLoop => .outsideLoop keyword span
  | .acrossTry | .underflow =>
    .unsupported (quoted keyword ++ " leaving a finally block or nested try") span

/-- Leave the enclosing loops and try statements by a keyword. -/
def emitExit (exit : Nesting → Except ExitError Exit) (keyword : String) (span : Span) :
    Lower Unit := do
  match exit (← get).draft.nesting with
  | .ok e => emit e.operation
  | .error e => fail (e.toLowering keyword span)

/-- Lower a test, and jump if it fails. -/
def lowerCondition (condition : Expr) (target : Label) : Lower Unit := do
  markFrom condition.span (lowerExpr condition)
  emit (.jump .ifFalse target)

/-- Declare a local variable. The initial value is lowered first, so it sees what the name stood
for before. -/
def lowerDeclaration (id : Ident) (ty : Ty) (init : Option Expr) (isConst : Bool) :
    Lower Unit := do
  match init with
  | none =>
    let _ ← defineLocal id (ParamType.ofTy ty) (!isConst)
  | some value =>
    lowerExpr value
    let index ← defineLocal id (ParamType.ofTy ty) (!isConst)
    emit (.store .local index)

/-- Return, with the value on the stack. -/
def lowerReturn (value : Option Expr) (span : Span) : Lower Unit := do
  match value with
  | none => pure ()
  | some v => lowerExpr v
  emitExit (·.returnExit Draft.returnTarget) "return" span

/-- Keep the exception on the stack in a new variable, or drop it. -/
def bindException : Option Ident → Lower Unit
  | none => emitOpcode .drop
  | some id => do
    let index ← defineLocal id .any true
    emit (.store .local index)

/-- A `Label` for a part of a try statement that is there. -/
def labelFor : Option (Lower Unit) → Lower (Option Label)
  | none => pure none
  | some _ => some <$> newLabel

/-- A part of a try statement after its body, if it is there. -/
def emitPart (phase : TryPhase) (exit : Operation) : Option Label → Option (Lower Unit) → Lower Unit
  | some l, some part => do
    place l
    nest (·.setPhase phase)
    part
    emit exit
  | _, _ => pure ()

/-- A try statement; `body`, `handler` and `finalizer` lower its parts. -/
def emitTry (span : Span) (body : Lower Unit) (handler finalizer : Option (Lower Unit)) :
    Lower Unit := do
  let handlerLabel ← labelFor handler
  let finalizerLabel ← labelFor finalizer
  let endLabel ← newLabel
  emitAt (.try handlerLabel finalizerLabel) span
  inTry do
    body
    emit (.endTry endLabel)
    emitPart .handler (.endTry endLabel) handlerLabel handler
    emitPart .finalizer (.simple .endFinally) finalizerLabel finalizer
  place endLabel

mutual

/-- Lower a `Stmt`. -/
def lowerStmt (s : Stmt) : Lower Unit :=
  match s with
  | .expr e span => markFrom span (lowerDiscarded e)
  | .declare id ty init isConst span => markFrom span (lowerDeclaration id ty init isConst)
  | .return value span => markFrom span (lowerReturn value span)
  | .throw value span => markFrom span do
    lowerExpr value
    emitOpcode .throw
  | .break span => markFrom span (emitExit (·.breakExit) "break" span)
  | .continue span => markFrom span (emitExit (·.continueExit) "continue" span)
  | .block body => lowerBlock body
  | .if condition thenBranch elseBranch _ => do
    let elseLabel ← newLabel
    lowerCondition condition elseLabel
    lowerStmt thenBranch
    match elseBranch with
    | none => place elseLabel
    | some branch =>
      let endLabel ← newLabel
      emit (.jump .always endLabel)
      place elseLabel
      lowerStmt branch
      place endLabel
  | .while condition body _ => do
    let continueLabel ← newLabel
    let breakLabel ← newLabel
    place continueLabel
    lowerCondition condition breakLabel
    inLoop continueLabel breakLabel (lowerStmt body)
    emit (.jump .always continueLabel)
    place breakLabel
  | .try body handler finalizer span =>
    emitTry span (lowerBlock body)
      (match handler with
      | none => none
      | some clause => some (lowerHandler clause))
      (match finalizer with
      | none => none
      | some block => some (lowerBlock block))
  | .other kind span => fail (.unsupported kind span)
termination_by structural s

/-- Lower `Stmt`s in order. -/
def lowerStmts (ss : List Stmt) : Lower Unit :=
  match ss with
  | [] => pure ()
  | s :: rest => do
    lowerStmt s
    lowerStmts rest
termination_by structural ss

/-- Lower a `Block` in a scope of its own. -/
def lowerBlock (b : Block) : Lower Unit :=
  match b with
  | ⟨ss, span⟩ => do
    emitAt .anchor span.first
    inScope "block" (lowerStmts ss)
    emitAt .anchor span.last
termination_by structural b

/-- Lower a `CatchClause`: its variable lives in a scope around its block. -/
def lowerHandler (c : CatchClause) : Lower Unit :=
  match c with
  | ⟨param, body, _⟩ => inScope "catch" do
    bindException param
    lowerBlock body
termination_by structural c

end

end ContractScript
