import ContractScript.Lowering.State

/-!
# Lowering of expressions

An expression becomes operations that leave its value on the stack; a call of something without
result leaves nothing.

- `lowerExpr`, `lowerDiscarded`: an expression for its value, and one for its effects only.
- `integerOpcode?`, `emitOperator`: the operations of an operator, by the type of its operands.
- `memberOf?`: members of objects of the host.
-/

namespace ContractScript

open Lower

/-! ## Operators -/

/-- The `Opcode` of an operator on integers. -/
def integerOpcode? : BinaryOp → Option Opcode
  | .add => some .add
  | .sub => some .sub
  | .mul => some .mul
  | .div => some .div
  | .mod => some .mod
  | .pow => some .pow
  | .shiftLeft => some .shl
  | .shiftRight => some .shr
  | .bitAnd => some .and
  | .bitOr => some .or
  | .bitXor => some .xor
  | .less => some .lt
  | .lessEqual => some .le
  | .greater => some .gt
  | .greaterEqual => some .ge
  | .equal => some .numEqual
  | .notEqual => some .numNotEqual
  | .logicalAnd | .logicalOr | .nullish => none

/-- The `Operation`s of an operator whose operands have a type. Bytes are joined to a buffer, which
is turned back to a byte string, so that later comparisons see its contents. -/
def operatorOps? (op : BinaryOp) (ty : Ty) : Option (List Operation) :=
  if ty.isInteger then (integerOpcode? op).map fun o => [.simple o]
  else
    match op with
    | .add => if ty.isByteLike then some [.simple .cat, .convert .byteString] else none
    | .equal => some [.simple .equal]
    | .notEqual => some [.simple .notEqual]
    | _ => none

/-- Apply an operator to the two values on the stack. -/
def emitOperator (op : BinaryOp) (ty : Ty) (span : Span) : Lower Unit :=
  match operatorOps? op ty with
  | some ops => emitAll ops
  | none => fail (.unsupportedOperator op.text ty.text span)

/-- The `Operation`s of an operator on the value on the stack. -/
def UnaryOp.ops : UnaryOp → List Operation
  | .not => [.simple .not]
  | .neg => [.simple .negate]
  | .bitNot => [.simple .invert]
  | .plus => []

/-- The type that an operator is chosen by: that of the left operand, unless it is null. -/
def operandType (left right : Expr) : Ty :=
  match left.ty with
  | .null => right.ty
  | ty => ty

/-- The value of an integer literal, inside any number of parentheses. -/
def Expr.intLiteral? (e : Expr) : Option Int :=
  match e.unparenthesized with
  | .literal (.int value) _ _ => some value
  | _ => none

/-- Evaluate the right operand only if the left one, on the stack, does not decide. -/
def emitShortCircuit (op : BinaryOp) (right : Lower Unit) : Lower Unit := do
  let done ← newLabel
  emitOpcode .dup
  match op with
  | .logicalAnd => emit (.jump .ifFalse done)
  | .logicalOr => emit (.jump .ifTrue done)
  | _ =>
    emitOpcode .isNull
    emit (.jump .ifFalse done)
  emitOpcode .drop
  right
  place done

/-! ## Names -/

/-- Push the value of a variable or a constant. -/
def emitIdent (id : Ident) (span : Span) : Lower Unit := do
  let symbol ← resolve id.name span
  match symbol.definition with
  | .slot kind index _ => emit (.load kind index)
  | .constant value => emit value.push
  | d => fail (.invalidUse symbol.name d.kind span)

/-- The member of an object of the host that an access names. Anything else that stands before
the dot has no members; a member that the object lacks is a fault. -/
def memberOf? (object : Expr) (member : Ident) : Lower (Option Symbol) := do
  match object.unparenthesized with
  | .ident id _ _ =>
    match (← get).scope.lookup id.name with
    | some ⟨_, _, _, .object members⟩ =>
      match findSymbol members member.name with
      | some symbol => pure (some symbol)
      | none => throw (.symbol (.unresolved (id.name ++ "." ++ member.name) member.span))
    | _ => pure none
  | _ => pure none

/-- Call a method of another contract. -/
def emitToken (ref : MethodRef) (span : Span) : Lower Unit := do
  let index ← token ref span
  emit (.callToken index)

/-- Push the value of a property; `object` lowers what stands before the dot. -/
def emitMember (objectExpr : Expr) (member : Ident) (span : Span) (object : Lower Unit) :
    Lower Unit := do
  match ← memberOf? objectExpr member with
  | some symbol =>
    match symbol.definition with
    | .host call =>
      if call.isProperty then emitAll call.ops else fail (.invalidUse symbol.name "builtin" span)
    | .method ref =>
      if ref.isProperty then emitToken ref span
      else fail (.invalidUse symbol.name "method token" span)
    | d => fail (.invalidUse symbol.name d.kind span)
  | none =>
    if member.name = "length" ∧ objectExpr.ty.hasLength then
      object
      emitOpcode .size
    else fail (.unsupported "PropertyAccessExpression" span)

/-! ## Assignments -/

/-- The slot that an assignment writes to. -/
def assignedSlot (target : Expr) (span : Span) : Lower (SlotKind × Nat) := do
  match target.unparenthesized with
  | .ident id _ idSpan =>
    let symbol ← resolve id.name idSpan
    match symbol.definition with
    | .slot kind index true => pure (kind, index)
    | .slot _ _ false | .constant _ | .function _ _ _ =>
      fail (.assignToConstant symbol.name span)
    | d => fail (.invalidUse symbol.name d.kind idSpan)
  | e => fail (.unsupported ("assignment to " ++ e.kind) e.span)

/-- Assign to a variable; `value` lowers the right side, and `keep` leaves the assigned value on
the stack. -/
def emitAssign (op : Option BinaryOp) (target : Expr) (span : Span) (keep : Bool)
    (value : Lower Unit) : Lower Unit := do
  let (kind, index) ← assignedSlot target span
  match op with
  | none => value
  | some op =>
    if op.isShortCircuit then
      fail (.unsupportedOperator (op.text ++ "=") target.ty.text span)
    emit (.load kind index)
    value
    emitOperator op target.ty span
  if keep then emitOpcode .dup
  emit (.store kind index)

/-! ## Calls -/

/-- The `Symbol` that a call names. -/
def resolveCallee (callee : Expr) (span : Span) : Lower Symbol := do
  let unsupported : Lower Symbol := fail (.unsupported ("CallExpression on " ++ callee.kind) span)
  match callee.unparenthesized with
  | .ident id _ idSpan => resolve id.name idSpan
  | .member object member _ _ =>
    match ← memberOf? object member with
    | some symbol => pure symbol
    | none => unsupported
  | _ => unsupported

/-- Call what a `Symbol` stands for, its arguments on the stack, and whether it leaves a result. -/
def emitInvocation (symbol : Symbol) (callee : Expr) (argCount : Nat) (span : Span) :
    Lower Bool := do
  match symbol.definition with
  | .function id _ returns =>
    emit (.call id)
    pure returns
  | .host call =>
    emitAll call.ops
    pure call.returns
  | .method ref =>
    emitToken ref span
    pure ref.returns
  | .event name _ =>
    emitAll [.pushInt argCount, .simple .pack, .pushData (Text.utf8 name),
      .service .runtimeNotify]
    pure false
  | d => fail (.invalidUse symbol.name d.kind callee.span)

/-- Call a symbol; `args` lowers the arguments. Whether the call leaves a result. -/
def emitCall (callee : Expr) (argCount : Nat) (span : Span) (args : Lower Unit) :
    Lower Bool := do
  let symbol ← resolveCallee callee span
  match symbol.definition.paramCount? with
  | none => fail (.invalidUse symbol.name symbol.definition.kind callee.span)
  | some expected =>
    if expected ≠ argCount then fail (.argumentCount symbol.name expected argCount span)
  args
  emitInvocation symbol callee argCount span

/-! ## Expressions -/

mutual

/-- Lower an `Expr` for its value. -/
def lowerExpr (e : Expr) : Lower Unit :=
  match e with
  | .literal value _ _ => emit (Constant.ofLiteral value).push
  | .ident id _ span => emitIdent id span
  | .binary op left right _ span =>
    if op.isShortCircuit then do
      lowerExpr left
      emitShortCircuit op (lowerExpr right)
    else if (op == .equal || op == .notEqual) && (left.isNullLiteral || right.isNullLiteral) then do
      if right.isNullLiteral then lowerExpr left else lowerExpr right
      emitOpcode .isNull
      if op == .notEqual then emitOpcode .not
    else do
      lowerExpr left
      lowerExpr right
      emitOperator op (operandType left right) span
  | .unary op operand _ _ =>
    match op, operand.intLiteral? with
    | .neg, some value => emit (.pushInt (-value))
    | _, _ => do
      lowerExpr operand
      emitAll op.ops
  | .assign op target value span => emitAssign op target span true (lowerExpr value)
  | .call callee args _ span => do
    let _ ← emitCall callee args.length span (lowerArgs args)
  | .member object member _ span => emitMember object member span (lowerExpr object)
  | .paren inner _ => lowerExpr inner
  | .other kind span => fail (.unsupported kind span)
termination_by structural e

/-- Lower arguments, the last one first, so that the first ends up on top of the stack. -/
def lowerArgs (args : List Expr) : Lower Unit :=
  match args with
  | [] => pure ()
  | arg :: rest => do
    lowerArgs rest
    lowerExpr arg
termination_by structural args

end

/-- Lower an `Expr` for its effects: no value is left on the stack. -/
def lowerDiscarded (e : Expr) : Lower Unit := do
  let leavesValue ←
    match e.unparenthesized with
    | .assign op target value span => do
      emitAssign op target span false (lowerExpr value)
      pure false
    | .call callee args _ span => emitCall callee args.length span (lowerArgs args)
    | inner => do
      lowerExpr inner
      pure (!inner.ty.isVoid)
  if leavesValue then emitOpcode .drop

end ContractScript
