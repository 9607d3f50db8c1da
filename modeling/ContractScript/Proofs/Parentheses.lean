import ContractScript.Proofs.LowerSteps

/-!
# Parentheses

Parentheses group what stands between them and say nothing more. Lowering looks at the shape of an
expression in many places: at the target of an assignment, at what is called, at what stands before
a dot, at literals and at types. In each of them it sees the same with parentheses and without, so
only the texts and places of faults can tell.
-/

namespace ContractScript

open Lower

/-! ## Expressions without parentheses -/

mutual

/-- The `Expr` without its parentheses, at any depth. -/
def Expr.bare (e : Expr) : Expr :=
  match e with
  | .literal value ty span => .literal value ty span
  | .ident id ty span => .ident id ty span
  | .binary op left right ty span => .binary op left.bare right.bare ty span
  | .unary op operand ty span => .unary op operand.bare ty span
  | .assign op target value span => .assign op target.bare value.bare span
  | .call callee args ty span => .call callee.bare (bareArgs args) ty span
  | .member object id ty span => .member object.bare id ty span
  | .paren inner _ => inner.bare
  | .other kind span => .other kind span
termination_by structural e

/-- Arguments without their parentheses. -/
def bareArgs (args : List Expr) : List Expr :=
  match args with
  | [] => []
  | arg :: rest => arg.bare :: bareArgs rest
termination_by structural args

end

theorem length_bareArgs (args : List Expr) : (bareArgs args).length = args.length := by
  induction args with
  | nil => rfl
  | cons arg rest ih => exact congrArg Nat.succ ih

namespace Expr

/-- `unparenthesized` sees the same expression inside. -/
theorem unparenthesized_bare (e : Expr) : e.bare.unparenthesized = e.unparenthesized.bare := by
  fun_induction unparenthesized e with
  | case1 inner span ih => exact ih
  | case2 e hparen =>
    cases e with
    | paren inner span => exact absurd rfl (hparen inner span)
    | _ => rfl

theorem unparenthesized_ne_paren (e inner : Expr) (span : Span) :
    e.unparenthesized ≠ .paren inner span := by
  fun_induction unparenthesized e with
  | case1 inner' span' ih => exact ih
  | case2 e hparen => exact hparen inner span

/-- Parentheses have the type of what they group. -/
theorem ty_bare (e : Expr) : e.bare.ty = e.ty := by
  fun_induction ty e with
  | case5 op target value span ih => exact ih
  | case8 inner span ih => exact ih
  | _ => rfl

/-- A literal in parentheses is still one. -/
theorem isNullLiteral_bare (e : Expr) : e.bare.isNullLiteral = e.isNullLiteral := by
  unfold isNullLiteral
  rw [unparenthesized_bare]
  cases hshape : e.unparenthesized with
  | paren inner span => exact absurd hshape (e.unparenthesized_ne_paren inner span)
  | _ => rfl

theorem intLiteral?_bare (e : Expr) : e.bare.intLiteral? = e.intLiteral? := by
  unfold intLiteral?
  rw [unparenthesized_bare]
  cases hshape : e.unparenthesized with
  | paren inner span => exact absurd hshape (e.unparenthesized_ne_paren inner span)
  | _ => rfl

end Expr

theorem operandType_bare (left right : Expr) :
    operandType left.bare right.bare = operandType left right := by
  unfold operandType
  rw [left.ty_bare, right.ty_bare]

/-! ## How steps end -/

namespace Lower

variable {α β : Type}

/-- How a step ends, whatever its fault says: with its value or without one, and the state. -/
def outcome (step : Lower α) (s : LowerState) : Option α × LowerState :=
  match step s with
  | .ok a s' => (some a, s')
  | .error _ s' => (none, s')

theorem outcome_eq_some_iff {step : Lower α} {s s' : LowerState} {a : α} :
    outcome step s = (some a, s') ↔ step s = .ok a s' := by
  unfold outcome
  cases step s with
  | ok b t => simp
  | error e t => simp

theorem outcome_bind_eq (step : Lower α) (next : α → Lower β) (s : LowerState) :
    outcome (step >>= next) s = match outcome step s with
      | (some a, s') => outcome (next a) s'
      | (none, s') => (none, s') := by
  unfold outcome
  cases h : step s with
  | ok a t => rw [bind_of_ok h]
  | error e t => rw [bind_of_error h]

/-- Steps in a row end alike if each of them does. -/
theorem outcome_bind {step step' : Lower α} {next next' : α → Lower β}
    (hstep : outcome step = outcome step') (hnext : ∀ a, outcome (next a) = outcome (next' a)) :
    outcome (step >>= next) = outcome (step' >>= next') := by
  funext s
  rw [outcome_bind_eq, outcome_bind_eq, hstep]
  split
  · exact congrFun (hnext _) _
  · rfl

theorem outcome_fail (e e' : LoweringError) :
    outcome (fail e : Lower α) = outcome (fail e' : Lower α) :=
  rfl

end Lower

/-! ## Names -/

/-- `memberOf?` finds the same object. -/
theorem memberOf?_bare (object : Expr) (member : Ident) :
    memberOf? object.bare member = memberOf? object member := by
  unfold memberOf?
  rw [object.unparenthesized_bare]
  cases hshape : object.unparenthesized with
  | paren inner span => exact absurd hshape (object.unparenthesized_ne_paren inner span)
  | _ => rfl

/-- `assignedSlot` finds the same variable. -/
theorem assignedSlot_bare (target : Expr) (span : Span) :
    assignedSlot target.bare span = assignedSlot target span := by
  unfold assignedSlot
  rw [target.unparenthesized_bare]
  cases hshape : target.unparenthesized with
  | paren inner span => exact absurd hshape (target.unparenthesized_ne_paren inner span)
  | literal value ty span => cases value <;> rfl
  | _ => rfl

/-- What is called is the same, and where it is not found the fault names another shape. -/
theorem outcome_resolveCallee_bare (callee : Expr) (span : Span) :
    outcome (resolveCallee callee.bare span) = outcome (resolveCallee callee span) := by
  unfold resolveCallee
  dsimp only
  rw [callee.unparenthesized_bare]
  cases hshape : callee.unparenthesized with
  | paren inner span => exact absurd hshape (callee.unparenthesized_ne_paren inner span)
  | member object member ty span =>
    dsimp only [Expr.bare]
    rw [memberOf?_bare]
    refine outcome_bind rfl fun found => ?_
    cases found <;> rfl
  | _ => rfl

/-! ## Steps of expressions -/

/-- `emitShortCircuit` ends as its right operand does. -/
theorem outcome_emitShortCircuit (op : BinaryOp) {right right' : Lower Unit}
    (hright : outcome right = outcome right') :
    outcome (emitShortCircuit op right) = outcome (emitShortCircuit op right') := by
  unfold emitShortCircuit
  refine outcome_bind rfl fun done => outcome_bind rfl fun _ => ?_
  have hguarded : outcome (do emitOpcode .drop; right; place done) =
      outcome (do emitOpcode .drop; right'; place done) :=
    outcome_bind rfl fun _ => outcome_bind hright fun _ => rfl
  split
  · exact outcome_bind rfl fun _ => hguarded
  · exact outcome_bind rfl fun _ => hguarded
  · exact outcome_bind rfl fun _ => outcome_bind rfl fun _ => hguarded

/-- `emitAssign` writes to the same variable. -/
theorem outcome_emitAssign_bare (op : Option BinaryOp) (target : Expr) (span : Span) (keep : Bool)
    {value value' : Lower Unit} (hvalue : outcome value = outcome value') :
    outcome (emitAssign op target.bare span keep value) =
      outcome (emitAssign op target span keep value') := by
  unfold emitAssign
  rw [assignedSlot_bare, target.ty_bare]
  refine outcome_bind rfl fun ⟨kind, index⟩ => ?_
  cases op with
  | none => exact outcome_bind hvalue fun _ => rfl
  | some op =>
    have happly : outcome (do
          emit (.load kind index)
          value
          emitOperator op target.ty span
          if keep then emitOpcode .dup
          emit (.store kind index)) =
        outcome (do
          emit (.load kind index)
          value'
          emitOperator op target.ty span
          if keep then emitOpcode .dup
          emit (.store kind index)) :=
      outcome_bind rfl fun _ => outcome_bind hvalue fun _ => rfl
    dsimp only
    split
    · -- a short-circuit operator is refused
      exact outcome_bind rfl fun _ => happly
    · exact happly

theorem outcome_emitInvocation (symbol : Symbol) (callee callee' : Expr) (argCount : Nat)
    (span : Span) :
    outcome (emitInvocation symbol callee argCount span) =
      outcome (emitInvocation symbol callee' argCount span) := by
  unfold emitInvocation
  cases symbol.definition <;> rfl

/-- `emitCall` calls the same symbol. -/
theorem outcome_emitCall_bare (callee : Expr) (argCount : Nat) (span : Span)
    {args args' : Lower Unit} (hargs : outcome args = outcome args') :
    outcome (emitCall callee.bare argCount span args) =
      outcome (emitCall callee argCount span args') := by
  unfold emitCall
  refine outcome_bind (outcome_resolveCallee_bare callee span) fun symbol => ?_
  have hcall : outcome (do args; emitInvocation symbol callee.bare argCount span) =
      outcome (do args'; emitInvocation symbol callee argCount span) :=
    outcome_bind hargs fun _ => outcome_emitInvocation symbol _ _ argCount span
  cases symbol.definition.paramCount? with
  | none => exact outcome_bind (outcome_fail _ _) fun _ => hcall
  | some expected =>
    dsimp only
    split
    · exact outcome_bind rfl fun _ => hcall
    · exact hcall

theorem outcome_emitMember_bare (object : Expr) (member : Ident) (span : Span)
    {value value' : Lower Unit} (hvalue : outcome value = outcome value') :
    outcome (emitMember object.bare member span value) =
      outcome (emitMember object member span value') := by
  unfold emitMember
  rw [memberOf?_bare, object.ty_bare]
  refine outcome_bind rfl fun found => ?_
  cases found with
  | some symbol => rfl
  | none =>
    dsimp only
    split
    · exact outcome_bind hvalue fun _ => rfl
    · rfl

/-! ## Expressions -/

mutual

/-- `lowerExpr` ends like on the expression without its parentheses. -/
theorem outcome_lowerExpr_bare (e : Expr) : outcome (lowerExpr e.bare) = outcome (lowerExpr e) := by
  match e with
  | .literal _ _ _ => rfl
  | .ident _ _ _ => rfl
  | .binary op left right _ span =>
    have hleft := outcome_lowerExpr_bare left
    have hright := outcome_lowerExpr_bare right
    rw [Expr.bare, lowerExpr, lowerExpr, left.isNullLiteral_bare, right.isNullLiteral_bare,
      operandType_bare]
    split
    · exact outcome_bind hleft fun _ => outcome_emitShortCircuit op hright
    · split
      · -- a comparison with the null literal lowers the other side only
        dsimp only
        split
        · exact outcome_bind hleft fun _ => rfl
        · exact outcome_bind hright fun _ => rfl
      · exact outcome_bind hleft fun _ => outcome_bind hright fun _ => rfl
  | .unary op operand _ _ =>
    have hoperand := outcome_lowerExpr_bare operand
    rw [Expr.bare, lowerExpr.eq_def, lowerExpr.eq_def]
    dsimp only
    rw [operand.intLiteral?_bare]
    split
    · rfl
    · exact outcome_bind hoperand fun _ => rfl
  | .assign op target value span =>
    exact outcome_emitAssign_bare op target span true (outcome_lowerExpr_bare value)
  | .call callee args _ span =>
    have hargs := outcome_lowerArgs_bare args
    rw [Expr.bare, lowerExpr, lowerExpr, length_bareArgs]
    exact outcome_bind (outcome_emitCall_bare callee args.length span hargs) fun _ => rfl
  | .member object member _ span =>
    exact outcome_emitMember_bare object member span (outcome_lowerExpr_bare object)
  | .paren inner _ => exact outcome_lowerExpr_bare inner
  | .other _ _ => rfl

theorem outcome_lowerArgs_bare (args : List Expr) :
    outcome (lowerArgs (bareArgs args)) = outcome (lowerArgs args) := by
  match args with
  | [] => rfl
  | arg :: rest =>
    have hrest := outcome_lowerArgs_bare rest
    have harg := outcome_lowerExpr_bare arg
    exact outcome_bind hrest fun _ => harg

end

/-- So does `lowerDiscarded`. -/
theorem outcome_lowerDiscarded_bare (e : Expr) :
    outcome (lowerDiscarded e.bare) = outcome (lowerDiscarded e) := by
  unfold lowerDiscarded
  rw [e.unparenthesized_bare]
  cases hshape : e.unparenthesized with
  | paren inner span => exact absurd hshape (e.unparenthesized_ne_paren inner span)
  | assign op target value span =>
    exact outcome_bind (outcome_emitAssign_bare op target span false (outcome_lowerExpr_bare value))
      fun _ => rfl
  | call callee args ty span =>
    dsimp only [Expr.bare]
    rw [length_bareArgs]
    exact outcome_bind
      (outcome_emitCall_bare callee args.length span (outcome_lowerArgs_bare args)) fun _ => rfl
  | _ => exact outcome_bind (outcome_lowerExpr_bare _) fun _ => rfl

/-- Of two expressions that are the same without their parentheses (`Expr.bare`), `lowerExpr`
succeeds on both or on neither, and so does `lowerDiscarded`, for the effects alone; and lowering
ends in the same state: with the same operations, labels and tokens. -/
theorem lowering_ignores_parentheses (e e' : Expr) (h : e.bare = e'.bare) (s : LowerState) :
    outcome (lowerExpr e) s = outcome (lowerExpr e') s ∧
      outcome (lowerDiscarded e) s = outcome (lowerDiscarded e') s := by
  rw [← outcome_lowerExpr_bare e, ← outcome_lowerDiscarded_bare e, h, outcome_lowerExpr_bare,
    outcome_lowerDiscarded_bare]
  exact ⟨rfl, rfl⟩

/-- The body of a function with a variable, where the host provides an object. -/
def groupingState : LowerState where
  draft := { id := 0, name := "test", locals := #[⟨"x", .any⟩] }
  scope :=
    { builtins :=
        { symbols := [⟨"o", builtinScope, {},
            .object [⟨"f", builtinScope, {}, .host ⟨[.service .storageGet], 2, true, false⟩⟩]⟩] }
      rootFrame := ⟨1, "root", []⟩
      inner := [⟨2, "test", [⟨"x", 2, {}, .slot .local 0 true⟩]⟩]
      nextId := 3 }
  tokens := .empty

/-- The assignment `x = o.f(-5, x == null)`, with what `group` puts around each part. -/
def groupedAssignment (group : Expr → Expr) : Expr :=
  let x : Expr := group (.ident ⟨"x", {}⟩ .any {})
  let callee : Expr := group (.member (group (.ident ⟨"o", {}⟩ .any {})) ⟨"f", {}⟩ .any {})
  let five : Expr := group (.literal (.int 5) .integer {})
  let isNull : Expr := .binary .equal x (group (.literal .null .null {})) .boolean {}
  group (.assign none x (group (.call callee [group (.unary .neg five .integer {}), group isNull]
    .any {})) {})

/-- Every part of the assignment may stand in parentheses. -/
theorem lowering_ignores_parentheses_grouped :
    let grouped := groupedAssignment fun e => .paren (.paren e {}) {}
    let ungrouped := groupedAssignment id
    grouped.bare = ungrouped.bare ∧ ∃ s',
      lowerDiscarded grouped groupingState = .ok () s' ∧
      lowerDiscarded ungrouped groupingState = .ok () s' ∧
      s'.draft.ops.toList.map Op.operation =
        [.load .local 0, .simple .isNull, .pushInt (-5), .service .storageGet,
          .store .local 0] := by
  intro grouped ungrouped
  have hbare : grouped.bare = ungrouped.bare := rfl
  obtain ⟨s', hungrouped, hops⟩ : ∃ s', lowerDiscarded ungrouped groupingState = .ok () s' ∧
      s'.draft.ops.toList.map Op.operation =
        [.load .local 0, .simple .isNull, .pushInt (-5), .service .storageGet,
          .store .local 0] := ⟨_, rfl, by decide⟩
  have houtcome := (lowering_ignores_parentheses grouped ungrouped hbare groupingState).2
  rw [outcome_eq_some_iff.mpr hungrouped] at houtcome
  exact ⟨hbare, s', outcome_eq_some_iff.mp houtcome, hungrouped, hops⟩

end ContractScript
