import ContractScript.Proofs.StackDiscipline

/-!
# Guarded calls

A call on the right of `&&`, `||` or `??` that stands as a statement is made only if the value on
the left does not decide. Where it is not made, that value is the one of the expression. It is
dropped if the expression has a type, and stays on the stack if the type says that there is no
value, as it does for a call without one.
-/

namespace ContractScript

open List

/-! ## Expressions with values -/

/-- Every `Symbol` that is used for its value has one, where names stand for what they do in a
scope. A property takes no arguments. -/
inductive Expr.HasValueIn (scope : Scope) : Expr → Prop where
  | literal {value : Literal} {ty : Ty} {span : Span} : HasValueIn scope (.literal value ty span)
  | ident {id : Ident} {ty : Ty} {span : Span} : HasValueIn scope (.ident id ty span)
  | binary {op : BinaryOp} {left right : Expr} {ty : Ty} {span : Span} :
    HasValueIn scope left → HasValueIn scope right →
    HasValueIn scope (.binary op left right ty span)
  | unary {op : UnaryOp} {operand : Expr} {ty : Ty} {span : Span} :
    HasValueIn scope operand → HasValueIn scope (.unary op operand ty span)
  | assign {op : Option BinaryOp} {target value : Expr} {span : Span} :
    HasValueIn scope value → HasValueIn scope (.assign op target value span)
  | call {callee : Expr} {args : List Expr} {ty : Ty} {span : Span} {symbol : Symbol} :
    scope.callee? callee = some symbol → symbol.definition.returns = true →
    (∀ arg ∈ args, HasValueIn scope arg) → HasValueIn scope (.call callee args ty span)
  | property {object : Expr} {member : Ident} {ty : Ty} {span : Span} {symbol : Symbol} :
    scope.member? object member.name = some symbol → symbol.definition.returns = true →
    symbol.definition.paramCount? = some 0 → HasValueIn scope (.member object member ty span)
  | length {object : Expr} {member : Ident} {ty : Ty} {span : Span} :
    scope.member? object member.name = none → HasValueIn scope object →
    HasValueIn scope (.member object member ty span)
  | paren {inner : Expr} {span : Span} :
    HasValueIn scope inner → HasValueIn scope (.paren inner span)

theorem hasValue_plain (ops : List Operation) : ∀ piece ∈ plain ops, piece.hasValue = true := by
  intro piece hpiece
  obtain ⟨op, -, rfl⟩ := mem_map.mp hpiece
  rfl

theorem hasValue_use {symbol : Symbol} {argCount : Nat} {ops : List Operation}
    (hreturns : symbol.definition.returns = true)
    (hparams : symbol.definition.paramCount? = some argCount) :
    (Piece.use symbol argCount true ops).hasValue = true := by
  rw [Piece.hasValue, hreturns, hparams]
  simp

mutual

/-- In the code of an expression that `HasValueIn` its scope, every symbol whose value is wanted has
one. -/
theorem ExprCode.hasValue {e : Expr} {ctx ctx' : Context} {ps : List Piece}
    (h : ExprCode e ctx ps ctx') (he : e.HasValueIn ctx.scope) :
    ∀ piece ∈ ps, piece.hasValue = true := by
  match h with
  | .literal | .variable _ _ | .constant _ _ | .negated _ => exact hasValue_plain _
  | .shortCircuit _ hleft hright =>
    cases he with
    | binary hvalue hvalue' =>
      rw [← hleft.sameNames.scope_eq] at hvalue'
      simp only [forall_mem_append]
      exact ⟨⟨⟨hleft.hasValue hvalue, hasValue_plain _⟩, hright.hasValue hvalue'⟩,
        hasValue_plain _⟩
  | .nullTest _ _ hoperand hcode =>
    cases he with
    | binary hvalue hvalue' =>
      refine forall_mem_append.mpr ⟨hcode.hasValue ?_, hasValue_plain _⟩
      rw [hoperand]
      split
      · exact hvalue
      · exact hvalue'
  | .operator _ _ hleft hright _ =>
    cases he with
    | binary hvalue hvalue' =>
      rw [← hleft.sameNames.scope_eq] at hvalue'
      simp only [forall_mem_append]
      exact ⟨⟨hleft.hasValue hvalue, hright.hasValue hvalue'⟩, hasValue_plain _⟩
  | .unary _ hoperand =>
    cases he with
    | unary hvalue =>
      exact forall_mem_append.mpr ⟨hoperand.hasValue hvalue, hasValue_plain _⟩
  | .assign _ hcode _ =>
    cases he with
    | assign hvalue =>
      simp only [assignPieces, forall_mem_append]
      exact ⟨⟨hasValue_plain _, hcode.hasValue hvalue⟩, hasValue_plain _⟩
  | .call hcallee hparams hargs _ =>
    cases he with
    | call hcallee' hreturns hvalues =>
      cases hcallee.symm.trans hcallee'
      exact forall_mem_append.mpr ⟨hargs.hasValue hvalues,
        forall_mem_singleton.mpr (hasValue_use hreturns hparams)⟩
  | .property hmember _ _ =>
    cases he with
    | property hmember' hreturns hparams =>
      cases hmember.symm.trans hmember'
      exact forall_mem_singleton.mpr (hasValue_use hreturns hparams)
    | length hnone _ => cases hmember.symm.trans hnone
  | .length hnone _ _ hobject =>
    cases he with
    | property hmember _ _ => cases hmember.symm.trans hnone
    | length _ hvalue =>
      exact forall_mem_append.mpr ⟨hobject.hasValue hvalue, hasValue_plain _⟩
  | .paren hinner =>
    cases he with
    | paren hvalue => exact hinner.hasValue hvalue

theorem ArgsCode.hasValue {args : List Expr} {ctx ctx' : Context} {ps : List Piece}
    (h : ArgsCode args ctx ps ctx') (hargs : ∀ arg ∈ args, arg.HasValueIn ctx.scope) :
    ∀ piece ∈ ps, piece.hasValue = true := by
  match h with
  | .nil => exact forall_mem_nil _
  | .cons hrest harg =>
    obtain ⟨hvalue, hvalues⟩ := forall_mem_cons.mp hargs
    have hcode := hrest.hasValue hvalues
    rw [← hrest.sameNames.scope_eq] at hvalue
    exact forall_mem_append.mpr ⟨hcode, harg.hasValue hvalue⟩

end

/-! ## Walks through expressions -/

section Walks

variable {floor : Nat} {code : List Piece}

theorem Reaches.trans {x y z : Point} (h : Reaches floor code x y) (h' : Reaches floor code y z) :
    Reaches floor code x z := by
  induction h' with
  | refl => exact h
  | step _ hnexts hmem ih => exact .step ih hnexts hmem

/-- `advance` leads to every point that it lists. -/
theorem Reaches.of_advance {depth : Nat} {guards : List Guard} {piece : Piece} {rest : List Piece}
    {ys : List Point} {y : Point} (h : advance floor code depth guards rest piece = some ys)
    (hy : y ∈ ys) : Reaches floor code ⟨.code (piece :: rest), depth, guards⟩ y := by
  have hnexts : nexts floor code ⟨.code (piece :: rest), depth, guards⟩ =
      some (raise code guards :: ys) := by
    simp only [nexts, h, Option.map_some]
  exact .step .refl hnexts (mem_cons_of_mem _ hy)

/-- A walk goes through operations as `heightAfter` counts. -/
theorem Reaches.ops {x height height' : Nat} {guards : List Guard} {ops : List Operation}
    {rest : List Piece} (hheight : heightAfter ops height = some height') (hx : floor ≤ x) :
    Reaches floor code ⟨.code (plain ops ++ rest), x + height, guards⟩
      ⟨.code rest, x + height', guards⟩ := by
  induction ops generalizing height with
  | nil =>
    cases hheight
    exact .refl
  | cons op ops ih =>
    obtain ⟨effects, after, heffects, hafter, hrest⟩ := exists_of_heightAfter hheight hx
    exact (Reaches.of_advance (advance_work heffects hafter) mem_cons_self).trans (ih hrest)

/-- Some walk goes through code and leaves so many values more. -/
def Passes (floor : Nat) (code ps : List Piece) (count : Nat) : Prop :=
  ∀ ⦃x : Nat⦄ ⦃guards : List Guard⦄ ⦃rest : List Piece⦄, ps ++ rest <:+ code → floor ≤ x →
    Reaches floor code ⟨.code (ps ++ rest), x, guards⟩ ⟨.code rest, x + count, guards⟩

/-- The way over a guarded part, on which the value on the left decides. -/
theorem Passes.guard (hnodup : (labelsIn (ownCode code)).Nodup) {ps : List Piece}
    (hps : Passes floor code ps 1) (op : BinaryOp) (l : Label) (qs : List Piece) :
    Passes floor code (guardPieces op l ps qs) 1 := by
  intro x guards rest hcode hx
  obtain ⟨ops, kind, hops, hkind, heq⟩ := exists_guardPieces op l ps qs rest
  rw [heq] at hcode ⊢
  have hlabel : .op (.label l) :: rest <:+ code := by
    refine List.IsSuffix.trans ?_ hcode
    exact ⟨ps ++ plain (.simple .dup :: ops) ++ .op (.jump kind l) :: (plain [.simple .drop] ++ qs),
      by simp⟩
  refine (hps hcode hx).trans ((Reaches.ops hops hx).trans ?_)
  refine .of_advance (advance_branch hkind (Nat.le_succ_of_le hx)) ?_
  rw [goTo_label hnodup hlabel]
  exact mem_cons_self

/-- `Passes` counts, so it holds of the code of expressions that have values. -/
theorem Counts.passes (hnodup : (labelsIn (ownCode code)).Nodup) : Counts (Passes floor code) where
  nil := fun _ _ _ _ _ => .refl
  append := by
    intro ps qs count count' hps hqs x guards rest hcode hx
    rw [append_assoc] at hcode ⊢
    rw [← Nat.add_assoc]
    exact (hps hcode hx).trans
      (hqs ((suffix_append ps _).trans hcode) (Nat.le_add_right_of_le hx))
  work := by
    intro ps ops count count' hps hops x guards rest hcode hx
    rw [append_assoc] at hcode ⊢
    exact (hps hcode hx).trans (.ops hops hx)
  use := by
    intro ps symbol argCount isWanted ops ctx ctx' hps hparams huses x guards rest hcode hx
    rw [append_assoc] at hcode ⊢
    obtain ⟨effects, heffects, hafter⟩ := exists_effects hparams huses hx
    exact (hps hcode hx).trans (.of_advance (advance_work heffects hafter) mem_cons_self)
  shortCircuit hps _ op l := hps.guard hnodup op l _

end Walks

/-! ## Calls behind guards -/

/-- A call of a `Symbol`, behind any number of guards with values. -/
inductive GuardedCall (scope : Scope) : Expr → Symbol → Prop where
  | call {callee : Expr} {args : List Expr} {ty : Ty} {span : Span} {symbol : Symbol} :
    scope.callee? callee = some symbol → (∀ arg ∈ args, arg.HasValueIn scope) →
    GuardedCall scope (.call callee args ty span) symbol
  | guard {op : BinaryOp} {left right : Expr} {ty : Ty} {span : Span} {symbol : Symbol} :
    op.isShortCircuit = true → left.HasValueIn scope → GuardedCall scope right symbol →
    GuardedCall scope (.binary op left right ty span) symbol
  | paren {inner : Expr} {span : Span} {symbol : Symbol} :
    GuardedCall scope inner symbol → GuardedCall scope (.paren inner span) symbol

/-- The code of a guarded expression. -/
theorem ExprCode.of_guard {op : BinaryOp} {left right : Expr} {ty : Ty} {span : Span}
    {ctx ctx' : Context} {ps : List Piece}
    (h : ExprCode (.binary op left right ty span) ctx ps ctx')
    (hop : op.isShortCircuit = true) :
    ∃ ctx₁ qs rs, ExprCode left ctx qs ctx₁ ∧
      ExprCode right (ctx₁.withLabel (ctx₁.label + 1)) rs ctx' ∧
      ps = guardPieces op ctx₁.label qs rs := by
  cases h with
  | shortCircuit _ hleft hright => exact ⟨_, _, _, hleft, hright, rfl⟩
  | nullTest hnot => exact absurd hop (by simp [hnot])
  | operator hnot => exact absurd hop (by simp [hnot])

section Chains

variable {floor : Nat} {code : List Piece} {Ends : Point → Prop}

/-- A guarded call is `Safe` in front of code that is safe with the value of a guard, and with what
the call leaves. -/
theorem GuardedCall.safe (hnodup : (labelsIn (ownCode code)).Nodup) {scope : Scope} {e : Expr}
    {symbol : Symbol} (h : GuardedCall scope e symbol) {ctx ctx' : Context} {ps : List Piece}
    (hcode : ExprCode e ctx ps ctx') (hscope : ctx.scope = scope) {n x : Nat}
    {guards : List Guard} {rest : List Piece} (hsuffix : ps ++ rest <:+ code) (hx : floor ≤ x)
    (hraise : Safe floor code Ends n (raise code guards))
    (hdecided : Safe floor code Ends n ⟨.code rest, x + 1, guards⟩)
    (hcalled : Safe floor code Ends n
      ⟨.code rest, x + symbol.definition.returns.toNat, guards⟩) :
    Safe floor code Ends n ⟨.code (ps ++ rest), x, guards⟩ := by
  induction h generalizing ctx ctx' ps rest with
  | call hcallee hvalues =>
    subst hscope
    cases hcode with
    | call hcallee' hparams hargs huses =>
      cases hcallee.symm.trans hcallee'
      exact (hargs.counts (.leaves hnodup) (hargs.hasValue hvalues)).use hparams huses hsuffix hx
        hraise hcalled
  | guard hop hvalue _ ih =>
    subst hscope
    obtain ⟨ctx₁, qs, rs, hleft, hright, rfl⟩ := hcode.of_guard hop
    -- the label at the end is passed with whatever the guarded part leaves
    refine (hleft.leaves hnodup (hleft.hasValue hvalue)).guard hnodup hsuffix hx hraise hdecided
      fun hafter => ?_
    refine ih hright hleft.sameNames.scope_eq hafter ?_ ?_
    · exact .label (Nat.le_succ_of_le hx) hraise hdecided
    · exact .label (Nat.le_add_right_of_le hx) hraise hcalled
  | paren _ ih =>
    cases hcode with
    | paren hinner => exact ih hinner hscope hsuffix hdecided hcalled

end Chains

/-! ## Statements -/

section Discarded

variable {e left right : Expr} {op : BinaryOp} {ty : Ty} {span : Span} {ctx ctx' : Context}
  {ps : List Piece}

/-- A guarded expression that stands as a statement is lowered for its value, which is dropped if
the expression has a type. -/
theorem DiscardedCode.of_guard (h : DiscardedCode e ctx ps ctx')
    (he : e.unparenthesized = .binary op left right ty span) :
    ∃ qs, ExprCode (.binary op left right ty span) ctx qs ctx' ∧
      ps = qs ++ plain (bif ty.isVoid then [] else [.simple .drop]) := by
  cases h with
  | assign heq => cases heq.symm.trans he
  | call heq => cases heq.symm.trans he
  | value _ hvalue =>
    rw [he] at hvalue ⊢
    exact ⟨_, hvalue, rfl⟩

/-- Every walk through a guarded call that stands as a statement ends with as many values as before,
or with that of a guard above them if the call has none. -/
theorem GuardedCall.keepsStack {symbol : Symbol} (hguarded : GuardedCall ctx.scope
      (.binary op left right ty span) symbol)
    (he : e.unparenthesized = .binary op left right ty span)
    (hty : ty.isVoid = !symbol.definition.returns) (h : DiscardedCode e ctx ps ctx')
    (depth : Nat) :
    KeepsStack ps depth fun x => x.FinishesAt depth ∨
      symbol.definition.returns = false ∧ x.FinishesAt (depth + 1) := by
  refine keepsStack_of_safe fun n => ?_
  have hnodup := h.fresh.nodup
  obtain ⟨qs, hcode, rfl⟩ := h.of_guard he
  refine hguarded.safe hnodup hcode rfl (suffix_refl _) (Nat.le_refl depth)
    (.over rfl (.inl trivial)) ?_ ?_ <;> rw [hty]
  · cases hreturns : symbol.definition.returns with
    | true =>
      exact .work rfl (if_pos (Nat.le_refl _)) (.over rfl (.inl trivial))
        (.over rfl (.inl ⟨rfl, rfl⟩))
    | false => exact .over rfl (.inr ⟨rfl, rfl, rfl⟩)
  · cases hreturns : symbol.definition.returns with
    | true =>
      exact .work rfl (if_pos (Nat.le_refl _)) (.over rfl (.inl trivial))
        (.over rfl (.inl ⟨rfl, rfl⟩))
    | false => exact .over rfl (.inl ⟨rfl, rfl⟩)

/-- A guard whose value decides leaves it on the stack, if the type of the expression says that
there is none. -/
theorem not_keepsStack_of_void (he : e.unparenthesized = .binary op left right ty span)
    (hop : op.isShortCircuit = true) (hleft : left.HasValueIn ctx.scope) (hty : ty.isVoid = true)
    (h : DiscardedCode e ctx ps ctx') (depth : Nat) :
    ¬ KeepsStack ps depth (Point.FinishesAt depth) := by
  intro hkeeps
  have hnodup := h.fresh.nodup
  obtain ⟨qs, hcode, rfl⟩ := h.of_guard he
  obtain ⟨ctx₁, ls, rs, hls, -, rfl⟩ := hcode.of_guard hop
  rw [hty, cond_true] at hkeeps hnodup
  have hleaves : Passes depth _ ls 1 := hls.counts (.passes hnodup) (hls.hasValue hleft)
  have hend := hkeeps _ (hleaves.guard hnodup op ctx₁.label rs (suffix_refl _)
    (Nat.le_refl depth))
  -- the walk is over, one value too deep
  exact absurd (hend.2 rfl).1 (Nat.succ_ne_self depth)

end Discarded

/-- What `lowerDiscarded` adds to the code for a `GuardedCall` is code of that construct. If its
type says that there is no value exactly where the call has none, every walk through the code takes
none of the values that it finds, and ends with as many, or with that of a guard above them if the
call has no value. So `KeepsStack` holds exactly if the call has a value. -/
theorem guarded_call_keeps_stack_iff (s s' : LowerState) (e left right : Expr) (op : BinaryOp)
    (ty : Ty) (span : Span) (symbol : Symbol)
    (he : e.unparenthesized = .binary op left right ty span) (hop : op.isShortCircuit = true)
    (hleft : left.HasValueIn s.scope) (hright : GuardedCall s.scope right symbol)
    (hty : ty.isVoid = !symbol.definition.returns) (h : lowerDiscarded e s = .ok () s') :
    (∃ ps, DiscardedCode e s.context ps s'.context ∧
      s'.draft.code = s.draft.code ++ codeOf ps) ∧
    ∀ ps, DiscardedCode e s.context ps s'.context → ∀ depth,
      (KeepsStack ps depth fun x => x.FinishesAt depth ∨
        symbol.definition.returns = false ∧ x.FinishesAt (depth + 1)) ∧
      (KeepsStack ps depth (Point.FinishesAt depth) ↔ symbol.definition.returns = true) := by
  refine ⟨?_, fun ps hcode depth => ?_⟩
  · obtain ⟨ps, hcode, hwrites⟩ := lowerDiscarded_code h
    exact ⟨ps, hcode, hwrites.code_eq⟩
  · have hguarded : GuardedCall s.context.scope (.binary op left right ty span) symbol :=
      .guard hop hleft hright
    have hkeeps := hguarded.keepsStack he hty hcode depth
    refine ⟨hkeeps, fun hstack => ?_, fun hreturns x hx => ?_⟩
    · by_contra hvoid
      rw [Bool.not_eq_true] at hvoid
      rw [hvoid] at hty
      exact not_keepsStack_of_void he hop hleft hty hcode depth hstack
    · obtain ⟨hsome, hends⟩ := hkeeps x hx
      refine ⟨hsome, fun hover => ?_⟩
      rcases hends hover with hdone | ⟨hvoid, -⟩
      · exact hdone
      · rw [hreturns] at hvoid
        cases hvoid

/-- An expression on the right of `true`. -/
def behindTrue (op : BinaryOp) (right : Expr) (ty : Ty) : Expr :=
  .binary op (.literal (.bool true) .boolean {}) right ty {}

theorem guarded_call_keeps_stack_iff_calling :
    ∃ s' ps, lowerDiscarded (behindTrue .logicalAnd
        (.paren (behindTrue .nullish (calling 1) .integer) {}) .integer) callingState =
          .ok () s' ∧
      s'.draft.code = codeOf ps ∧ ∀ depth, KeepsStack ps depth (Point.FinishesAt depth) := by
  have hcall : GuardedCall callingState.scope (calling 1) calledSymbol :=
    .call rfl (forall_mem_singleton.mpr .literal)
  have hkeeps := guarded_call_keeps_stack_iff callingState _
    (behindTrue .logicalAnd (.paren (behindTrue .nullish (calling 1) .integer) {}) .integer)
    _ _ .logicalAnd .integer {} calledSymbol rfl rfl .literal (.paren (.guard rfl .literal hcall))
    rfl rfl
  obtain ⟨⟨ps, hcode, hops⟩, hall⟩ := hkeeps
  exact ⟨_, ps, rfl, hops, fun depth => (hall ps hcode depth).2.mpr rfl⟩

/-- A function without parameters, which returns no value. -/
def silentSymbol : Symbol := ⟨"f", 1, {}, .function 7 0 false⟩

def silentState : LowerState where
  draft := { id := 0, name := "test" }
  scope := { builtins := {}, rootFrame := ⟨1, "root", [silentSymbol]⟩, nextId := 2 }
  tokens := .empty

/-- A guarded call of the function, whose type says that there is no value. -/
def silentCall : Expr :=
  behindTrue .logicalAnd (.call (.ident ⟨"f", {}⟩ .void {}) [] .void {}) .void

theorem silent_call_leaves_guard :
    ∃ s' ps, lowerDiscarded silentCall silentState = .ok () s' ∧
      DiscardedCode silentCall silentState.context ps s'.context ∧
      s'.draft.code = codeOf ps ∧
      codeOf ps = [.pushBool true, .simple .dup, .jump .ifFalse 1, .simple .drop, .call 7,
        .label 1] ∧
      GuardedCall silentState.scope silentCall silentSymbol ∧
      silentCall.ty.isVoid = !silentSymbol.definition.returns ∧
      ¬ KeepsStack ps 0 (Point.FinishesAt 0) := by
  obtain ⟨ps, hcode, hwrites⟩ :=
    lowerDiscarded_code (show lowerDiscarded silentCall silentState = .ok () _ from rfl)
  have hops : codeOf ps = [.pushBool true, .simple .dup, .jump .ifFalse 1, .simple .drop, .call 7,
      .label 1] :=
    hwrites.code_eq.symm.trans rfl
  exact ⟨_, ps, rfl, hcode, hwrites.code_eq, hops,
    .guard rfl .literal (.call rfl (forall_mem_nil _)), rfl,
    not_keepsStack_of_void rfl rfl .literal rfl hcode 0⟩

end ContractScript
