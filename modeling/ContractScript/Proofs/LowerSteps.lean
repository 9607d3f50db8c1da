import ContractScript.Lowering.Program

/-!
# What a step of lowering leaves behind

Lowering is one recursion over statements and expressions, built from a few steps on the draft,
the scope and the token table. What holds before and after each of those steps, and of the faults
that they end with (`Lower.Keeps`), holds of lowering as a whole. The laws that the steps have to
obey are those of expressions, of statements without declarations, of all statements and of
functions, each stronger than the one before.
-/

namespace ContractScript

variable {s s' s'' : LowerState} {e : Diagnostic} {enter leave : LowerState → LowerState}

/-- Change what encloses the position of the draft. -/
def LowerState.nest (s : LowerState) (f : Nesting → Nesting) : LowerState :=
  { s with draft := s.draft.nest f }

/-- Declare a local variable, in a slot that no variable had. -/
def LowerState.declare (s : LowerState) (id : Ident) (ty : ParamType) (isMutable : Bool) :
    LowerState :=
  { s with
    draft := (s.draft.addLocal ⟨id.name, ty⟩).2
    scope := s.scope.push
      ⟨id.name, s.scope.frame.id, id.span, .slot .local s.draft.locals.size isMutable⟩ }

theorem Nesting.exitTry_setPhase (n : Nesting) (phase : TryPhase) :
    (n.setPhase phase).exitTry = n.exitTry := by
  unfold setPhase
  split
  · rfl
  · next h =>
    unfold exitTry
    rw [h]
    rfl

namespace Lower

/-- The function that a `Draft` is for. -/
def owner (d : Draft) : FunctionId × String := (d.id, d.name)

/-- However a step ends, the states before and after it are related by `R`, and a fault satisfies
`E`. -/
def Keeps (R : LowerState → LowerState → Prop) (E : Diagnostic → Prop) {α : Type}
    (step : Lower α) : Prop :=
  ∀ s, (∀ a s', step s = .ok a s' → R s s') ∧ ∀ e s', step s = .error e s' → R s s' ∧ E e

/-- What the steps that `lowerExpr` is built from must keep. -/
structure ExprLaws (R : LowerState → LowerState → Prop) (E : Diagnostic → Prop) : Prop where
  refl : ∀ s, R s s
  trans : ∀ {s s' s''}, R s s' → R s' s'' → R s s''
  emit : ∀ s operation, R s { s with draft := s.draft.emit operation }
  newLabel : ∀ s, R s { s with draft := s.draft.newLabel.2 }
  token : ∀ s token, R s { s with tokens := (s.tokens.add token).2 }
  symbol : ∀ e, E (.symbol e)
  lowering : ∀ e, E (.lowering e)
  tooLarge : ∀ function what size max span,
    E (.encoding (.operandTooLarge function what size max span))

/-- What the steps that `lowerStmt` is built from must keep, declarations apart. What is opened is
closed again. -/
structure FrameLaws (R : LowerState → LowerState → Prop) (E : Diagnostic → Prop) : Prop
    extends ExprLaws R E where
  emitAt : ∀ s operation span, R s { s with draft := s.draft.emitAt operation span }
  marked : ∀ {s s'} span, R s s' →
    R s { s' with draft := s'.draft.mark s.draft.ops.size span }
  enclosed : ∀ {s s'} name, R { s with scope := s.scope.enter name } s' →
    R s { s' with scope := s'.scope.leave }
  looped : ∀ {s s'} continueLabel breakLabel, R (s.nest (·.enterLoop continueLabel breakLabel)) s' →
    R s (s'.nest (·.exitLoop))
  /-- What is kept does not depend on the innermost try statement. -/
  outside : ∀ {s s'}, R s s' → R (s.nest (·.exitTry)) (s'.nest (·.exitTry))

/-- What the steps that `lowerStmt` is built from must keep. -/
structure StmtLaws (R : LowerState → LowerState → Prop) (E : Diagnostic → Prop) : Prop
    extends FrameLaws R E where
  declared : ∀ s id ty isMutable, R s (s.declare id ty isMutable)

/-- What the steps that lowering is built from must keep. A draft stays that of its function. -/
structure Lawful (R : LowerState → LowerState → Prop) (E : Diagnostic → Prop) : Prop where
  refl : ∀ s, R s s
  trans : ∀ {s s' s''}, R s s' → R s' s'' → R s s''
  draft : ∀ s d, owner d = owner s.draft → R s { s with draft := d }
  push : ∀ s symbol, R s { s with scope := s.scope.push symbol }
  token : ∀ s token, R s { s with tokens := (s.tokens.add token).2 }
  enclosed : ∀ {s s'} name, R { s with scope := s.scope.enter name } s' →
    R s { s' with scope := s'.scope.leave }
  symbol : ∀ e, E (.symbol e)
  lowering : ∀ e, E (.lowering e)
  tooLarge : ∀ function what size max span,
    E (.encoding (.operandTooLarge function what size max span))

variable {R : LowerState → LowerState → Prop} {E : Diagnostic → Prop} {α β : Type}

theorem Lawful.define (h : Lawful R E) (s : LowerState) (d : Draft)
    (howner : owner d = owner s.draft) (symbol : Symbol) :
    R s { s with draft := d, scope := s.scope.push symbol } :=
  h.trans (h.draft s d howner) (h.push { s with draft := d } symbol)

theorem Lawful.nest (h : Lawful R E) (s : LowerState) (f : Nesting → Nesting) : R s (s.nest f) :=
  h.draft s (s.draft.nest f) rfl

/-- What may do anything to a draft may do what a statement does. -/
theorem Lawful.stmtLaws (h : Lawful R E) : StmtLaws R E where
  refl := h.refl
  trans := h.trans
  emit s _ := h.draft s _ rfl
  newLabel s := h.draft s _ rfl
  token := h.token
  symbol := h.symbol
  lowering := h.lowering
  tooLarge := h.tooLarge
  emitAt s _ _ := h.draft s _ rfl
  marked {_ s'} _ hr := h.trans hr (h.draft s' _ rfl)
  declared s _ _ _ := h.define s (s.draft.addLocal _).2 rfl _
  enclosed := h.enclosed
  looped {s s'} _ _ hr := h.trans (h.nest s _) (h.trans hr (h.nest s' _))
  outside {s s'} hr :=
    h.trans (h.draft (s.nest (·.exitTry)) s.draft rfl) (h.trans hr (h.nest s' _))

instance : Coe (FrameLaws R E) (ExprLaws R E) := ⟨FrameLaws.toExprLaws⟩

instance : Coe (StmtLaws R E) (FrameLaws R E) := ⟨StmtLaws.toFrameLaws⟩

instance : Coe (Lawful R E) (StmtLaws R E) := ⟨Lawful.stmtLaws⟩

/-! ## Steps in sequence -/

/-- `>>=` goes on after a step that succeeds. -/
theorem bind_of_ok {step : Lower α} {next : α → Lower β} {a : α} (h : step s = .ok a s') :
    (step >>= next) s = next a s' := by
  show EStateM.bind step next s = _
  unfold EStateM.bind
  rw [h]

theorem bind_of_error {step : Lower α} {next : α → Lower β} (h : step s = .error e s') :
    (step >>= next) s = .error e s' := by
  show EStateM.bind step next s = _
  unfold EStateM.bind
  rw [h]

/-- Two steps in a row succeed only if each of them does. -/
theorem exists_of_bind {step : Lower α} {next : α → Lower β} {b : β}
    (h : (step >>= next) s = .ok b s'') : ∃ a s', step s = .ok a s' ∧ next a s' = .ok b s'' := by
  cases hs : step s with
  | ok a s' => exact ⟨a, s', rfl, (bind_of_ok hs).symm.trans h⟩
  | error e s' =>
    rw [bind_of_error hs] at h
    cases h

/-- What follows a step that is known to succeed. -/
theorem next_of_bind {step : Lower α} {next : α → Lower β} {a : α} {b : β} (hs : step s = .ok a s')
    (h : (step >>= next) s = .ok b s'') : next a s' = .ok b s'' :=
  (bind_of_ok hs).symm.trans h

theorem bracket_of_ok {body : Lower α} {a : α} (h : body (enter s) = .ok a s') :
    bracket enter leave body s = .ok a (leave s') := by
  unfold bracket
  rw [h]

theorem bracket_of_error {body : Lower α} (h : body (enter s) = .error e s') :
    bracket enter leave body s = .error e (leave s') := by
  unfold bracket
  rw [h]

/-- `leave` runs after a body that succeeds. -/
theorem exists_of_bracket {body : Lower α} {a : α} (h : bracket enter leave body s = .ok a s'') :
    ∃ s', body (enter s) = .ok a s' ∧ s'' = leave s' := by
  cases hs : body (enter s) with
  | ok b s' =>
    rw [bracket_of_ok hs] at h
    cases h
    exact ⟨s', rfl, rfl⟩
  | error e s' =>
    rw [bracket_of_error hs] at h
    cases h

/-! ## What the steps keep -/

section

variable {result : EStateM.Result Diagnostic LowerState α}

/-- What `Keeps` asks of a step that succeeds. -/
theorem kept_of_ok {a : α} (hs : result = .ok a s') (hr : R s s') :
    (∀ b s'', result = .ok b s'' → R s s'') ∧ ∀ e s'', result = .error e s'' → R s s'' ∧ E e := by
  rw [hs]
  constructor
  · intro b s'' heq
    cases heq
    exact hr
  · intro e s'' heq
    cases heq

/-- What `Keeps` asks of a step that fails. -/
theorem kept_of_error (hs : result = .error e s') (h : R s s' ∧ E e) :
    (∀ a s'', result = .ok a s'' → R s s'') ∧ ∀ e s'', result = .error e s'' → R s s'' ∧ E e := by
  rw [hs]
  constructor
  · intro a s'' heq
    cases heq
  · intro e' s'' heq
    cases heq
    exact h

end

section

variable (h : ExprLaws R E)
include h

theorem keeps_pure (a : α) : Keeps R E (pure a : Lower α) := by
  intro s
  exact kept_of_ok rfl (h.refl s)

/-- `>>=` keeps what both steps keep, also when the first fails. -/
theorem Keeps.bind {step : Lower α} {next : α → Lower β} (hstep : Keeps R E step)
    (hnext : ∀ a, Keeps R E (next a)) : Keeps R E (step >>= next) := by
  intro s
  obtain ⟨hok, herror⟩ := hstep s
  cases hs : step s with
  | ok a s' =>
    rw [bind_of_ok hs]
    obtain ⟨hok', herror'⟩ := hnext a s'
    have hfirst := hok a s' hs
    refine ⟨fun b s'' heq => h.trans hfirst (hok' b s'' heq), fun e s'' heq => ?_⟩
    exact ⟨h.trans hfirst (herror' e s'' heq).1, (herror' e s'' heq).2⟩
  | error e s' => exact kept_of_error (bind_of_error hs) (herror e s' hs)

theorem keeps_throw (he : E e) : Keeps R E (throw e : Lower α) := by
  intro s
  exact kept_of_error rfl ⟨h.refl s, he⟩

theorem keeps_fail (e : LoweringError) : Keeps R E (fail e : Lower α) :=
  keeps_throw h (h.lowering e)

end

/-- A step that never fails. -/
theorem keeps_of_ok {step : Lower α} (hstep : ∀ s, ∃ a s', step s = .ok a s' ∧ R s s') :
    Keeps R E step := by
  intro s
  obtain ⟨a, s', hs, hr⟩ := hstep s
  exact kept_of_ok hs hr

theorem keeps_get (h : ExprLaws R E) : Keeps R E (get : Lower LowerState) :=
  keeps_of_ok fun s => ⟨s, s, rfl, h.refl s⟩

theorem keeps_emit (h : ExprLaws R E) (operation : Operation) : Keeps R E (emit operation) :=
  keeps_of_ok fun s => ⟨(), _, rfl, h.emit s operation⟩

theorem keeps_emitAt (h : FrameLaws R E) (operation : Operation) (span : Span) :
    Keeps R E (emitAt operation span) :=
  keeps_of_ok fun s => ⟨(), _, rfl, h.emitAt s operation span⟩

/-- `emitAll` is `emit` again and again. -/
theorem keeps_emitAll (h : ExprLaws R E) : ∀ ops, Keeps R E (emitAll ops)
  | [] => keeps_pure h ()
  | op :: ops => (keeps_emit h op).bind h fun _ => keeps_emitAll h ops

theorem keeps_newLabel (h : ExprLaws R E) : Keeps R E newLabel :=
  keeps_of_ok fun s => ⟨_, _, rfl, h.newLabel s⟩

/-- `markFrom` looks at the position, runs its body and marks an operation. -/
theorem Keeps.markFrom (h : FrameLaws R E) {body : Lower Unit} (hbody : Keeps R E body)
    (span : Span) : Keeps R E (markFrom span body) := by
  intro s
  have hposition : position s = .ok s.draft.ops.size s := rfl
  rw [Lower.markFrom, bind_of_ok hposition]
  obtain ⟨hok, herror⟩ := hbody s
  cases hs : body s with
  | ok a s' => exact kept_of_ok (bind_of_ok hs) (h.marked span (hok a s' hs))
  | error e s' => exact kept_of_error (bind_of_error hs) (herror e s' hs)

/-- What keeps a relation keeps a weaker one. -/
theorem Keeps.mono {R' : LowerState → LowerState → Prop} {step : Lower α} (hstep : Keeps R E step)
    (hr : ∀ {s s'}, R s s' → R' s s') : Keeps R' E step := by
  intro s
  obtain ⟨hok, herror⟩ := hstep s
  exact ⟨fun a s' hs => hr (hok a s' hs), fun e s' hs => (herror e s' hs).imp_left hr⟩

/-- What `bracket` keeps, its entry and exit are to keep around what its body keeps. -/
theorem Keeps.bracket {R' : LowerState → LowerState → Prop} {body : Lower α}
    (hbody : Keeps R' E body) {enter leave : LowerState → LowerState}
    (hbracket : ∀ s s', R' (enter s) s' → R s (leave s')) :
    Keeps R E (bracket enter leave body) := by
  intro s
  obtain ⟨hok, herror⟩ := hbody (enter s)
  cases hs : body (enter s) with
  | ok a s' => exact kept_of_ok (bracket_of_ok hs) (hbracket s s' (hok a s' hs))
  | error e s' =>
    exact kept_of_error (bracket_of_error hs)
      ⟨hbracket s s' (herror e s' hs).1, (herror e s' hs).2⟩

theorem Keeps.inLoop (h : FrameLaws R E) {body : Lower α} (hbody : Keeps R E body)
    (continueLabel breakLabel : Label) : Keeps R E (inLoop continueLabel breakLabel body) :=
  hbody.bracket fun _ _ hr => h.looped continueLabel breakLabel hr

theorem Keeps.inScope (h : FrameLaws R E) {body : Lower α} (hbody : Keeps R E body)
    (name : String) : Keeps R E (inScope name body) :=
  hbody.bracket fun _ _ hscope => h.enclosed name hscope

/-- What is kept around the innermost try statement, whose phase may change. -/
def Inside (R : LowerState → LowerState → Prop) (s s' : LowerState) : Prop :=
  R (s.nest (·.exitTry)) (s'.nest (·.exitTry))

/-- Expressions inside of a try statement keep what is kept around it. -/
theorem FrameLaws.inside (h : FrameLaws R E) : ExprLaws (Inside R) E where
  refl _ := h.refl _
  trans := h.trans
  emit s operation := h.outside (h.emit s operation)
  newLabel s := h.outside (h.newLabel s)
  token s token := h.outside (h.token s token)
  symbol := h.symbol
  lowering := h.lowering
  tooLarge := h.tooLarge

/-- `setPhase` changes nothing that `exitTry` leaves. -/
theorem keeps_setPhase (h : FrameLaws R E) (phase : TryPhase) :
    Keeps (Inside R) E (nest (·.setPhase phase)) := by
  refine keeps_of_ok fun s => ⟨(), _, rfl, ?_⟩
  have hsame : (s.nest (·.setPhase phase)).nest (·.exitTry) = s.nest (·.exitTry) := by
    simp only [LowerState.nest, Draft.nest, Nesting.exitTry_setPhase]
  exact cast (congrArg (R _) hsame.symm) (h.refl (s.nest (·.exitTry)))

theorem Keeps.inTry {body : Lower α} (hbody : Keeps (Inside R) E body) : Keeps R E (inTry body) :=
  hbody.bracket fun _ _ hr => hr

section

variable (h : ExprLaws R E)
include h

theorem keeps_ofSymbol (x : Except SymbolError α) : Keeps R E (ofSymbol x) := by
  cases x with
  | ok a => exact keeps_pure h a
  | error e => exact keeps_throw h (h.symbol e)

/-- `resolve` changes nothing, and its fault is one of symbols. -/
theorem keeps_resolve (name : String) (span : Span) : Keeps R E (resolve name span) :=
  (keeps_get h).bind h fun _ => keeps_ofSymbol h _

/-- `defineSlot` fails before it takes a slot. -/
theorem keeps_defineSlot (name : String) (span : Span) (kind : SlotKind) (isMutable : Bool)
    {take : Draft → Nat × Draft}
    (htake : ∀ s, R s { s with
      draft := (take s.draft).2
      scope := s.scope.push
        ⟨name, s.scope.frame.id, span, .slot kind (take s.draft).1 isMutable⟩ }) :
    Keeps R E (defineSlot name span kind isMutable take) := by
  intro s
  rw [defineSlot_eq]
  split
  · exact kept_of_error rfl ⟨h.refl s, h.symbol _⟩
  · exact kept_of_ok rfl (htake s)

end

theorem keeps_defineLocal (h : StmtLaws R E) (id : Ident) (ty : ParamType) (isMutable : Bool) :
    Keeps R E (defineLocal id ty isMutable) :=
  (keeps_get h).bind h fun _ =>
    (keeps_defineSlot h _ _ _ _ fun s => h.declared s id ty isMutable).bind h fun _ =>
      keeps_pure h _

/-- `token` adds to the table, or fails and leaves it. -/
theorem keeps_token (h : ExprLaws R E) (ref : MethodRef) (span : Span) :
    Keeps R E (token ref span) := by
  intro s
  have hadd := h.token s ref.token
  unfold token
  split
  · next heq =>
    rw [heq] at hadd
    exact kept_of_ok rfl hadd
  · exact kept_of_error rfl ⟨h.refl s, h.tooLarge _ _ _ _ _⟩

end Lower

open Lower

variable {R : LowerState → LowerState → Prop} {E : Diagnostic → Prop}

section Expressions

variable (h : ExprLaws R E)

include h

/-! ## Expressions -/

theorem emitOperator_keeps (op : BinaryOp) (ty : Ty) (span : Span) :
    Keeps R E (emitOperator op ty span) := by
  unfold emitOperator
  split
  · exact keeps_emitAll h _
  · exact keeps_fail h _

theorem emitShortCircuit_keeps (op : BinaryOp) {right : Lower Unit} (hright : Keeps R E right) :
    Keeps R E (emitShortCircuit op right) := by
  have hrest : ∀ done, Keeps R E (do emitOpcode .drop; right; place done) := fun done =>
    (keeps_emit h _).bind h fun _ => hright.bind h fun _ => keeps_emit h _
  refine (keeps_newLabel h).bind h fun done => (keeps_emit h _).bind h fun _ => ?_
  split
  · exact (keeps_emit h _).bind h fun _ => hrest done
  · exact (keeps_emit h _).bind h fun _ => hrest done
  · exact (keeps_emit h _).bind h fun _ => (keeps_emit h _).bind h fun _ => hrest done

theorem emitIdent_keeps (id : Ident) (span : Span) : Keeps R E (emitIdent id span) := by
  refine (keeps_resolve h _ _).bind h fun symbol => ?_
  split
  · exact keeps_emit h _
  · exact keeps_emit h _
  · exact keeps_fail h _

theorem memberOf?_keeps (object : Expr) (member : Ident) :
    Keeps R E (memberOf? object member) := by
  unfold memberOf?
  split
  · refine (keeps_get h).bind h fun s => ?_
    split
    · split
      · exact keeps_pure h _
      · exact keeps_throw h (h.symbol _)
    · exact keeps_pure h _
  · exact keeps_pure h _

theorem emitToken_keeps (ref : MethodRef) (span : Span) : Keeps R E (emitToken ref span) :=
  (keeps_token h ref span).bind h fun _ => keeps_emit h _

theorem emitMember_keeps (objectExpr : Expr) (member : Ident) (span : Span) {object : Lower Unit}
    (hobject : Keeps R E object) : Keeps R E (emitMember objectExpr member span object) := by
  refine (memberOf?_keeps h objectExpr member).bind h fun found => ?_
  split
  · split
    · split
      · exact keeps_emitAll h _
      · exact keeps_fail h _
    · split
      · exact emitToken_keeps h _ _
      · exact keeps_fail h _
    · exact keeps_fail h _
  · split
    · exact hobject.bind h fun _ => keeps_emit h _
    · exact keeps_fail h _

theorem assignedSlot_keeps (target : Expr) (span : Span) :
    Keeps R E (assignedSlot target span) := by
  unfold assignedSlot
  split
  · refine (keeps_resolve h _ _).bind h fun symbol => ?_
    split
    · exact keeps_pure h _
    all_goals exact keeps_fail h _
  · exact keeps_fail h _

/-- `emitAssign` loads, evaluates, combines and stores. -/
theorem emitAssign_keeps (op : Option BinaryOp) (target : Expr) (span : Span) (keep : Bool)
    {value : Lower Unit} (hvalue : Keeps R E value) :
    Keeps R E (emitAssign op target span keep value) := by
  have hstore : ∀ kind index, Keeps R E (do
      if keep then emitOpcode .dup
      emit (.store kind index)) := by
    intro kind index
    cases keep with
    | true => exact (keeps_emit h _).bind h fun _ => keeps_emit h _
    | false => exact keeps_emit h _
  refine (assignedSlot_keeps h target span).bind h fun slot => ?_
  obtain ⟨kind, index⟩ := slot
  cases op with
  | none => exact hvalue.bind h fun _ => hstore kind index
  | some op =>
    have happly : Keeps R E (do
        emit (.load kind index)
        value
        emitOperator op target.ty span
        if keep then emitOpcode .dup
        emit (.store kind index)) :=
      (keeps_emit h _).bind h fun _ => hvalue.bind h fun _ =>
        (emitOperator_keeps h _ _ _).bind h fun _ => hstore kind index
    dsimp only
    split
    · -- a short-circuit operator is refused
      exact (keeps_fail h _).bind h fun _ => happly
    · exact happly

theorem resolveCallee_keeps (callee : Expr) (span : Span) :
    Keeps R E (resolveCallee callee span) := by
  unfold resolveCallee
  dsimp only
  split
  · exact keeps_resolve h _ _
  · refine (memberOf?_keeps h _ _).bind h fun found => ?_
    split
    · exact keeps_pure h _
    · exact keeps_fail h _
  · exact keeps_fail h _

/-- Whatever a symbol stands for, `emitInvocation` emits or fails. -/
theorem emitInvocation_keeps (symbol : Symbol) (callee : Expr) (argCount : Nat) (span : Span) :
    Keeps R E (emitInvocation symbol callee argCount span) := by
  unfold emitInvocation
  split
  · exact (keeps_emit h _).bind h fun _ => keeps_pure h _
  · exact (keeps_emitAll h _).bind h fun _ => keeps_pure h _
  · exact (emitToken_keeps h _ _).bind h fun _ => keeps_pure h _
  · exact (keeps_emitAll h _).bind h fun _ => keeps_pure h _
  · exact keeps_fail h _

/-- `emitCall` resolves its callee before its arguments are lowered. -/
theorem emitCall_keeps (callee : Expr) (argCount : Nat) (span : Span) {args : Lower Unit}
    (hargs : Keeps R E args) : Keeps R E (emitCall callee argCount span args) := by
  refine (resolveCallee_keeps h callee span).bind h fun symbol => ?_
  have hinvoke : Keeps R E (do args; emitInvocation symbol callee argCount span) :=
    hargs.bind h fun _ => emitInvocation_keeps h _ _ _ _
  split
  · exact (keeps_fail h _).bind h fun _ => hinvoke
  · split
    · exact (keeps_fail h _).bind h fun _ => hinvoke
    · exact hinvoke

mutual

/-- `lowerExpr` keeps what its steps keep. -/
theorem lowerExpr_keeps (e : Expr) : Keeps R E (lowerExpr e) := by
  match e with
  | .literal _ _ _ => exact keeps_emit h _
  | .ident _ _ _ => exact emitIdent_keeps h _ _
  | .binary op left right _ _ =>
    have hleft := lowerExpr_keeps left
    have hright := lowerExpr_keeps right
    rw [lowerExpr]
    split
    · exact hleft.bind h fun _ => emitShortCircuit_keeps h op hright
    · split
      · -- a comparison with the null literal lowers the other side only
        have htest : Keeps R E (do
            emitOpcode .isNull
            if op == .notEqual then emitOpcode .not) := by
          refine (keeps_emit h _).bind h fun _ => ?_
          split
          · exact keeps_emit h _
          · exact keeps_pure h _
        dsimp only
        split
        · exact hleft.bind h fun _ => htest
        · exact hright.bind h fun _ => htest
      · exact hleft.bind h fun _ => hright.bind h fun _ => emitOperator_keeps h _ _ _
  | .unary op operand _ _ =>
    have hoperand := lowerExpr_keeps operand
    rw [lowerExpr.eq_def]
    dsimp only
    split
    · -- the minus of a literal is one push
      exact keeps_emit h _
    · exact hoperand.bind h fun _ => keeps_emitAll h _
  | .assign _ _ value _ => exact emitAssign_keeps h _ _ _ _ (lowerExpr_keeps value)
  | .call _ args _ _ =>
    exact (emitCall_keeps h _ _ _ (lowerArgs_keeps args)).bind h fun _ => keeps_pure h _
  | .member object _ _ _ => exact emitMember_keeps h _ _ _ (lowerExpr_keeps object)
  | .paren inner _ => exact lowerExpr_keeps inner
  | .other _ _ => exact keeps_fail h _

theorem lowerArgs_keeps (args : List Expr) : Keeps R E (lowerArgs args) := by
  match args with
  | [] => exact keeps_pure h ()
  | arg :: rest => exact (lowerArgs_keeps rest).bind h fun _ => lowerExpr_keeps arg

end

/-- So does `lowerDiscarded`, with or without a drop. -/
theorem lowerDiscarded_keeps (e : Expr) : Keeps R E (lowerDiscarded e) := by
  have hdrop (leavesValue : Bool) :
      Keeps R E (if leavesValue then emitOpcode .drop else pure ()) := by
    split
    · exact keeps_emit h _
    · exact keeps_pure h _
  unfold lowerDiscarded
  dsimp only
  split
  · exact (emitAssign_keeps h _ _ _ _ (lowerExpr_keeps h _)).bind h fun _ => hdrop false
  · exact (emitCall_keeps h _ _ _ (lowerArgs_keeps h _)).bind h hdrop
  · exact (lowerExpr_keeps h _).bind h fun _ => hdrop _

/-! ## Statements -/

/-- `emitExit` emits a jump, or fails outside of a loop. -/
theorem emitExit_keeps (exit : Nesting → Except ExitError Exit) (keyword : String) (span : Span) :
    Keeps R E (emitExit exit keyword span) := by
  refine (keeps_get h).bind h fun s => ?_
  split
  · exact keeps_emit h _
  · exact keeps_fail h _

theorem lowerReturn_keeps (value : Option Expr) (span : Span) :
    Keeps R E (lowerReturn value span) := by
  cases value with
  | none =>
    rw [lowerReturn]
    exact emitExit_keeps h _ _ _
  | some v => exact (lowerExpr_keeps h v).bind h fun _ => emitExit_keeps h _ _ _

theorem labelFor_keeps (part : Option (Lower Unit)) : Keeps R E (labelFor part) := by
  cases part with
  | none => exact keeps_pure h none
  | some _ => exact keeps_of_ok fun s => ⟨_, _, rfl, h.newLabel s⟩

/-- A part of a try statement is lowered after its phase is set. -/
theorem emitPart_keeps {phase : TryPhase} (hphase : Keeps R E (nest (·.setPhase phase)))
    (exit : Operation) (l : Option Label) {part : Option (Lower Unit)}
    (hpart : ∀ body ∈ part, Keeps R E body) : Keeps R E (emitPart phase exit l part) := by
  unfold emitPart
  split
  · next l body =>
    exact (keeps_emit h _).bind h fun _ => hphase.bind h fun _ =>
      (hpart body rfl).bind h fun _ => keeps_emit h _
  · exact keeps_pure h ()

end Expressions

section Frames

variable (h : FrameLaws R E)

include h

theorem lowerCondition_keeps (condition : Expr) (target : Label) :
    Keeps R E (lowerCondition condition target) :=
  ((lowerExpr_keeps h condition).markFrom h _).bind h fun _ => keeps_emit h _

/-- `emitTry` opens and closes its frame around what the parts keep inside. -/
theorem emitTry_keeps (span : Span) {body : Lower Unit} {handler finalizer : Option (Lower Unit)}
    (hbody : Keeps R E body) (hhandler : ∀ body ∈ handler, Keeps R E body)
    (hfinalizer : ∀ body ∈ finalizer, Keeps R E body) :
    Keeps R E (emitTry span body handler finalizer) := by
  have hpart (phase : TryPhase) (exit : Operation) (l : Option Label) {part : Option (Lower Unit)}
      (hpart : ∀ body ∈ part, Keeps R E body) : Keeps (Inside R) E (emitPart phase exit l part) :=
    emitPart_keeps h.inside (keeps_setPhase h phase) exit l fun body hbody =>
      (hpart body hbody).mono h.outside
  refine (labelFor_keeps h handler).bind h fun _ => (labelFor_keeps h finalizer).bind h fun _ =>
    (keeps_newLabel h).bind h fun _ => (keeps_emitAt h _ _).bind h fun _ =>
    (Keeps.inTry ?_).bind h fun _ => keeps_emit h _
  exact (hbody.mono h.outside).bind h.inside fun _ => (keeps_emit h.inside _).bind h.inside fun _ =>
    (hpart _ _ _ hhandler).bind h.inside fun _ => hpart _ _ _ hfinalizer

theorem lowerStatic_keeps (decl : StaticDecl) (index : Nat) :
    Keeps R E (lowerStatic decl index) := by
  unfold lowerStatic
  split
  · exact keeps_pure h ()
  · exact ((lowerExpr_keeps h _).bind h fun _ => keeps_emit h _).markFrom h _

/-- `lowerStatics` does not stop at a fault, and keeps it with the others. -/
theorem lowerStatics_keeps : ∀ (decls : List StaticDecl) (index : Nat) (s : LowerState),
    R s (lowerStatics decls index s).2 ∧ ∀ e ∈ (lowerStatics decls index s).1, E e
  | [], _, s => ⟨h.refl s, List.forall_mem_nil _⟩
  | decl :: rest, index, s => by
    obtain ⟨hok, herror⟩ := lowerStatic_keeps h decl index s
    rw [lowerStatics]
    split
    · next s' hstatic =>
      obtain ⟨hrest, hfaults⟩ := lowerStatics_keeps rest (index + 1) s'
      exact ⟨h.trans (hok _ s' hstatic) hrest, hfaults⟩
    · next e s' hstatic =>
      obtain ⟨hrest, hfaults⟩ := lowerStatics_keeps rest (index + 1) s'
      obtain ⟨hfirst, he⟩ := herror e s' hstatic
      exact ⟨h.trans hfirst hrest, List.forall_mem_cons.mpr ⟨he, hfaults⟩⟩

end Frames

section Statements

variable (h : StmtLaws R E)

include h

theorem lowerDeclaration_keeps (id : Ident) (ty : Ty) (init : Option Expr) (isConst : Bool) :
    Keeps R E (lowerDeclaration id ty init isConst) := by
  cases init with
  | none => exact (keeps_defineLocal h _ _ _).bind h fun _ => keeps_pure h _
  | some value =>
    exact (lowerExpr_keeps h value).bind h fun _ =>
      (keeps_defineLocal h _ _ _).bind h fun _ => keeps_emit h _

theorem bindException_keeps : ∀ param, Keeps R E (bindException param)
  | none => keeps_emit h _
  | some _ => (keeps_defineLocal h _ _ _).bind h fun _ => keeps_emit h _

mutual

/-- `lowerStmt` keeps what its steps keep. -/
theorem lowerStmt_keeps (s : Stmt) : Keeps R E (lowerStmt s) := by
  match s with
  | .expr e _ => exact (lowerDiscarded_keeps h e).markFrom h _
  | .declare _ _ _ _ _ => exact (lowerDeclaration_keeps h _ _ _ _).markFrom h _
  | .return _ _ => exact (lowerReturn_keeps h _ _).markFrom h _
  | .throw value _ =>
    exact ((lowerExpr_keeps h value).bind h fun _ => keeps_emit h _).markFrom h _
  | .break _ => exact (emitExit_keeps h _ _ _).markFrom h _
  | .continue _ => exact (emitExit_keeps h _ _ _).markFrom h _
  | .block body => exact lowerBlock_keeps body
  | .if condition thenBranch elseBranch _ =>
    have hthen := lowerStmt_keeps thenBranch
    rw [lowerStmt]
    refine (keeps_newLabel h).bind h fun elseLabel =>
      (lowerCondition_keeps h _ _).bind h fun _ => hthen.bind h fun _ => ?_
    match elseBranch with
    | none => exact keeps_emit h _
    | some branch =>
      have helse := lowerStmt_keeps branch
      exact (keeps_newLabel h).bind h fun _ => (keeps_emit h _).bind h fun _ =>
        (keeps_emit h _).bind h fun _ => helse.bind h fun _ => keeps_emit h _
  | .while condition body _ =>
    have hbody := lowerStmt_keeps body
    exact (keeps_newLabel h).bind h fun continueLabel => (keeps_newLabel h).bind h fun breakLabel =>
      (keeps_emit h _).bind h fun _ => (lowerCondition_keeps h _ _).bind h fun _ =>
      (hbody.inLoop h continueLabel breakLabel).bind h fun _ =>
      (keeps_emit h _).bind h fun _ => keeps_emit h _
  | .try body handler finalizer _ =>
    rw [lowerStmt.eq_def]
    refine emitTry_keeps h _ (lowerBlock_keeps body) ?_ ?_
    · match handler with
      | none => exact nofun
      | some clause =>
        have hclause := lowerHandler_keeps clause
        exact fun _ hpart => Option.mem_some.mp hpart ▸ hclause
    · match finalizer with
      | none => exact nofun
      | some block =>
        have hblock := lowerBlock_keeps block
        exact fun _ hpart => Option.mem_some.mp hpart ▸ hblock
  | .other _ _ => exact keeps_fail h _

theorem lowerStmts_keeps (ss : List Stmt) : Keeps R E (lowerStmts ss) := by
  match ss with
  | [] => exact keeps_pure h ()
  | s :: rest => exact (lowerStmt_keeps s).bind h fun _ => lowerStmts_keeps rest

theorem lowerBlock_keeps (b : Block) : Keeps R E (lowerBlock b) := by
  match b with
  | ⟨ss, _⟩ =>
    have hbody := lowerStmts_keeps ss
    exact (keeps_emitAt h _ _).bind h fun _ => (hbody.inScope h "block").bind h fun _ =>
      keeps_emitAt h _ _

theorem lowerHandler_keeps (c : CatchClause) : Keeps R E (lowerHandler c) := by
  match c with
  | ⟨param, body, _⟩ =>
    have hbody := lowerBlock_keeps body
    exact ((bindException_keeps h param).bind h fun _ => hbody).inScope h "catch"

end

end Statements

section Functions

variable (h : Lawful R E)

include h

/-! ## Functions -/

theorem defineParams_keeps : ∀ params, Keeps R E (defineParams params)
  | [] => keeps_pure h ()
  | _ :: rest =>
    (keeps_defineSlot h _ _ _ _ fun s => h.define s (s.draft.addParam _).2 rfl _).bind h fun _ =>
      defineParams_keeps rest

/-- `finishDraft` changes no state, and fails at a jump without target only. -/
theorem finishDraft_keeps
    (htarget : ∀ function what span, E (.encoding (.invalidTarget function what span))) :
    Keeps R E finishDraft := by
  refine (keeps_get h).bind h fun s => ?_
  cases hfinish : s.draft.finish with
  | ok r => exact keeps_pure h r
  | error e =>
    unfold Draft.finish at hfinish
    dsimp only at hfinish
    split at hfinish
    · cases hfinish
      exact keeps_throw h (htarget _ _ _)
    · cases hfinish

/-- Lowering the parameters and the body of a function keeps what its steps keep. -/
theorem lowerBody_keeps (decl : FunctionDecl) :
    Keeps R E (do
      defineParams decl.params
      match decl.body with
      | none => pure ()
      | some body => lowerBlock body) := by
  refine (defineParams_keeps h _).bind h fun _ => ?_
  split
  · exact keeps_pure h ()
  · exact lowerBlock_keeps h _

/-- `lowerFunction` keeps what its steps keep. -/
theorem lowerFunction_keeps
    (htarget : ∀ function what span, E (.encoding (.invalidTarget function what span)))
    (decl : FunctionDecl) : Keeps R E (lowerFunction decl) :=
  ((lowerBody_keeps h decl).inScope h _).bind h fun _ =>
    (finishDraft_keeps h htarget).bind h fun _ => keeps_pure h _

end Functions

/-- `finishDraft` gives the routine of the draft. -/
theorem finishDraft_eq_ok {r : Routine} (hr : finishDraft s = .ok r s') :
    s.draft.finish = .ok r ∧ s' = s := by
  have hrest := next_of_bind rfl hr
  cases hfinish : s.draft.finish with
  | ok routine =>
    rw [hfinish] at hrest
    cases hrest
    exact ⟨rfl, rfl⟩
  | error e =>
    rw [hfinish] at hrest
    cases hrest

/-- A function that is lowered has the code of a finished draft: that of its body. -/
theorem lowerFunction_eq_ok {decl : FunctionDecl} {s s' : LowerState} {r : Routine}
    (hr : lowerFunction decl s = .ok r s') :
    ∃ routine, s'.draft.finish = .ok routine ∧
      inScope decl.id.name (do
        defineParams decl.params
        match decl.body with
        | none => pure ()
        | some body => lowerBlock body) s = .ok () s' ∧
      r = { routine with
        returnType := ParamType.ofTy decl.returnType
        isExport := decl.isExport
        isSafe := decl.isMarkedSafe } := by
  obtain ⟨_, s₁, hbody, hrest⟩ := exists_of_bind hr
  obtain ⟨routine, s₂, hfinish, hlast⟩ := exists_of_bind hrest
  obtain ⟨hroutine, rfl⟩ := finishDraft_eq_ok hfinish
  cases hlast
  exact ⟨routine, hroutine, hbody, rfl⟩

end ContractScript
