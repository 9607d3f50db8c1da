import ContractScript.Proofs.Alike

/-!
# Two runs of lowering

The same source is lowered twice, in scopes that give the same meaning to every name and over token
tables of different pasts. The two runs go side by side: they write the same operations, but for
the indices of tokens, and they fail at the same place with the same fault.
-/

namespace ContractScript

variable {op : Operation} {s s' : LowerState} {ref : MethodRef} {span : Span}

/-! ## States side by side -/

/-- How the token tables of two runs, and their indices, go together. -/
structure TokenPairing where
  /-- Tables that go together. -/
  tables : TokenTable → TokenTable → Prop
  /-- Indices of two tables that go together. -/
  indices : TokenTable → TokenTable → Nat → Nat → Prop
  /-- Tables that need not go on together with another. -/
  spent : TokenTable → Prop
  mono : ∀ {t t' : TokenTable} (token : MethodToken) {i j : Nat},
    indices t t' i j → indices (t.add token).2 (t'.add token).2 i j
  /-- One addition to both tables keeps them together, unless it is refused. -/
  add : ∀ {t t' : TokenTable} (token : MethodToken), tables t t' →
    (∃ i j, (t.add token).1 = some i ∧ (t'.add token).1 = some j ∧
      tables (t.add token).2 (t'.add token).2 ∧ indices (t.add token).2 (t'.add token).2 i j) ∨
    ((t.add token).1 = none ∧ (t'.add token).1 = none) ∨
    ((t.add token).1 = none ∧ spent t) ∨ ((t'.add token).1 = none ∧ spent t')

namespace TokenPairing

/-- An `Operation` that goes together with itself, whatever the tables are. -/
def Plain (P : TokenPairing) (op : Operation) : Prop :=
  ∀ t t', op.Alike (P.indices t t') op

/-- Only operations that name a token differ between the runs. -/
theorem plain_of_namesToken {P : TokenPairing} (h : op.namesToken = false) : P.Plain op :=
  fun _ _ => .same h

end TokenPairing

/-- States that differ in the pasts of their tables only. -/
structure LowerState.Alike (P : TokenPairing) (s s' : LowerState) : Prop where
  draft : s.draft.Alike (P.indices s.tokens s'.tokens) s'.draft
  scope : s.scope.Alike P.Plain s'.scope
  tables : P.tables s.tokens s'.tokens

namespace Lower

/-- How two steps end side by side: both succeed or both fail with one fault, in states that are
alike. A step that fails over a spent table says nothing about the other. -/
inductive Ends (P : TokenPairing) {α : Type} (V : TokenTable → TokenTable → α → α → Prop) :
    EStateM.Result Diagnostic LowerState α → EStateM.Result Diagnostic LowerState α → Prop
  | ok {a b : α} {s s' : LowerState} (hv : V s.tokens s'.tokens a b) (hs : s.Alike P s') :
    Ends P V (.ok a s) (.ok b s')
  | error {e : Diagnostic} {s s' : LowerState} (hs : s.Alike P s') :
    Ends P V (.error e s) (.error e s')
  | spentLeft {e : Diagnostic} {s : LowerState} (h : P.spent s.tokens)
    (result' : EStateM.Result Diagnostic LowerState α) : Ends P V (.error e s) result'
  | spentRight {e : Diagnostic} {s' : LowerState} (h : P.spent s'.tokens)
    (result : EStateM.Result Diagnostic LowerState α) : Ends P V result (.error e s')

/-- Steps whose results are `Ends` of each other from all states that are `Alike`. -/
def Agree (P : TokenPairing) {α : Type} (V : α → α → Prop) (step step' : Lower α) : Prop :=
  ∀ s s', s.Alike P s' → Ends P (fun _ _ => V) (step s) (step' s')

/-- A step that has the same value in both runs. -/
abbrev Steady (P : TokenPairing) {α : Type} (step : Lower α) : Prop := Agree P Eq step step

variable {P : TokenPairing} {α β : Type} {V : α → α → Prop} {W : β → β → Prop}

/-! ## Steps in sequence -/

/-- Results that go together are followed by steps whose results do. -/
theorem Ends.bind {V : TokenTable → TokenTable → α → α → Prop}
    {W : TokenTable → TokenTable → β → β → Prop} {step step' : Lower α} {next next' : α → Lower β}
    (h : Ends P V (step s) (step' s'))
    (hnext : ∀ a b t t', V t.tokens t'.tokens a b → t.Alike P t' →
      Ends P W (next a t) (next' b t')) :
    Ends P W ((step >>= next) s) ((step' >>= next') s') := by
  cases hx : step s with
  | ok a t =>
    cases hy : step' s' with
    | ok b t' =>
      rw [hx, hy] at h
      rw [bind_of_ok hx, bind_of_ok hy]
      cases h with
      | ok hv ht => exact hnext a b t t' hv ht
    | error e t' =>
      rw [hx, hy] at h
      rw [bind_of_error hy]
      cases h with
      | spentRight hspent => exact .spentRight hspent _
  | error e t =>
    rw [hx] at h
    rw [bind_of_error hx]
    cases hy : step' s' with
    | ok b t' =>
      rw [hy] at h
      cases h with
      | spentLeft hspent => exact .spentLeft hspent _
    | error e' t' =>
      rw [hy] at h
      rw [bind_of_error hy]
      cases h with
      | error ht => exact .error ht
      | spentLeft hspent => exact .spentLeft hspent _
      | spentRight hspent => exact .spentRight hspent _

/-- `Ends.bind` for steps from all states. -/
theorem Agree.bind {step step' : Lower α} {next next' : α → Lower β} (hstep : Agree P V step step')
    (hnext : ∀ a b, V a b → Agree P W (next a) (next' b)) :
    Agree P W (step >>= next) (step' >>= next') :=
  fun s s' hs => (hstep s s' hs).bind fun a b t t' hv ht => hnext a b hv t t' ht

/-- What follows a `Steady` step has one value to go on with. -/
theorem Agree.next {step step' : Lower α} {next next' : α → Lower β}
    (hstep : Agree P Eq step step') (hnext : ∀ a, Agree P W (next a) (next' a)) :
    Agree P W (step >>= next) (step' >>= next') :=
  hstep.bind fun a _ heq => heq ▸ hnext a

theorem agree_pure {a b : α} (h : V a b) : Agree P V (pure a) (pure b) :=
  fun _ _ hs => .ok h hs

theorem steady_pure (a : α) : Steady P (pure a) := agree_pure rfl

theorem agree_throw (e : Diagnostic) : Agree P V (throw e) (throw e) :=
  fun _ _ hs => .error hs

theorem agree_fail (e : LoweringError) : Agree P V (fail e) (fail e) :=
  agree_throw _

/-- What follows from a look at the state is to agree for all states that are alike. -/
theorem agree_get {next next' : LowerState → Lower β}
    (h : ∀ s s', s.Alike P s' → Ends P (fun _ _ => W) (next s s) (next' s' s')) :
    Agree P W (get >>= next) (get >>= next') :=
  h

/-- `bracket` keeps two steps in agreement if `enter` and `leave` keep states `Alike`. -/
theorem Agree.bracket {body body' : Lower α} (h : Agree P V body body')
    {enter leave : LowerState → LowerState}
    (henter : ∀ s s', s.Alike P s' → (enter s).Alike P (enter s'))
    (hleave : ∀ s s', s.Alike P s' → (leave s).Alike P (leave s'))
    (htokens : ∀ s, (leave s).tokens = s.tokens) :
    Agree P V (bracket enter leave body) (bracket enter leave body') := by
  intro s s' hs
  have hends := h (enter s) (enter s') (henter s s' hs)
  unfold Lower.bracket
  generalize body (enter s) = result at hends ⊢
  generalize body' (enter s') = result' at hends ⊢
  cases hends with
  | ok hv ht => exact .ok hv (hleave _ _ ht)
  | error ht => exact .error (hleave _ _ ht)
  | spentLeft hspent => exact .spentLeft (by rw [htokens]; exact hspent) _
  | spentRight hspent => exact .spentRight (by rw [htokens]; exact hspent) _

/-! ## The draft -/

/-- Drafts that are alike are changed alike. -/
theorem steady_onDraft {f : Draft → Draft}
    (hf : ∀ {link : Nat → Nat → Prop} {d d'}, d.Alike link d' → (f d).Alike link (f d')) :
    Steady P (onDraft f) :=
  fun _ _ hs => .ok rfl ⟨hf hs.draft, hs.scope, hs.tables⟩

theorem steady_emitPlain (h : P.Plain op) : Steady P (emit op) :=
  fun s s' hs => .ok rfl ⟨hs.draft.emitAt (h s.tokens s'.tokens) none, hs.scope, hs.tables⟩

/-- An operation without a token is the same in both runs. -/
theorem steady_emit (h : op.namesToken = false) : Steady P (emit op) :=
  steady_emitPlain (TokenPairing.plain_of_namesToken h)

theorem steady_emitAt (h : op.namesToken = false) (span : Span) : Steady P (emitAt op span) :=
  steady_onDraft fun hd => hd.emitAt (.same h) (some span)

theorem steady_emitAll : ∀ {ops : List Operation}, (∀ op ∈ ops, P.Plain op) →
    Steady P (emitAll ops)
  | [], _ => steady_pure ()
  | _ :: _, h => (steady_emitPlain (h _ List.mem_cons_self)).next fun _ =>
    steady_emitAll fun op hop => h op (List.mem_cons_of_mem _ hop)

theorem steady_nest (f : Nesting → Nesting) : Steady P (nest f) :=
  steady_onDraft fun hd => hd.nest f

/-- `newLabel` draws the same label twice. -/
theorem steady_newLabel : Steady P newLabel := by
  intro s s' hs
  obtain ⟨ops, hdraft, hops⟩ := hs.draft
  have hcount : s'.draft.labelCount = s.draft.labelCount := by
    rw [hdraft]
  have hnext : s'.draft.newLabel.2 = { s.draft.newLabel.2 with ops := ops } := by
    rw [hdraft, Draft.newLabel, Draft.newLabel]
  exact .ok hcount.symm ⟨⟨ops, hnext, hops⟩, hs.scope, hs.tables⟩

theorem steady_position : Steady P position := by
  intro s s' hs
  obtain ⟨ops, hdraft, hops⟩ := hs.draft
  have hsize : s'.draft.ops.size = s.draft.ops.size := by
    rw [congrArg Draft.ops hdraft]
    exact hops.length_eq.symm
  exact .ok hsize.symm hs

/-- `markFrom` marks the same operations twice. -/
theorem Steady.markFrom {body : Lower Unit} (h : Steady P body) (span : Span) :
    Steady P (markFrom span body) :=
  steady_position.next fun start => h.next fun _ => steady_onDraft fun hd => hd.mark start span

/-- What is lowered between two changes of the `Nesting` is the same twice. -/
theorem Steady.nested {body : Lower α} (h : Steady P body) (enter leave : Nesting → Nesting) :
    Steady P (Lower.bracket (fun s => { s with draft := s.draft.nest enter })
      (fun s => { s with draft := s.draft.nest leave }) body) :=
  Agree.bracket h (fun _ _ hs => ⟨hs.draft.nest enter, hs.scope, hs.tables⟩)
    (fun _ _ hs => ⟨hs.draft.nest leave, hs.scope, hs.tables⟩) fun _ => rfl

theorem Steady.inLoop {body : Lower α} (h : Steady P body) (continueLabel breakLabel : Label) :
    Steady P (inLoop continueLabel breakLabel body) :=
  h.nested (·.enterLoop continueLabel breakLabel) (·.exitLoop)

theorem Steady.inTry {body : Lower α} (h : Steady P body) : Steady P (inTry body) :=
  h.nested (·.enterTry) (·.exitTry)

/-! ## The scope -/

/-- A scope of one name is opened in both runs. -/
theorem Steady.inScope {body : Lower α} (h : Steady P body) (name : String) :
    Steady P (inScope name body) :=
  Agree.bracket h (fun _ _ hs => ⟨hs.draft, hs.scope.enter name, hs.tables⟩)
    (fun _ _ hs => ⟨hs.draft, hs.scope.leave, hs.tables⟩) fun _ => rfl

/-- A name resolves to the same, or is unresolved, in both runs. -/
theorem agree_resolve (name : String) (span : Span) :
    Agree P (Symbol.Alike P.Plain) (resolve name span) (resolve name span) := by
  refine agree_get fun s s' hs => ?_
  have hfound := hs.scope.lookup name
  unfold Scope.resolve
  generalize s.scope.lookup name = found at hfound ⊢
  generalize s'.scope.lookup name = found' at hfound ⊢
  cases hfound with
  | some hsymbol => exact .ok hsymbol hs
  | none => exact .error hs

/-- `defineSlot` takes the same slot, or finds the name taken, in both runs. -/
theorem steady_defineSlot (name : String) (span : Span) (kind : SlotKind) (isMutable : Bool)
    {take : Draft → Nat × Draft}
    (htake : ∀ {link : Nat → Nat → Prop} {d d'}, d.Alike link d' →
      (take d).1 = (take d').1 ∧ (take d).2.Alike link (take d').2) :
    Steady P (defineSlot name span kind isMutable take) := by
  intro s s' hs
  rw [defineSlot_eq, defineSlot_eq, hs.scope.isTaken_eq name]
  obtain ⟨hindex, hdraft⟩ := htake hs.draft
  split
  · exact .error hs
  · rw [hindex]
    refine .ok rfl ⟨hdraft, hs.scope.push ⟨rfl, rfl, ?_⟩, hs.tables⟩
    exact List.forall_mem_nil _

theorem steady_defineParam (name : String) (span : Span) (ty : ParamType) :
    Steady P (defineParam name span ty) := by
  refine steady_defineSlot _ _ _ _ fun hd => ?_
  obtain ⟨ops, rfl, hops⟩ := hd
  exact ⟨rfl, ops, rfl, hops⟩

theorem steady_defineLocal (id : Ident) (ty : ParamType) (isMutable : Bool) :
    Steady P (defineLocal id ty isMutable) := by
  refine agree_get fun s s' hs => ?_
  have hsize : s'.draft.locals.size = s.draft.locals.size := by
    obtain ⟨ops, hdraft, -⟩ := hs.draft
    rw [congrArg Draft.locals hdraft]
  rw [hsize]
  refine ((steady_defineSlot _ _ _ _ fun hd => ?_).next fun _ => steady_pure _) s s' hs
  obtain ⟨ops, rfl, hops⟩ := hd
  exact ⟨rfl, ops, rfl, hops⟩

/-! ## Tokens -/

/-- `token` when there is an index for the reference. -/
theorem token_of_some {index : Nat} (h : (s.tokens.add ref.token).1 = some index) :
    token ref span s = .ok index { s with tokens := (s.tokens.add ref.token).2 } := by
  unfold token
  split
  · next index' tokens hadd =>
    rw [hadd] at h ⊢
    cases h
    rfl
  · next hadd =>
    rw [hadd] at h
    cases h

/-- `token` when the table is full. -/
theorem token_of_none (h : (s.tokens.add ref.token).1 = none) :
    token ref span s = .error (.encoding (.operandTooLarge s.draft.name "method token table"
      TokenTable.capacity (TokenTable.capacity - 1) (some span))) s := by
  unfold token
  split
  · next hadd =>
    rw [hadd] at h
    cases h
  · rfl

end Lower

open Lower

/-! ## Expressions -/

variable {P : TokenPairing}

/-- A token has an index in each table, and the pairing links the two. -/
theorem emitToken_agree (ref : MethodRef) (span : Span) :
    Steady P (emitToken ref span) := by
  intro s s' hs
  rcases P.add ref.token hs.tables with
    ⟨i, j, hi, hj, htables, hindices⟩ | ⟨hnone, hnone'⟩ | ⟨hnone, hspent⟩ | ⟨hnone, hspent⟩
  · rw [emitToken, bind_of_ok (token_of_some hi), bind_of_ok (token_of_some hj)]
    have hdraft := hs.draft.mono fun _ _ => P.mono ref.token
    exact .ok rfl ⟨hdraft.emitAt (.token hindices) none, hs.scope, htables⟩
  · have hname : s'.draft.name = s.draft.name := by
      obtain ⟨ops, hdraft, -⟩ := hs.draft
      rw [hdraft]
    rw [emitToken, bind_of_error (token_of_none hnone), bind_of_error (token_of_none hnone'),
      hname]
    exact .error hs
  · rw [emitToken, bind_of_error (token_of_none hnone)]
    exact .spentLeft hspent _
  · rw [emitToken, bind_of_error (token_of_none hnone) (s := s')]
    exact .spentRight hspent _

/-- `operatorOps?` looks at types only, so both runs write the same operations. -/
theorem emitOperator_agree (op : BinaryOp) (ty : Ty) (span : Span) :
    Steady P (emitOperator op ty span) := by
  unfold emitOperator
  split
  · next hops =>
    exact steady_emitAll fun o ho =>
      TokenPairing.plain_of_namesToken (namesToken_operatorOps? hops o ho)
  · exact agree_fail _

theorem emitShortCircuit_agree (op : BinaryOp) {right : Lower Unit} (hright : Steady P right) :
    Steady P (emitShortCircuit op right) := by
  have hrest : ∀ done, Steady P (do emitOpcode .drop; right; place done) := fun done =>
    (steady_emit rfl).next fun _ => hright.next fun _ => steady_emit rfl
  refine steady_newLabel.next fun done => (steady_emit rfl).next fun _ => ?_
  split
  · exact (steady_emit rfl).next fun _ => hrest done
  · exact (steady_emit rfl).next fun _ => hrest done
  · exact (steady_emit rfl).next fun _ => (steady_emit rfl).next fun _ => hrest done

theorem emitIdent_agree (id : Ident) (span : Span) : Steady P (emitIdent id span) := by
  refine (agree_resolve id.name span).bind fun symbol symbol' halike => ?_
  rw [← halike.name_eq, ← halike.definition_eq]
  split
  · exact steady_emit rfl
  · exact steady_emit (namesToken_push _)
  · exact agree_fail _

/-- A member is found in both runs or in neither. -/
theorem memberOf?_agree (object : Expr) (member : Ident) :
    Lower.Agree P (Option.Rel (Symbol.Alike P.Plain)) (memberOf? object member)
      (memberOf? object member) := by
  unfold memberOf?
  split
  · next id _ _ _ =>
    refine agree_get fun s s' hs => ?_
    have hfound := hs.scope.lookup id.name
    generalize s.scope.lookup id.name = found at hfound ⊢
    generalize s'.scope.lookup id.name = found' at hfound ⊢
    cases hfound with
    | none => exact .ok .none hs
    | @some symbol symbol' halike =>
      obtain ⟨name, scope, span, d⟩ := symbol
      obtain ⟨name', scope', span', d'⟩ := symbol'
      obtain ⟨rfl, rfl, hplain⟩ := halike
      cases d with
      | object members =>
        dsimp only
        cases hmember : findSymbol members member.name with
        | none => exact .error hs
        | some symbol =>
          refine .ok (.some ⟨rfl, rfl, fun op hop => hplain op ?_⟩) hs
          exact mem_memberOps.mpr ⟨symbol, List.mem_of_find?_eq_some hmember, hop⟩
      | _ => exact .ok .none hs
  · exact agree_pure .none

theorem assignedSlot_agree (target : Expr) (span : Span) :
    Steady P (assignedSlot target span) := by
  unfold assignedSlot
  split
  · refine (agree_resolve _ _).bind fun symbol symbol' halike => ?_
    rw [← halike.name_eq, ← halike.definition_eq]
    split
    · exact steady_pure _
    all_goals exact agree_fail _
  · exact agree_fail _

/-- `emitAssign` finds one slot in both runs. -/
theorem emitAssign_agree (op : Option BinaryOp) (target : Expr) (span : Span) (keep : Bool)
    {value : Lower Unit} (hvalue : Steady P value) :
    Steady P (emitAssign op target span keep value) := by
  have hstore : ∀ kind index, Steady P (do
      if keep then emitOpcode .dup
      emit (.store kind index)) := by
    intro kind index
    cases keep with
    | true => exact (steady_emit rfl).next fun _ => steady_emit rfl
    | false => exact steady_emit rfl
  refine (assignedSlot_agree target span).next fun slot => ?_
  obtain ⟨kind, index⟩ := slot
  cases op with
  | none => exact hvalue.next fun _ => hstore kind index
  | some op =>
    have happly : Steady P (do
        emit (.load kind index)
        value
        emitOperator op target.ty span
        if keep then emitOpcode .dup
        emit (.store kind index)) :=
      (steady_emit rfl).next fun _ => hvalue.next fun _ =>
        (emitOperator_agree _ _ _).next fun _ => hstore kind index
    dsimp only
    split
    · -- a short-circuit operator is refused
      exact (agree_fail _).next fun _ => happly
    · exact happly

theorem resolveCallee_agree (callee : Expr) (span : Span) :
    Lower.Agree P (Symbol.Alike P.Plain) (resolveCallee callee span)
      (resolveCallee callee span) := by
  unfold resolveCallee
  dsimp only
  split
  · exact agree_resolve _ _
  · refine (memberOf?_agree _ _).bind fun found found' hfound => ?_
    cases hfound with
    | some halike => exact agree_pure halike
    | none => exact agree_fail _
  · exact agree_fail _

/-- `emitMember` finds the same property, or a length, in both runs. -/
theorem emitMember_agree (objectExpr : Expr) (member : Ident) (span : Span) {object : Lower Unit}
    (hobject : Steady P object) : Steady P (emitMember objectExpr member span object) := by
  refine (memberOf?_agree objectExpr member).bind fun found found' hfound => ?_
  cases hfound with
  | @some symbol symbol' halike =>
    have hplain := halike.plain
    dsimp only
    rw [← halike.name_eq, ← halike.definition_eq]
    cases hdefinition : symbol.definition with
    | host call =>
      rw [hdefinition] at hplain
      dsimp only
      split
      · exact steady_emitAll hplain
      · exact agree_fail _
    | method ref =>
      dsimp only
      split
      · exact emitToken_agree _ _
      · exact agree_fail _
    | _ => exact agree_fail _
  | none =>
    dsimp only
    split
    · exact hobject.next fun _ => steady_emit rfl
    · exact agree_fail _

/-- Symbols that stand for the same are called in the same way. -/
theorem emitInvocation_agree {symbol symbol' : Symbol} (h : Symbol.Alike P.Plain symbol symbol')
    (callee : Expr) (argCount : Nat) (span : Span) :
    Lower.Agree P Eq (emitInvocation symbol callee argCount span)
      (emitInvocation symbol' callee argCount span) := by
  have hplain := h.plain
  unfold emitInvocation
  rw [← h.name_eq, ← h.definition_eq]
  cases hdefinition : symbol.definition with
  | function id _ returns => exact (steady_emit rfl).next fun _ => steady_pure _
  | host call =>
    rw [hdefinition] at hplain
    exact (steady_emitAll hplain).next fun _ => steady_pure _
  | method ref => exact (emitToken_agree _ _).next fun _ => steady_pure _
  | event name _ =>
    refine (steady_emitAll fun op hop => ?_).next fun _ => steady_pure _
    refine TokenPairing.plain_of_namesToken ?_
    simp only [List.mem_cons, List.not_mem_nil, or_false] at hop
    rcases hop with rfl | rfl | rfl | rfl <;> rfl
  | _ => exact agree_fail _

theorem emitCall_agree (callee : Expr) (argCount : Nat) (span : Span) {args : Lower Unit}
    (hargs : Steady P args) : Steady P (emitCall callee argCount span args) := by
  refine (resolveCallee_agree callee span).bind fun symbol symbol' halike => ?_
  have hinvoke : Lower.Agree P Eq (do args; emitInvocation symbol callee argCount span)
      (do args; emitInvocation symbol' callee argCount span) :=
    hargs.next fun _ => emitInvocation_agree halike _ _ _
  rw [← halike.name_eq, ← halike.definition_eq]
  split
  · exact (agree_fail _).next fun _ => hinvoke
  · split
    · exact (agree_fail _).next fun _ => hinvoke
    · exact hinvoke

mutual

/-- An expression is lowered in the same way twice: `lowerExpr` is `Steady`. -/
theorem lowerExpr_agree (e : Expr) : Steady P (lowerExpr e) := by
  match e with
  | .literal _ _ _ => exact steady_emit (namesToken_push _)
  | .ident _ _ _ => exact emitIdent_agree _ _
  | .binary op left right _ _ =>
    have hleft := lowerExpr_agree left
    have hright := lowerExpr_agree right
    rw [lowerExpr]
    split
    · exact hleft.next fun _ => emitShortCircuit_agree op hright
    · split
      · -- a comparison with the null literal lowers the other side only
        have htest : Steady P (do
            emitOpcode .isNull
            if op == .notEqual then emitOpcode .not) := by
          refine (steady_emit rfl).next fun _ => ?_
          split
          · exact steady_emit rfl
          · exact steady_pure _
        dsimp only
        split
        · exact hleft.next fun _ => htest
        · exact hright.next fun _ => htest
      · exact hleft.next fun _ => hright.next fun _ => emitOperator_agree _ _ _
  | .unary op operand _ _ =>
    have hoperand := lowerExpr_agree operand
    rw [lowerExpr.eq_def]
    dsimp only
    split
    · exact steady_emit rfl
    · exact hoperand.next fun _ => steady_emitAll fun o ho =>
        TokenPairing.plain_of_namesToken (namesToken_unaryOps _ o ho)
  | .assign _ _ value _ => exact emitAssign_agree _ _ _ _ (lowerExpr_agree value)
  | .call _ args _ _ =>
    exact (emitCall_agree _ _ _ (lowerArgs_agree args)).next fun _ => steady_pure _
  | .member object _ _ _ => exact emitMember_agree _ _ _ (lowerExpr_agree object)
  | .paren inner _ => exact lowerExpr_agree inner
  | .other _ _ => exact agree_fail _

theorem lowerArgs_agree (args : List Expr) : Steady P (lowerArgs args) := by
  match args with
  | [] => exact steady_pure ()
  | arg :: rest => exact (lowerArgs_agree rest).next fun _ => lowerExpr_agree arg

end

/-- So is an expression that stands as a statement. -/
theorem lowerDiscarded_agree (e : Expr) : Steady P (lowerDiscarded e) := by
  have hdrop (leavesValue : Bool) :
      Steady P (if leavesValue then emitOpcode .drop else pure ()) := by
    split
    · exact steady_emit rfl
    · exact steady_pure _
  unfold lowerDiscarded
  dsimp only
  split
  · exact (emitAssign_agree _ _ _ _ (lowerExpr_agree _)).next fun _ => hdrop false
  · exact (emitCall_agree _ _ _ (lowerArgs_agree _)).next hdrop
  · exact (lowerExpr_agree _).next fun _ => hdrop _

/-! ## Statements -/

/-- An exit looks at the `Nesting` only, which is one in both runs. -/
theorem emitExit_agree (exit : Nesting → Except ExitError Exit) (keyword : String) (span : Span) :
    Steady P (emitExit exit keyword span) := by
  refine agree_get fun s s' hs => ?_
  have hnesting : s'.draft.nesting = s.draft.nesting := by
    obtain ⟨ops, hdraft, -⟩ := hs.draft
    rw [hdraft]
  rw [hnesting]
  cases exit s.draft.nesting with
  | ok e => exact steady_emit (namesToken_exit e) s s' hs
  | error e => exact .error hs

theorem lowerCondition_agree (condition : Expr) (target : Label) :
    Steady P (lowerCondition condition target) :=
  (Steady.markFrom (lowerExpr_agree condition) _).next fun _ => steady_emit rfl

/-- `lowerDeclaration` takes the same slot twice, before or after its value. -/
theorem lowerDeclaration_agree (id : Ident) (ty : Ty) (init : Option Expr) (isConst : Bool) :
    Steady P (lowerDeclaration id ty init isConst) := by
  cases init with
  | none => exact (steady_defineLocal _ _ _).next fun _ => steady_pure _
  | some value =>
    exact (lowerExpr_agree value).next fun _ =>
      (steady_defineLocal _ _ _).next fun _ => steady_emit rfl

theorem lowerReturn_agree (value : Option Expr) (span : Span) :
    Steady P (lowerReturn value span) := by
  cases value with
  | none =>
    rw [lowerReturn]
    exact emitExit_agree _ _ _
  | some v => exact (lowerExpr_agree v).next fun _ => emitExit_agree _ _ _

theorem bindException_agree : ∀ param, Steady P (bindException param)
  | none => steady_emit rfl
  | some _ => (steady_defineLocal _ _ _).next fun _ => steady_emit rfl

theorem labelFor_agree (part : Option (Lower Unit)) : Steady P (labelFor part) := by
  cases part with
  | none => exact steady_pure none
  | some _ => exact steady_newLabel.next fun l => steady_pure (some l)

theorem emitPart_agree (phase : TryPhase) {exit : Operation} (hexit : exit.namesToken = false)
    (l : Option Label) {part : Option (Lower Unit)} (hpart : ∀ body ∈ part, Steady P body) :
    Steady P (emitPart phase exit l part) := by
  unfold emitPart
  split
  · next l body =>
    exact (steady_emit rfl).next fun _ => (steady_nest _).next fun _ =>
      (hpart body rfl).next fun _ => steady_emit hexit
  · exact steady_pure ()

/-- `emitTry` draws the same labels for the parts that there are. -/
theorem emitTry_agree (span : Span) {body : Lower Unit} {handler finalizer : Option (Lower Unit)}
    (hbody : Steady P body) (hhandler : ∀ body ∈ handler, Steady P body)
    (hfinalizer : ∀ body ∈ finalizer, Steady P body) :
    Steady P (emitTry span body handler finalizer) := by
  refine (labelFor_agree handler).next fun _ => (labelFor_agree finalizer).next fun _ =>
    steady_newLabel.next fun _ => (steady_emitAt rfl _).next fun _ =>
    (Steady.inTry ?_).next fun _ => steady_emit rfl
  exact hbody.next fun _ => (steady_emit rfl).next fun _ =>
    (emitPart_agree _ rfl _ hhandler).next fun _ => emitPart_agree _ rfl _ hfinalizer

mutual

/-- A statement is lowered in the same way twice: `lowerStmt` is `Steady`. -/
theorem lowerStmt_agree (s : Stmt) : Steady P (lowerStmt s) := by
  match s with
  | .expr e _ => exact Steady.markFrom (lowerDiscarded_agree e) _
  | .declare _ _ _ _ _ => exact Steady.markFrom (lowerDeclaration_agree _ _ _ _) _
  | .return _ _ => exact Steady.markFrom (lowerReturn_agree _ _) _
  | .throw value _ =>
    exact Steady.markFrom ((lowerExpr_agree value).next fun _ => steady_emit rfl) _
  | .break _ => exact Steady.markFrom (emitExit_agree _ _ _) _
  | .continue _ => exact Steady.markFrom (emitExit_agree _ _ _) _
  | .block body => exact lowerBlock_agree body
  | .if condition thenBranch elseBranch _ =>
    have hthen := lowerStmt_agree thenBranch
    rw [lowerStmt]
    refine steady_newLabel.next fun elseLabel =>
      (lowerCondition_agree _ _).next fun _ => hthen.next fun _ => ?_
    match elseBranch with
    | none => exact steady_emit rfl
    | some branch =>
      have helse := lowerStmt_agree branch
      exact steady_newLabel.next fun _ => (steady_emit rfl).next fun _ =>
        (steady_emit rfl).next fun _ => helse.next fun _ => steady_emit rfl
  | .while condition body _ =>
    have hbody := lowerStmt_agree body
    exact steady_newLabel.next fun continueLabel => steady_newLabel.next fun breakLabel =>
      (steady_emit rfl).next fun _ => (lowerCondition_agree _ _).next fun _ =>
      (Steady.inLoop hbody continueLabel breakLabel).next fun _ =>
      (steady_emit rfl).next fun _ => steady_emit rfl
  | .try body handler finalizer _ =>
    rw [lowerStmt.eq_def]
    refine emitTry_agree _ (lowerBlock_agree body) ?_ ?_
    · match handler with
      | none => exact nofun
      | some clause =>
        have hclause := lowerHandler_agree clause
        exact fun _ hpart => Option.mem_some.mp hpart ▸ hclause
    · match finalizer with
      | none => exact nofun
      | some block =>
        have hblock := lowerBlock_agree block
        exact fun _ hpart => Option.mem_some.mp hpart ▸ hblock
  | .other _ _ => exact agree_fail _

theorem lowerStmts_agree (ss : List Stmt) : Steady P (lowerStmts ss) := by
  match ss with
  | [] => exact steady_pure ()
  | s :: rest => exact (lowerStmt_agree s).next fun _ => lowerStmts_agree rest

theorem lowerBlock_agree (b : Block) : Steady P (lowerBlock b) := by
  match b with
  | ⟨ss, _⟩ =>
    have hbody := lowerStmts_agree ss
    exact (steady_emitAt rfl _).next fun _ => (Steady.inScope hbody "block").next fun _ =>
      steady_emitAt rfl _

theorem lowerHandler_agree (c : CatchClause) : Steady P (lowerHandler c) := by
  match c with
  | ⟨param, body, _⟩ =>
    have hbody := lowerBlock_agree body
    exact Steady.inScope ((bindException_agree param).next fun _ => hbody) "catch"

end

/-! ## Functions -/

theorem defineParams_agree : ∀ params, Steady P (defineParams params)
  | [] => steady_pure ()
  | _ :: rest => (steady_defineParam _ _ _).next fun _ => defineParams_agree rest

/-- Routines whose operations go together over two tables. -/
def RoutinesAlike (P : TokenPairing) (t t' : TokenTable) (r r' : Routine) : Prop :=
  r.Alike (P.indices t t') r'

/-- `finishDraft` drops the same jumps, as no token is a jump. -/
theorem finishDraft_agree (hs : s.Alike P s') :
    Ends P (RoutinesAlike P) (finishDraft s) (finishDraft s') := by
  have hget : ∀ t : LowerState, (get : Lower LowerState) t = .ok t t := fun _ => rfl
  rw [finishDraft, bind_of_ok (hget s), bind_of_ok (hget s')]
  rcases hs.draft.finish with ⟨e, herror, herror'⟩ | ⟨r, r', hok, hok', hr⟩
  · rw [herror, herror']
    exact .error hs
  · rw [hok, hok']
    exact .ok hr hs

/-- `lowerFunction` makes routines that go together, or fails with one fault. -/
theorem lowerFunction_agree (decl : FunctionDecl) (hs : s.Alike P s') :
    Ends P (RoutinesAlike P) (lowerFunction decl s) (lowerFunction decl s') := by
  unfold lowerFunction
  refine (Steady.inScope ?_ decl.id.name s s' hs).bind fun _ _ t t' _ ht => ?_
  · refine (defineParams_agree _).next fun _ => ?_
    split
    · exact steady_pure ()
    · exact lowerBlock_agree _
  · refine (finishDraft_agree ht).bind fun r r' u u' hr hu => ?_
    obtain ⟨ops, rfl, hops⟩ := hr
    exact .ok ⟨ops, rfl, hops⟩ hu

/-- `lowerStatic` writes the initializer of a static variable in the same way twice. -/
theorem lowerStatic_agree (decl : StaticDecl) (index : Nat) :
    Steady P (lowerStatic decl index) := by
  unfold lowerStatic
  split
  · exact steady_pure ()
  · exact Steady.markFrom ((lowerExpr_agree _).next fun _ => steady_emit rfl) _

end ContractScript
