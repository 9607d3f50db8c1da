import ContractScript.Proofs.LoweredProgram
import ContractScript.Proofs.Piecewise

/-!
# Lowering follows the rules of constructs

Whatever is lowered without a fault becomes the code that the rules of its constructs give, in the
context where it stands.
-/

namespace ContractScript

open List

variable {ps : List Piece} {op : Operation} {span : Span} {member id : Ident} {callee target : Expr}
  {symbol : Symbol} {scope : Scope} {ty : Ty} {index argCount : Nat} {ops : List Operation}
  {leavesValue : Bool} {body : Lower Unit} {part : Option (Lower Unit)}
  {handler : Option CatchClause} {finalizer : Option Block} {r : Routine} {decl : FunctionDecl}
  {name : String} {tokens : TokenTable}

open Lower

/-! ## What a step adds -/

/-- Operations are added to a draft, and labels are taken from it; nothing else changes. -/
structure Appends (s s' : LowerState) (code : List Operation) : Prop where
  code_eq : s'.draft.code = s.draft.code ++ code
  same : s' = { s with
    draft := { s.draft with ops := s'.draft.ops, labelCount := s'.draft.labelCount } }

namespace Appends

variable {s s' s'' : LowerState} {code code' : List Operation}

section

variable (h : Appends s s' code)
include h

theorem scope_eq : s'.scope = s.scope := by
  rw [h.same]

theorem nesting_eq : s'.draft.nesting = s.draft.nesting := by
  rw [h.same]

theorem params_eq : s'.draft.params = s.draft.params := by
  rw [h.same]

theorem locals_eq : s'.draft.locals = s.draft.locals := by
  rw [h.same]

end

theorem refl (s : LowerState) : Appends s s [] :=
  ⟨(append_nil _).symm, rfl⟩

theorem trans (h : Appends s s' code) (h' : Appends s' s'' code') :
    Appends s s'' (code ++ code') := by
  refine ⟨?_, ?_⟩
  · rw [h'.code_eq, h.code_eq, append_assoc]
  · conv => lhs; rw [h'.same, h.same]

variable (s)

theorem emit (op : Operation) : Appends s { s with draft := s.draft.emit op } [op] := by
  refine ⟨?_, rfl⟩
  show (s.draft.ops.push ⟨op, none⟩).toList.map Op.operation = _
  rw [Array.toList_push, map_append]
  rfl

theorem emitAt (op : Operation) (span : Span) :
    Appends s { s with draft := s.draft.emitAt op span } [op] := by
  refine ⟨?_, rfl⟩
  show (s.draft.ops.push ⟨op, some span⟩).toList.map Op.operation = _
  rw [Array.toList_push, map_append]
  rfl

theorem newLabel : Appends s { s with draft := s.draft.newLabel.2 } [] :=
  ⟨(append_nil _).symm, rfl⟩

end Appends

/-- Pieces of code are added to a draft. What encloses them is entered and left again. -/
structure Writes (s s' : LowerState) (pieces : List Piece) : Prop where
  code_eq : s'.draft.code = s.draft.code ++ codeOf pieces
  nesting_eq : s'.draft.nesting = s.draft.nesting

/-- What `Writes` pieces one after the other writes them in a row. -/
theorem Writes.trans {s s' s'' : LowerState} {qs : List Piece} (h : Writes s s' ps)
    (h' : Writes s' s'' qs) : Writes s s'' (ps ++ qs) where
  code_eq := by rw [h'.code_eq, h.code_eq, codeOf_append, append_assoc]
  nesting_eq := h'.nesting_eq.trans h.nesting_eq

/-- A step of lowering adds code that a rule gives. -/
def Follows (R : Nesting → Context → List Piece → Context → Prop) (step : Lower Unit) : Prop :=
  ∀ s s', step s = .ok () s' →
    ∃ ps, R s.draft.nesting s.context ps s'.context ∧ Writes s s' ps

namespace Appends

variable {s s' : LowerState} {code : List Operation}

/-- Operations that a draft `Appends` are pieces of their own. -/
theorem writes (h : Appends s s' code) : Writes s s' (plain code) where
  code_eq := by rw [codeOf_plain, h.code_eq]
  nesting_eq := h.nesting_eq

/-- `Appends` changes nothing of the context but the next label. -/
theorem context_eq (h : Appends s s' code) :
    s'.context = s.context.withLabel s'.draft.labelCount := by
  conv => lhs; rw [h.same]
  rfl

theorem context_same (h : Appends s s' code)
    (hcount : s'.draft.labelCount = s.draft.labelCount) : s'.context = s.context := by
  rw [h.context_eq, hcount]
  rfl

end Appends

variable {s s' : LowerState} {l : Label}

theorem emit_eq_ok (h : emit op s = .ok () s') : Appends s s' [op] ∧ s'.context = s.context := by
  cases h
  exact ⟨.emit s op, rfl⟩

theorem emitAt_eq_ok (h : emitAt op span s = .ok () s') :
    Appends s s' [op] ∧ s'.context = s.context := by
  cases h
  exact ⟨.emitAt s op span, rfl⟩

theorem place_eq_ok (h : place l s = .ok () s') :
    Appends s s' [.label l] ∧ s'.context = s.context := by
  cases h
  exact ⟨.emit s (.label l), rfl⟩

/-- `newLabel` takes the next label. -/
theorem newLabel_eq_ok (h : newLabel s = .ok l s') :
    l = s.context.label ∧ Appends s s' [] ∧ s'.context = s.context.withLabel (l + 1) := by
  cases h
  exact ⟨rfl, .newLabel s, rfl⟩

/-! ## Names -/

/-- `resolve` succeeds with what `lookup` finds. -/
theorem resolve_eq_ok {name : String} {symbol : Symbol} (h : resolve name span s = .ok symbol s') :
    s' = s ∧ s.scope.lookup name = some symbol := by
  have hsymbol := next_of_bind rfl h
  unfold Scope.resolve at hsymbol
  cases hlookup : s.scope.lookup name with
  | none =>
    rw [hlookup] at hsymbol
    cases hsymbol
  | some symbol' =>
    rw [hlookup] at hsymbol
    cases hsymbol
    exact ⟨rfl, rfl⟩

/-- `memberOf?` finds what `member?` says. -/
theorem memberOf?_eq_ok {object : Expr} {s s' : LowerState} {found : Option Symbol}
    (h : memberOf? object member s = .ok found s') :
    s' = s ∧ s.scope.member? object member.name = found := by
  unfold memberOf? at h
  unfold Scope.member?
  cases hobject : object.unparenthesized with
  | ident id ty span =>
    rw [hobject] at h
    have hrest := next_of_bind rfl h
    dsimp only
    cases hlookup : s.scope.lookup id.name with
    | none =>
      rw [hlookup] at hrest
      cases hrest
      exact ⟨rfl, rfl⟩
    | some symbol =>
      obtain ⟨name, owner, place, definition⟩ := symbol
      rw [hlookup] at hrest
      cases definition with
      | object members =>
        dsimp only at hrest ⊢
        cases hmember : findSymbol members member.name with
        | none =>
          rw [hmember] at hrest
          cases hrest
        | some symbol =>
          rw [hmember] at hrest
          cases hrest
          exact ⟨rfl, rfl⟩
      | _ =>
        cases hrest
        exact ⟨rfl, rfl⟩
  | _ =>
    rw [hobject] at h
    cases h
    exact ⟨rfl, rfl⟩

/-- `resolveCallee` succeeds with what `callee?` finds. -/
theorem resolveCallee_eq_ok {s s' : LowerState} (h : resolveCallee callee span s = .ok symbol s') :
    s' = s ∧ s.scope.callee? callee = some symbol := by
  unfold resolveCallee at h
  unfold Scope.callee?
  cases hcallee : callee.unparenthesized with
  | ident id ty idSpan =>
    rw [hcallee] at h
    exact resolve_eq_ok h
  | member object member ty memberSpan =>
    rw [hcallee] at h
    obtain ⟨found, _, hmember, hrest⟩ := exists_of_bind h
    obtain ⟨rfl, hfound⟩ := memberOf?_eq_ok hmember
    cases found with
    | none => cases hrest
    | some symbol' =>
      cases hrest
      exact ⟨rfl, hfound⟩
  | _ =>
    rw [hcallee] at h
    cases h

/-- `assignedSlot` succeeds with what `assigned?` finds. -/
theorem assignedSlot_eq_ok {kind : SlotKind} {s s' : LowerState}
    (h : assignedSlot target span s = .ok (kind, index) s') :
    s' = s ∧ s.scope.assigned? target = some (kind, index) := by
  unfold assignedSlot at h
  unfold Scope.assigned?
  cases htarget : target.unparenthesized with
  | ident id ty idSpan =>
    rw [htarget] at h
    obtain ⟨symbol, _, hresolve, hrest⟩ := exists_of_bind h
    obtain ⟨rfl, hlookup⟩ := resolve_eq_ok hresolve
    obtain ⟨name, owner, place, definition⟩ := symbol
    cases definition with
    | slot kind' index' isMutable =>
      cases isMutable with
      | true =>
        cases hrest
        dsimp only
        rw [hlookup]
        exact ⟨rfl, rfl⟩
      | false => cases hrest
    | _ => cases hrest
  | _ =>
    rw [htarget] at h
    cases h

/-! ## Operators and uses -/

variable {s s' : LowerState}

theorem emitAll_eq_ok {ops : List Operation} (h : emitAll ops s = .ok () s') :
    Appends s s' ops ∧ s'.draft.labelCount = s.draft.labelCount := by
  induction ops generalizing s with
  | nil =>
    cases h
    exact ⟨.refl _, rfl⟩
  | cons op ops ih =>
    have hrest := next_of_bind rfl h
    obtain ⟨happends, hcount⟩ := ih hrest
    exact ⟨(Appends.emit s op).trans happends, hcount⟩

/-- `emitOperator` emits the operations of `operatorOps?`. -/
theorem emitOperator_code {op : BinaryOp} (h : emitOperator op ty span s = .ok () s') :
    ∃ ops, operatorOps? op ty = some ops ∧ Writes s s' (plain ops) ∧ s'.context = s.context := by
  unfold emitOperator at h
  cases hops : operatorOps? op ty with
  | none =>
    rw [hops] at h
    cases h
  | some ops =>
    rw [hops] at h
    obtain ⟨happends, hcount⟩ := emitAll_eq_ok h
    exact ⟨ops, rfl, happends.writes, happends.context_same hcount⟩

/-- `emitToken` emits one call, whose token is in the table then. -/
theorem emitToken_code {ref : MethodRef} (h : emitToken ref span s = .ok () s') :
    ∃ ops, Uses (.method ref) argCount s.context ops s'.context ∧
      s'.draft.code = s.draft.code ++ ops ∧ s'.draft.nesting = s.draft.nesting := by
  obtain ⟨index, s₁, htoken, hemit⟩ := exists_of_bind h
  cases hemit
  unfold Lower.token at htoken
  split at htoken
  · next index' tokens hadd =>
    cases htoken
    have happends := Appends.emit { s with tokens := tokens } (.callToken index)
    exact ⟨_, .method hadd, happends.code_eq, happends.nesting_eq⟩
  · cases htoken

/-- What is emitted for the use of a symbol is one piece. -/
theorem Writes.use (hcode : s'.draft.code = s.draft.code ++ ops)
    (hnesting : s'.draft.nesting = s.draft.nesting) (symbol : Symbol) (argCount : Nat)
    (isWanted : Bool) : Writes s s' [.use symbol argCount isWanted ops] where
  code_eq := by rw [hcode, codeOf_cons, codeOf_nil, append_nil]; rfl
  nesting_eq := hnesting

theorem emitAll_uses (h : emitAll ops s = .ok () s') :
    s'.context = s.context ∧ s'.draft.code = s.draft.code ++ ops ∧
      s'.draft.nesting = s.draft.nesting := by
  obtain ⟨happends, hcount⟩ := emitAll_eq_ok h
  exact ⟨happends.context_same hcount, happends.code_eq, happends.nesting_eq⟩

/-- `emitInvocation` emits what `Uses` says, and leaves a value if the symbol returns one. -/
theorem emitInvocation_code
    (h : emitInvocation symbol callee argCount span s = .ok leavesValue s') :
    leavesValue = symbol.definition.returns ∧ ∃ ops,
      Uses symbol.definition argCount s.context ops s'.context ∧
      s'.draft.code = s.draft.code ++ ops ∧ s'.draft.nesting = s.draft.nesting := by
  unfold emitInvocation at h
  cases hdef : symbol.definition with
  | function id paramCount returns =>
    rw [hdef] at h
    obtain ⟨_, s₁, hemit, hpure⟩ := exists_of_bind h
    cases hemit
    cases hpure
    have happends := Appends.emit s (.call id)
    refine ⟨rfl, [.call id], ?_, happends.code_eq, rfl⟩
    rw [happends.context_same rfl]
    exact .function
  | host | event =>
    rw [hdef] at h
    obtain ⟨_, s₁, hemit, hpure⟩ := exists_of_bind h
    cases hpure
    obtain ⟨hcontext, hcode⟩ := emitAll_uses hemit
    rw [hcontext]
    exact ⟨rfl, _, by constructor, hcode⟩
  | method ref =>
    rw [hdef] at h
    obtain ⟨_, s₁, hemit, hpure⟩ := exists_of_bind h
    cases hpure
    exact ⟨rfl, emitToken_code hemit⟩
  | _ =>
    rw [hdef] at h
    cases h

/-- `emitCall` lowers the arguments and then uses the symbol of the callee. -/
theorem emitCall_code {args : Lower Unit}
    (h : emitCall callee argCount span args s = .ok leavesValue s') :
    ∃ symbol s₁ ops, s.scope.callee? callee = some symbol ∧
      symbol.definition.paramCount? = some argCount ∧ args s = .ok () s₁ ∧
      leavesValue = symbol.definition.returns ∧
      Uses symbol.definition argCount s₁.context ops s'.context ∧
      ∀ isWanted, Writes s₁ s' [.use symbol argCount isWanted ops] := by
  obtain ⟨symbol, _, hresolve, hrest⟩ := exists_of_bind h
  obtain ⟨rfl, hcallee⟩ := resolveCallee_eq_ok hresolve
  cases hcount : symbol.definition.paramCount? with
  | none =>
    rw [hcount] at hrest
    obtain ⟨_, _, hfail, _⟩ := exists_of_bind hrest
    cases hfail
  | some expected =>
    rw [hcount] at hrest
    dsimp only at hrest
    by_cases hne : expected ≠ argCount
    · rw [if_pos hne] at hrest
      obtain ⟨_, _, hfail, _⟩ := exists_of_bind hrest
      cases hfail
    · rw [if_neg hne] at hrest
      obtain ⟨_, s₁, hargs, hinvoke⟩ := exists_of_bind hrest
      obtain ⟨hreturns, ops, huses, hcode, hnesting⟩ := emitInvocation_code hinvoke
      exact ⟨symbol, s₁, ops, hcallee, hcount.trans (congrArg some (not_not.mp hne)), hargs,
        hreturns, huses, .use hcode hnesting symbol argCount⟩

/-- `emitMember` uses a property of an object, or takes the length of a value. -/
theorem emitMember_code {objectExpr : Expr} {object : Lower Unit}
    (h : emitMember objectExpr member span object s = .ok () s') :
    (∃ symbol ops, s.scope.member? objectExpr member.name = some symbol ∧
        symbol.definition.isProperty = true ∧
        Uses symbol.definition 0 s.context ops s'.context ∧
        Writes s s' [.use symbol 0 true ops]) ∨
      (s.scope.member? objectExpr member.name = none ∧ member.name = "length" ∧
        objectExpr.ty.hasLength = true ∧ ∃ s₁, object s = .ok () s₁ ∧
          Writes s₁ s' (plain [.simple .size]) ∧ s'.context = s₁.context) := by
  obtain ⟨found, _, hmember, hrest⟩ := exists_of_bind h
  obtain ⟨rfl, hfound⟩ := memberOf?_eq_ok hmember
  rw [hfound]
  cases found with
  | none =>
    dsimp only at hrest
    by_cases hlength : member.name = "length" ∧ objectExpr.ty.hasLength
    · rw [if_pos hlength] at hrest
      obtain ⟨_, s₁, hobject, hsize⟩ := exists_of_bind hrest
      cases hsize
      have happends := Appends.emit s₁ (.simple .size)
      exact .inr ⟨rfl, hlength.1, hlength.2, s₁, hobject, happends.writes,
        happends.context_same rfl⟩
    · rw [if_neg hlength] at hrest
      cases hrest
  | some symbol =>
    dsimp only at hrest
    cases hdef : symbol.definition with
    | host call =>
      rw [hdef] at hrest
      dsimp only at hrest
      by_cases hproperty : call.isProperty = true
      · rw [if_pos hproperty] at hrest
        obtain ⟨hcontext, hcode, hnesting⟩ := emitAll_uses hrest
        refine .inl ⟨symbol, call.ops, rfl, ?_, ?_, .use hcode hnesting symbol 0 true⟩
        · rw [hdef]
          exact hproperty
        · rw [hdef, hcontext]
          exact .host
      · rw [if_neg hproperty] at hrest
        cases hrest
    | method ref =>
      rw [hdef] at hrest
      dsimp only at hrest
      by_cases hproperty : ref.isProperty = true
      · rw [if_pos hproperty] at hrest
        obtain ⟨ops, huses, hcode, hnesting⟩ := emitToken_code hrest
        refine .inl ⟨symbol, ops, rfl, ?_, ?_, .use hcode hnesting symbol 0 true⟩
        · rw [hdef]
          exact hproperty
        · rw [hdef]
          exact huses
      · rw [if_neg hproperty] at hrest
        cases hrest
    | _ =>
      rw [hdef] at hrest
      cases hrest

theorem emitStore_code {keep : Bool} {kind : SlotKind} {index : Nat} {s s' : LowerState}
    (h : (do if keep then emitOpcode .dup
             emit (.store kind index) : Lower Unit) s = .ok () s') :
    Appends s s' (storeCode keep kind index) ∧ s'.context = s.context := by
  cases keep with
  | false =>
    cases h
    exact ⟨.emit s _, rfl⟩
  | true =>
    replace h := next_of_bind rfl h
    cases h
    exact ⟨(Appends.emit s _).trans (.emit _ _), rfl⟩

/-- `emitAssign` writes `assignPieces` around the value. -/
theorem emitAssign_code {op : Option BinaryOp} {keep : Bool} {value : Lower Unit}
    (h : emitAssign op target span keep value s = .ok () s') :
    ∃ kind index ops s₁ s₂, s.scope.assigned? target = some (kind, index) ∧
      Combines target.ty op ops ∧ value s₁ = .ok () s₂ ∧ s₁.context = s.context ∧
      s'.context = s₂.context ∧ ∀ {ps}, Writes s₁ s₂ ps →
        Writes s s' (assignPieces op keep kind index ps ops) := by
  obtain ⟨⟨kind, index⟩, _, hslot, hrest⟩ := exists_of_bind h
  obtain ⟨rfl, hassigned⟩ := assignedSlot_eq_ok hslot
  cases op with
  | none =>
    obtain ⟨_, s₃, hvalue, hstore⟩ := exists_of_bind hrest
    obtain ⟨hstored, hcontext⟩ := emitStore_code hstore
    refine ⟨kind, index, [], _, s₃, hassigned, rfl, hvalue, rfl, hcontext, fun hps => ?_⟩
    exact hps.trans hstored.writes
  | some op =>
    dsimp only at hrest
    split at hrest
    · obtain ⟨_, _, hfail, _⟩ := exists_of_bind hrest
      cases hfail
    · have hnext := next_of_bind rfl hrest
      obtain ⟨_, s₂, hvalue, hnext'⟩ := exists_of_bind hnext
      obtain ⟨_, s₃, hoperator, hstore⟩ := exists_of_bind hnext'
      obtain ⟨hstored, hcontext⟩ := emitStore_code hstore
      obtain ⟨ops, hops, happlied, hsame⟩ := emitOperator_code hoperator
      refine ⟨kind, index, ops, _, s₂, hassigned, hops, hvalue, rfl, hcontext.trans hsame,
        fun hps => ?_⟩
      have hall := ((Appends.emit _ (.load kind index)).writes.trans hps).trans
        (happlied.trans hstored.writes)
      rw [assignPieces, plain, plain, map_append]
      exact hall

/-- `emitShortCircuit` takes a label, jumps to it over the right operand and places it. -/
theorem emitShortCircuit_eq_ok {op : BinaryOp} {right : Lower Unit}
    (h : emitShortCircuit op right s = .ok () s') :
    ∃ s₁ s₂, right s₁ = .ok () s₂ ∧
      Appends s s₁
        (.simple .dup :: (decideCode op s.draft.labelCount ++ [Operation.simple .drop])) ∧
      s₁.draft.labelCount = s.draft.labelCount + 1 ∧
      Appends s₂ s' [.label s.draft.labelCount] ∧ s'.draft.labelCount = s₂.draft.labelCount := by
  replace h := next_of_bind rfl h
  replace h := next_of_bind rfl h
  -- what follows the test is the same for all operators
  have hrest : ∀ {t : LowerState},
      (do emitOpcode .drop; right; place s.draft.labelCount : Lower Unit) t = .ok () s' →
      ∃ s₁ s₂, right s₁ = .ok () s₂ ∧ Appends t s₁ [.simple .drop] ∧
        s₁.draft.labelCount = t.draft.labelCount ∧ Appends s₂ s' [.label s.draft.labelCount] ∧
        s'.draft.labelCount = s₂.draft.labelCount := by
    intro t ht
    have hnext := next_of_bind rfl ht
    obtain ⟨_, s₂, hright, hplace⟩ := exists_of_bind hnext
    cases hplace
    exact ⟨_, s₂, hright, .emit t _, rfl, .emit s₂ _, rfl⟩
  have hdup := (Appends.newLabel s).trans (Appends.emit _ (.simple .dup))
  cases op with
  | logicalAnd | logicalOr =>
    replace h := next_of_bind rfl h
    obtain ⟨s₁, s₂, hright, hdrop, hcount, hlast⟩ := hrest h
    exact ⟨s₁, s₂, hright, (hdup.trans (Appends.emit _ _)).trans hdrop, hcount, hlast⟩
  | _ =>
    replace h := next_of_bind rfl h
    replace h := next_of_bind rfl h
    obtain ⟨s₁, s₂, hright, hdrop, hcount, hlast⟩ := hrest h
    have htest := (hdup.trans (Appends.emit _ (.simple .isNull))).trans
      (Appends.emit _ (.jump .ifFalse s.draft.labelCount))
    exact ⟨s₁, s₂, hright, htest.trans hdrop, hcount, hlast⟩

theorem emitNullTest_code {op : BinaryOp} {operand : Lower Unit} {s s' : LowerState}
    (h : (do operand
             emitOpcode .isNull
             if op == .notEqual then emitOpcode .not : Lower Unit) s = .ok () s') :
    ∃ s₁, operand s = .ok () s₁ ∧ s'.context = s₁.context ∧ Writes s₁ s'
      (plain (.simple .isNull :: (bif op == .notEqual then [.simple .not] else []))) := by
  obtain ⟨_, s₁, hoperand, hnext⟩ := exists_of_bind h
  have hlast := next_of_bind rfl hnext
  refine ⟨s₁, hoperand, ?_⟩
  by_cases hop : (op == .notEqual) = true
  · rw [if_pos hop] at hlast
    cases hlast
    rw [hop]
    exact ⟨rfl, ((Appends.emit s₁ _).trans (.emit _ _)).writes⟩
  · rw [if_neg hop] at hlast
    cases hlast
    rw [Bool.eq_false_iff.mpr hop]
    exact ⟨rfl, (Appends.emit s₁ _).writes⟩

/-! ## Expressions -/

theorem lowerExpr_negated {operand : Expr} {value : Int} (h : operand.intLiteral? = some value)
    (ty : Ty) (span : Span) :
    lowerExpr (.unary .neg operand ty span) = emit (.pushInt (-value)) := by
  rw [lowerExpr.eq_def]
  dsimp only
  rw [h]

/-- `lowerExpr` of an operator that is not folded into a literal. -/
theorem lowerExpr_unary {op : UnaryOp} {operand : Expr}
    (h : op = .neg → operand.intLiteral? = none) (ty : Ty) (span : Span) :
    lowerExpr (.unary op operand ty span) = (do lowerExpr operand; emitAll op.ops) := by
  rw [lowerExpr.eq_def]
  dsimp only
  split
  · next value hvalue =>
    rw [h rfl] at hvalue
    cases hvalue
  · rfl

/-- The three ways to lower two operands are those of `ExprCode`. -/
theorem lowerBinary_code {op : BinaryOp} {left right : Expr} {s s' : LowerState}
    (hleft : Follows (fun _ => ExprCode left) (lowerExpr left))
    (hright : Follows (fun _ => ExprCode right) (lowerExpr right))
    (h : lowerExpr (.binary op left right ty span) s = .ok () s') :
    ∃ ps, ExprCode (.binary op left right ty span) s.context ps s'.context ∧ Writes s s' ps := by
  rw [lowerExpr] at h
  cases hcircuit : op.isShortCircuit with
  | true =>
    rw [if_pos hcircuit] at h
    obtain ⟨_, s₁, hleft', hnext⟩ := exists_of_bind h
    obtain ⟨s₂, s₃, hright', htest, hcount, hplace, hcount'⟩ := emitShortCircuit_eq_ok hnext
    obtain ⟨ps, hps, hwrites⟩ := hleft _ _ hleft'
    obtain ⟨qs, hqs, hwrites'⟩ := hright _ _ hright'
    rw [htest.context_eq, hcount] at hqs
    rw [hplace.context_same hcount']
    exact ⟨_, .shortCircuit hcircuit hps hqs,
      ((hwrites.trans htest.writes).trans hwrites').trans hplace.writes⟩
  | false =>
    rw [hcircuit, if_neg Bool.false_ne_true, ← BinaryOp.testsNull] at h
    cases hnull : op.testsNull left right with
    | true =>
      rw [if_pos hnull] at h
      by_cases hside : right.isNullLiteral = true
      · rw [if_pos hside] at h
        obtain ⟨s₁, hleft', hcontext, htest⟩ := emitNullTest_code h
        obtain ⟨ps, hps, hwrites⟩ := hleft _ _ hleft'
        rw [hcontext]
        exact ⟨_, .nullTest hcircuit hnull (if_pos hside).symm hps, hwrites.trans htest⟩
      · rw [if_neg hside] at h
        obtain ⟨s₁, hright', hcontext, htest⟩ := emitNullTest_code h
        obtain ⟨ps, hps, hwrites⟩ := hright _ _ hright'
        rw [hcontext]
        exact ⟨_, .nullTest hcircuit hnull (if_neg hside).symm hps, hwrites.trans htest⟩
    | false =>
      rw [hnull, if_neg Bool.false_ne_true] at h
      obtain ⟨_, s₁, hleft', hnext⟩ := exists_of_bind h
      obtain ⟨_, s₂, hright', hoperator⟩ := exists_of_bind hnext
      obtain ⟨ps, hps, hwrites⟩ := hleft _ _ hleft'
      obtain ⟨qs, hqs, hwrites'⟩ := hright _ _ hright'
      obtain ⟨ops, hops, happlied, hsame⟩ := emitOperator_code hoperator
      rw [hsame]
      exact ⟨_, .operator hcircuit hnull hps hqs hops, (hwrites.trans hwrites').trans happlied⟩

mutual

/-- `lowerExpr` writes the `ExprCode` of the expression. -/
theorem lowerExpr_code (e : Expr) {s s' : LowerState} (h : lowerExpr e s = .ok () s') :
    ∃ ps, ExprCode e s.context ps s'.context ∧ Writes s s' ps := by
  match e with
  | .literal value _ _ =>
    cases h
    exact ⟨_, .literal, (Appends.emit s _).writes⟩
  | .ident id _ _ =>
    obtain ⟨symbol, _, hresolve, hrest⟩ := exists_of_bind h
    obtain ⟨rfl, hlookup⟩ := resolve_eq_ok hresolve
    cases hdef : symbol.definition with
    | slot kind index isMutable =>
      rw [hdef] at hrest
      cases hrest
      exact ⟨_, .variable hlookup hdef, (Appends.emit _ _).writes⟩
    | constant value =>
      rw [hdef] at hrest
      cases hrest
      exact ⟨_, .constant hlookup hdef, (Appends.emit _ _).writes⟩
    | _ =>
      rw [hdef] at hrest
      cases hrest
  | .binary op left right _ span =>
    have hleft : Follows (fun _ => ExprCode left) (lowerExpr left) :=
      fun _ _ => lowerExpr_code left
    have hright : Follows (fun _ => ExprCode right) (lowerExpr right) :=
      fun _ _ => lowerExpr_code right
    exact lowerBinary_code hleft hright h
  | .unary op operand ty span =>
    by_cases hliteral : op = .neg ∧ operand.intLiteral?.isSome = true
    · obtain ⟨rfl, hsome⟩ := hliteral
      obtain ⟨value, hvalue⟩ := Option.isSome_iff_exists.mp hsome
      rw [lowerExpr_negated hvalue] at h
      cases h
      exact ⟨_, .negated hvalue, (Appends.emit s _).writes⟩
    · have hnone : op = .neg → operand.intLiteral? = none := fun hop =>
        Option.not_isSome_iff_eq_none.mp fun hsome => hliteral ⟨hop, hsome⟩
      rw [lowerExpr_unary hnone] at h
      obtain ⟨_, s₁, hoperand, hops⟩ := exists_of_bind h
      obtain ⟨ps, hps, hwrites⟩ := lowerExpr_code operand hoperand
      obtain ⟨happends, hcount⟩ := emitAll_eq_ok hops
      rw [happends.context_same hcount]
      exact ⟨_, .unary hnone hps, hwrites.trans happends.writes⟩
  | .assign op target value span =>
    obtain ⟨kind, index, ops, s₁, s₂, hassigned, hcombines, hvalue, hcontext, hcontext', hwrites⟩ :=
      emitAssign_code h
    obtain ⟨ps, hps, hwrites'⟩ := lowerExpr_code value hvalue
    rw [hcontext] at hps
    rw [hcontext']
    exact ⟨_, .assign hassigned hps hcombines, hwrites hwrites'⟩
  | .call callee args _ span =>
    obtain ⟨_, _, hcall, hpure⟩ := exists_of_bind h
    cases hpure
    obtain ⟨symbol, s₁, ops, hcallee, hcount, hargs, -, huses, hwrites⟩ := emitCall_code hcall
    obtain ⟨ps, hps, hwrites'⟩ := lowerArgs_code args hargs
    exact ⟨_, .call hcallee hcount hps huses, hwrites'.trans (hwrites true)⟩
  | .member object member _ span =>
    rcases emitMember_code h with ⟨symbol, ops, hmember, hproperty, huses, hwrites⟩ |
      ⟨hnone, hname, hlength, s₁, hobject, hwrites, hcontext⟩
    · exact ⟨_, .property hmember hproperty huses, hwrites⟩
    · obtain ⟨ps, hps, hwrites'⟩ := lowerExpr_code object hobject
      rw [hcontext]
      exact ⟨_, .length hnone hname hlength hps, hwrites'.trans hwrites⟩
  | .paren inner _ =>
    obtain ⟨ps, hps, hwrites⟩ := lowerExpr_code inner h
    exact ⟨ps, .paren hps, hwrites⟩
  | .other _ _ => cases h

theorem lowerArgs_code (args : List Expr) {s s' : LowerState} (h : lowerArgs args s = .ok () s') :
    ∃ ps, ArgsCode args s.context ps s'.context ∧ Writes s s' ps := by
  match args with
  | [] =>
    cases h
    exact ⟨[], .nil, (Appends.refl s).writes⟩
  | arg :: rest =>
    obtain ⟨_, s₁, hrest, harg⟩ := exists_of_bind h
    obtain ⟨ps, hps, hwrites⟩ := lowerArgs_code rest hrest
    obtain ⟨qs, hqs, hwrites'⟩ := lowerExpr_code arg harg
    exact ⟨_, .cons hps hqs, hwrites.trans hwrites'⟩

end

theorem emitDrop_code {leavesValue : Bool} {s s' : LowerState}
    (h : (do if leavesValue then emitOpcode .drop : Lower Unit) s = .ok () s') :
    s'.context = s.context ∧
      Writes s s' (plain (bif leavesValue then [.simple .drop] else [])) := by
  cases leavesValue with
  | false =>
    cases h
    exact ⟨rfl, (Appends.refl s).writes⟩
  | true =>
    cases h
    exact ⟨rfl, (Appends.emit s _).writes⟩

/-- `lowerDiscarded` writes the `DiscardedCode` of the expression. -/
theorem lowerDiscarded_code {e : Expr} {s s' : LowerState} (h : lowerDiscarded e s = .ok () s') :
    ∃ ps, DiscardedCode e s.context ps s'.context ∧ Writes s s' ps := by
  unfold lowerDiscarded at h
  cases he : e.unparenthesized with
  | assign op target value span =>
    rw [he] at h
    obtain ⟨_, _, hassign, hlast⟩ := exists_of_bind h
    cases hlast
    obtain ⟨kind, index, ops, s₁, s₂, hassigned, hcombines, hvalue, hcontext, hcontext',
      hwrites⟩ := emitAssign_code hassign
    obtain ⟨ps, hps, hwrites'⟩ := lowerExpr_code value hvalue
    rw [hcontext] at hps
    rw [hcontext']
    exact ⟨_, .assign he hassigned hps hcombines, hwrites hwrites'⟩
  | call callee args ty span =>
    rw [he] at h
    obtain ⟨leavesValue, s₂, hcall, hdrop⟩ := exists_of_bind h
    obtain ⟨symbol, s₁, ops, hcallee, hcount, hargs, rfl, huses, hwrites⟩ := emitCall_code hcall
    obtain ⟨ps, hps, hwrites'⟩ := lowerArgs_code args hargs
    obtain ⟨hcontext, hdropped⟩ := emitDrop_code hdrop
    rw [hcontext]
    exact ⟨_, .call he hcallee hcount hps huses, (hwrites'.trans (hwrites false)).trans hdropped⟩
  | _ =>
    rw [he] at h
    obtain ⟨_, s₁, hvalue, hdrop⟩ := exists_of_bind h
    rw [← he] at hvalue hdrop
    obtain ⟨ps, hps, hwrites⟩ := lowerExpr_code _ hvalue
    obtain ⟨hcontext, hdropped⟩ := emitDrop_code hdrop
    rw [Bool.cond_not] at hdropped
    rw [hcontext]
    exact ⟨_, .value (by rw [he]; rfl) hps, hwrites.trans hdropped⟩

/-! ## Steps of statements -/

variable {s s' : LowerState}

/-- `defineLocal` takes the next slot for a name that is free. -/
theorem defineLocal_code {ty : ParamType} {isMutable : Bool}
    (h : defineLocal id ty isMutable s = .ok index s') :
    index = s.draft.locals.size ∧ s.scope.isTaken id.name = false ∧
      s'.context = s.context.declareLocal id ty isMutable ∧ Writes s s' [] := by
  have hrest := next_of_bind rfl h
  obtain ⟨_, s₁, hdefine, hpure⟩ := exists_of_bind hrest
  cases hpure
  rw [defineSlot_eq] at hdefine
  cases htaken : s.scope.isTaken id.name with
  | true =>
    rw [htaken] at hdefine
    cases hdefine
  | false =>
    rw [htaken] at hdefine
    cases hdefine
    exact ⟨rfl, rfl, rfl, (append_nil _).symm, rfl⟩

/-- `markFrom` adds no code of its own. -/
theorem markFrom_code (h : markFrom span body s = .ok () s') :
    ∃ s₁, body s = .ok () s₁ ∧ s'.context = s₁.context ∧
      ∀ {ps}, Writes s s₁ ps → Writes s s' ps := by
  obtain ⟨s₁, hbody, rfl⟩ := exists_of_markFrom h
  refine ⟨s₁, hbody, rfl, fun hps => ⟨?_, hps.nesting_eq⟩⟩
  exact (Draft.code_mark _ _ _).trans hps.code_eq

theorem emitExit_code {exit : Nesting → Except ExitError Exit} {keyword : String}
    (h : emitExit exit keyword span s = .ok () s') :
    ∃ e, exit s.draft.nesting = .ok e ∧ s'.context = s.context ∧ Appends s s' [e.operation] := by
  obtain ⟨e, hexit, rfl⟩ := exists_of_emitExit h
  exact ⟨e, hexit, rfl, .emit s _⟩

theorem Appends.leave {operation : Operation} (h : Appends s s' [operation]) (hasValue : Bool) :
    Writes s s' [.leave hasValue operation] where
  code_eq := h.code_eq
  nesting_eq := h.nesting_eq

/-- `lowerCondition` jumps over what follows if the value is false. -/
theorem lowerCondition_code {condition : Expr} {target : Label}
    (h : lowerCondition condition target s = .ok () s') :
    ∃ ps, ExprCode condition s.context ps s'.context ∧
      Writes s s' (ps ++ plain [.jump .ifFalse target]) := by
  obtain ⟨_, s₁, hmark, hjump⟩ := exists_of_bind h
  cases hjump
  obtain ⟨s₂, hcondition, hcontext, hwrites⟩ := markFrom_code hmark
  obtain ⟨ps, hps, hwrites'⟩ := lowerExpr_code condition hcondition
  refine ⟨ps, ?_, (hwrites hwrites').trans (Appends.emit s₁ _).writes⟩
  rw [← hcontext] at hps
  exact hps

theorem bindException_code {param : Option Ident} (h : bindException param s = .ok () s') :
    ∃ ops, BindsException param s.context ops s'.context ∧ Writes s s' (plain ops) := by
  cases param with
  | none =>
    cases h
    exact ⟨_, .drop, (Appends.emit s _).writes⟩
  | some id =>
    obtain ⟨index, s₁, hdefine, hstore⟩ := exists_of_bind h
    cases hstore
    obtain ⟨rfl, hfree, hcontext, hwrites⟩ := defineLocal_code hdefine
    refine ⟨_, ?_, hwrites.trans (Appends.emit s₁ _).writes⟩
    show BindsException (some id) s.context _ s₁.context
    rw [hcontext]
    exact .keep hfree

/-! ## Try statements -/

variable {s s' : LowerState} {l : Option Label}

/-- `labelFor` takes the label that `partLabel` gives. -/
theorem labelFor_eq_ok (h : labelFor part s = .ok l s') :
    partLabel part.isSome s.draft.labelCount = (l, s'.draft.labelCount) ∧ Appends s s' [] := by
  cases part with
  | none =>
    cases h
    exact ⟨rfl, .refl s⟩
  | some step =>
    cases h
    exact ⟨rfl, .newLabel s⟩

/-- A part of a try statement is absent, or it is lowered at its label in its phase. -/
theorem emitPart_eq_ok {phase : TryPhase} {exit : Operation} (hlabel : part.isSome = l.isSome)
    (h : emitPart phase exit l part s = .ok () s') :
    (l = none ∧ part = none ∧ s' = s) ∨ ∃ label step s₁, l = some label ∧ part = some step ∧
      step { s with draft := (s.draft.place label).nest (·.setPhase phase) } = .ok () s₁ ∧
      s' = { s₁ with draft := s₁.draft.emit exit } := by
  cases part with
  | none =>
    cases l with
    | none =>
      cases h
      exact .inl ⟨rfl, rfl, rfl⟩
    | some label => cases hlabel
  | some step =>
    cases l with
    | none => cases hlabel
    | some label =>
      have hrest := next_of_bind rfl h
      replace hrest := next_of_bind rfl hrest
      obtain ⟨_, s₁, hstep, hemit⟩ := exists_of_bind hrest
      cases hemit
      exact .inr ⟨label, step, s₁, rfl, rfl, hstep, rfl⟩

/-- The steps of a try statement: its body from the state after the opening operation, then its
other parts. -/
theorem emitTry_eq_ok {handler finalizer : Option (Lower Unit)}
    (h : emitTry span body handler finalizer s = .ok () s') : ∃ hl fl next endLabel s₀ s₁ s₂ s₃,
      partLabel handler.isSome s.draft.labelCount = (hl, next) ∧
      partLabel finalizer.isSome next = (fl, endLabel) ∧
      s₀.context = s.context.withLabel (endLabel + 1) ∧
      s₀.draft.nesting = s.draft.nesting.within .body ∧
      s₀.draft.code = s.draft.code ++ [Operation.try hl fl] ∧ body s₀ = .ok () s₁ ∧
      emitPart .handler (.endTry endLabel) hl handler
        { s₁ with draft := s₁.draft.emit (.endTry endLabel) } = .ok () s₂ ∧
      emitPart .finalizer (.simple .endFinally) fl finalizer s₂ = .ok () s₃ ∧
      s' = { s₃ with draft := (s₃.draft.nest (·.exitTry)).place endLabel } := by
  obtain ⟨hl, t₁, hhandler, h⟩ := exists_of_bind h
  obtain ⟨fl, t₂, hfinalizer, h⟩ := exists_of_bind h
  obtain ⟨hlabel, happends⟩ := labelFor_eq_ok hhandler
  obtain ⟨hlabel', happends'⟩ := labelFor_eq_ok hfinalizer
  replace h := next_of_bind rfl h
  replace h := next_of_bind rfl h
  obtain ⟨_, s₄, hinside, hplace⟩ := exists_of_bind h
  cases hplace
  obtain ⟨s₃, hparts, rfl⟩ := exists_of_bracket hinside
  obtain ⟨_, s₁, hbody, hparts⟩ := exists_of_bind hparts
  replace hparts := next_of_bind rfl hparts
  obtain ⟨_, s₂, hhandler', hfinalizer'⟩ := exists_of_bind hparts
  have hopened := ((happends.trans happends').trans (Appends.newLabel t₂)).trans
    (Appends.emitAt _ (.try hl fl) span)
  refine ⟨hl, fl, t₁.draft.labelCount, t₂.draft.labelCount, _, s₁, s₂, s₃, hlabel, hlabel',
    ?_, ?_, ?_, hbody, hhandler', hfinalizer', rfl⟩
  · exact hopened.context_eq
  · exact congrArg Nesting.enterTry hopened.nesting_eq
  · exact hopened.code_eq

/-- The code of a `CatchClause` without its label and its end. -/
def HandlerCode (clause : CatchClause) (n : Nesting) (ctx : Context) (ps : List Piece)
    (ctx' : Context) : Prop :=
  ∃ ops qs ctx₁ ctx₂, BindsException clause.param (ctx.enter "catch") ops ctx₁ ∧
    BlockCode n clause.body ctx₁ qs ctx₂ ∧ ps = plain ops ++ qs ∧ ctx' = ctx₂.leave

section Parts

variable {n : Nesting} {phase : TryPhase} {l : Option Label} {s s' : LowerState}

/-- The code of a part, with its label and its end. -/
theorem Writes.code_part {label : Label} {s₁ : LowerState} {ps : List Piece}
    (h : Writes { s with draft := (s.draft.place label).nest (·.setPhase phase) } s₁ ps)
    (exit : Operation) : (s₁.draft.emit exit).code =
      s.draft.code ++ codeOf (plain [.label label] ++ ps ++ plain [exit]) := by
  have hplaced : (s.draft.place label).code = s.draft.code ++ [.label label] :=
    (Appends.emit s (.label label)).code_eq
  rw [(Appends.emit s₁ _).code_eq, h.code_eq]
  show (s.draft.place label).code ++ _ ++ _ = _
  rw [hplaced]
  simp

/-- A handler writes its `CatchCode`. -/
theorem emitCatch_code {endLabel : Label}
    (hhandler : ∀ clause ∈ handler, Follows (HandlerCode clause) (lowerHandler clause))
    (hl : handler.isSome = l.isSome) (hn : s.draft.nesting = n.within phase)
    (h : emitPart .handler (.endTry endLabel) l (handler.map lowerHandler) s = .ok () s') :
    ∃ qs, CatchCode (n.within .handler) l endLabel handler s.context qs s'.context ∧
      s'.draft.code = s.draft.code ++ codeOf qs ∧ ∃ phase', s'.draft.nesting = n.within phase' := by
  have hl' : (handler.map lowerHandler).isSome = l.isSome := by rw [Option.isSome_map, hl]
  rcases emitPart_eq_ok hl' h with ⟨rfl, hnone, rfl⟩ | ⟨label, step, s₁, rfl, hsome, hstep, rfl⟩
  · cases Option.map_eq_none_iff.mp hnone
    exact ⟨[], .none, (append_nil _).symm, phase, hn⟩
  · obtain ⟨⟨param, body, span⟩, rfl, rfl⟩ := Option.map_eq_some_iff.mp hsome
    obtain ⟨_, ⟨ops, qs, ctx₁, ctx₂, hbinds, hblock, rfl, hleave⟩, hwrites⟩ :=
      hhandler _ rfl _ _ hstep
    have hphase : (s.draft.nesting.setPhase .handler) = n.within .handler := by rw [hn]; rfl
    change BlockCode (s.draft.nesting.setPhase .handler) body ctx₁ qs ctx₂ at hblock
    rw [hphase] at hblock
    refine ⟨plain (.label label :: ops) ++ qs ++ plain [.endTry endLabel], ?_, ?_, .handler, ?_⟩
    · show CatchCode _ _ _ _ s.context _ s₁.context
      rw [hleave]
      exact .some hbinds hblock
    · simpa using hwrites.code_part (.endTry endLabel)
    · exact hwrites.nesting_eq.trans hphase

/-- A finalizer writes its `FinallyCode`. -/
theorem emitFinally_code
    (hfinalizer : ∀ block ∈ finalizer, Follows (BlockCode · block) (lowerBlock block))
    (hl : finalizer.isSome = l.isSome) (hn : s.draft.nesting = n.within phase)
    (h : emitPart .finalizer (.simple .endFinally) l (finalizer.map lowerBlock) s = .ok () s') :
    ∃ rs, FinallyCode (n.within .finalizer) l finalizer s.context rs s'.context ∧
      s'.draft.code = s.draft.code ++ codeOf rs ∧ ∃ phase', s'.draft.nesting = n.within phase' := by
  have hl' : (finalizer.map lowerBlock).isSome = l.isSome := by rw [Option.isSome_map, hl]
  rcases emitPart_eq_ok hl' h with ⟨rfl, hnone, rfl⟩ | ⟨label, step, s₁, rfl, hsome, hstep, rfl⟩
  · cases Option.map_eq_none_iff.mp hnone
    exact ⟨[], .none, (append_nil _).symm, phase, hn⟩
  · obtain ⟨block, rfl, rfl⟩ := Option.map_eq_some_iff.mp hsome
    obtain ⟨rs, hblock, hwrites⟩ := hfinalizer _ rfl _ _ hstep
    have hphase : (s.draft.nesting.setPhase .finalizer) = n.within .finalizer := by rw [hn]; rfl
    change BlockCode (s.draft.nesting.setPhase .finalizer) block s.context rs s₁.context at hblock
    rw [hphase] at hblock
    exact ⟨plain [.label label] ++ rs ++ plain [.simple .endFinally], .some hblock,
      hwrites.code_part _, .finalizer, hwrites.nesting_eq.trans hphase⟩

end Parts

theorem isSome_of_partLabel {isThere : Bool} {next next' : Label} {l : Option Label}
    (h : partLabel isThere next = (l, next')) : isThere = l.isSome := by
  cases isThere with
  | false =>
    cases h
    rfl
  | true =>
    cases h
    rfl

/-- `emitTry` writes the code of a try statement from that of its parts. -/
theorem emitTry_code {n : Nesting} {body : Block} {s s' : LowerState}
    (hbody : Follows (BlockCode · body) (lowerBlock body))
    (hhandler : ∀ clause ∈ handler, Follows (HandlerCode clause) (lowerHandler clause))
    (hfinalizer : ∀ block ∈ finalizer, Follows (BlockCode · block) (lowerBlock block))
    (hn : s.draft.nesting = n)
    (h : emitTry span (lowerBlock body) (handler.map lowerHandler) (finalizer.map lowerBlock) s =
      .ok () s') :
    ∃ ps, StmtCode n (.try body handler finalizer span) s.context ps s'.context ∧
      Writes s s' ps := by
  obtain ⟨hl, fl, next, endLabel, s₀, s₁, s₂, s₃, hlabel, hlabel', hcontext, hnesting, hcode,
    hbody', hhandler', hfinalizer', rfl⟩ := emitTry_eq_ok h
  rw [Option.isSome_map] at hlabel hlabel'
  rw [hn] at hnesting
  obtain ⟨ps, hps, hwrites⟩ := hbody _ _ hbody'
  rw [hcontext, hnesting] at hps
  have hnesting₁ : (s₁.draft.emit (.endTry endLabel)).nesting = n.within .body :=
    hwrites.nesting_eq.trans hnesting
  obtain ⟨qs, hqs, hcode₂, phase, hnesting₂⟩ := emitCatch_code hhandler
    (s := { s₁ with draft := s₁.draft.emit (.endTry endLabel) }) (isSome_of_partLabel hlabel)
    hnesting₁ hhandler'
  obtain ⟨rs, hrs, hcode₃, phase', hnesting₃⟩ := emitFinally_code hfinalizer
    (isSome_of_partLabel hlabel') hnesting₂ hfinalizer'
  refine ⟨_, .try hlabel hlabel' hps hqs hrs, ?_, ?_⟩
  · have hplaced : ((s₃.draft.nest (·.exitTry)).place endLabel).code =
        s₃.draft.code ++ [Operation.label endLabel] :=
      (Appends.emit { s₃ with draft := s₃.draft.nest (·.exitTry) } (.label endLabel)).code_eq
    have hleft : (s₁.draft.emit (.endTry endLabel)).code =
        s₁.draft.code ++ [Operation.endTry endLabel] :=
      (Appends.emit s₁ (.endTry endLabel)).code_eq
    rw [hplaced, hcode₃, hcode₂, hleft, hwrites.code_eq, hcode]
    simp
  · show s₃.draft.nesting.exitTry = s.draft.nesting
    rw [hnesting₃, hn]
    rfl

/-! ## Statements -/

/-- The place of a statement is no part of its code. -/
theorem Follows.markFrom {R : Nesting → Context → List Piece → Context → Prop}
    (h : Follows R body) (span : Span) : Follows R (markFrom span body) := by
  intro s s' hs
  obtain ⟨s₁, hbody, hcontext, hmark⟩ := markFrom_code hs
  obtain ⟨ps, hps, hwrites⟩ := h s s₁ hbody
  rw [hcontext]
  exact ⟨ps, hps, hmark hwrites⟩

/-- `lowerDeclaration` stores the value in the slot that it takes. -/
theorem lowerDeclaration_code (id : Ident) (ty : Ty) (init : Option Expr) (isConst : Bool)
    (span : Span) :
    Follows (StmtCode · (.declare id ty init isConst span))
      (lowerDeclaration id ty init isConst) := by
  intro s s' h
  cases init with
  | none =>
    obtain ⟨_, _, hdefine, hpure⟩ := exists_of_bind h
    cases hpure
    obtain ⟨-, hfree, hdeclared, hwrites⟩ := defineLocal_code hdefine
    rw [hdeclared]
    exact ⟨_, .declare hfree, hwrites⟩
  | some value =>
    obtain ⟨_, s₁, hvalue, hrest⟩ := exists_of_bind h
    obtain ⟨index, s₂, hdefine, hstore⟩ := exists_of_bind hrest
    cases hstore
    obtain ⟨ps, hps, hwrites⟩ := lowerExpr_code value hvalue
    obtain ⟨rfl, hfree, hdeclared, hwrites'⟩ := defineLocal_code hdefine
    refine ⟨_, ?_, (hwrites.trans hwrites').trans (Appends.emit s₂ _).writes⟩
    show StmtCode _ _ _ _ s₂.context
    rw [hdeclared, append_nil]
    exact .declareAs hps hfree

/-- `lowerReturn` leaves with the value on the stack, if there is one. -/
theorem lowerReturn_code (value : Option Expr) (span : Span) :
    Follows (StmtCode · (.return value span)) (lowerReturn value span) := by
  intro s s' h
  cases value with
  | none =>
    rw [lowerReturn] at h
    obtain ⟨exit, hexit, hsame, happends⟩ := emitExit_code h
    rw [hsame]
    exact ⟨_, .return hexit, happends.leave false⟩
  | some value =>
    obtain ⟨_, s₁, hvalue, hleave⟩ := exists_of_bind h
    obtain ⟨ps, hps, hwrites⟩ := lowerExpr_code value hvalue
    obtain ⟨exit, hexit, hsame, happends⟩ := emitExit_code hleave
    rw [hwrites.nesting_eq] at hexit
    rw [hsame]
    exact ⟨_, .returnAs hps hexit, hwrites.trans (happends.leave true)⟩

section Branches

variable {condition : Expr} {thenBranch body : Stmt} {elseBranch : Option Stmt}

/-- A branch `Follows` the rule with or without a second part. -/
theorem lowerIf_code (hthen : Follows (StmtCode · thenBranch) (lowerStmt thenBranch))
    (helse : ∀ branch ∈ elseBranch, Follows (StmtCode · branch) (lowerStmt branch)) :
    Follows (StmtCode · (.if condition thenBranch elseBranch span))
      (lowerStmt (.if condition thenBranch elseBranch span)) := by
  intro s s' h
  rw [lowerStmt] at h
  obtain ⟨elseLabel, s₁, hlabel, h⟩ := exists_of_bind h
  obtain ⟨_, s₂, hcondition, h⟩ := exists_of_bind h
  obtain ⟨_, s₃, hthen', h⟩ := exists_of_bind h
  obtain ⟨rfl, htaken, hcontext₁⟩ := newLabel_eq_ok hlabel
  obtain ⟨ps, hps, hwrites⟩ := lowerCondition_code hcondition
  obtain ⟨qs, hqs, hwrites'⟩ := hthen _ _ hthen'
  have hboth := htaken.writes.trans (hwrites.trans hwrites')
  rw [hwrites.nesting_eq, htaken.nesting_eq] at hqs
  rw [hcontext₁] at hps
  cases elseBranch with
  | none =>
    obtain ⟨hplaced, hcontext⟩ := place_eq_ok h
    rw [hcontext]
    exact ⟨_, .ifThen hps hqs, hboth.trans hplaced.writes⟩
  | some branch =>
    obtain ⟨endLabel, s₄, hlabel', h⟩ := exists_of_bind h
    obtain ⟨_, s₅, hjump, h⟩ := exists_of_bind h
    obtain ⟨_, s₆, hplace, h⟩ := exists_of_bind h
    obtain ⟨_, s₇, helse', hend⟩ := exists_of_bind h
    obtain ⟨rfl, htaken', hcontext₄⟩ := newLabel_eq_ok hlabel'
    obtain ⟨hjumped, hcontext₅⟩ := emit_eq_ok hjump
    obtain ⟨hplaced, hcontext₆⟩ := place_eq_ok hplace
    obtain ⟨rs, hrs, hwrites''⟩ := helse branch rfl _ _ helse'
    obtain ⟨hended, hcontext⟩ := place_eq_ok hend
    have hskip := (htaken'.trans hjumped).trans hplaced
    rw [hskip.nesting_eq, hboth.nesting_eq, hcontext₆, hcontext₅, hcontext₄] at hrs
    rw [hcontext]
    exact ⟨_, .ifElse hps hqs hrs,
      ((hboth.trans hskip.writes).trans hwrites'').trans hended.writes⟩

/-- A loop `Follows` its rule, with its own labels around the body. -/
theorem lowerWhile_code (hbody : Follows (StmtCode · body) (lowerStmt body)) :
    Follows (StmtCode · (.while condition body span))
      (lowerStmt (.while condition body span)) := by
  intro s s' h
  rw [lowerStmt] at h
  obtain ⟨continueLabel, s₁, hlabel, h⟩ := exists_of_bind h
  obtain ⟨breakLabel, s₂, hlabel', h⟩ := exists_of_bind h
  obtain ⟨_, s₃, hplace, h⟩ := exists_of_bind h
  obtain ⟨_, s₄, hcondition, h⟩ := exists_of_bind h
  obtain ⟨_, s₅, hloop, h⟩ := exists_of_bind h
  obtain ⟨_, s₆, hjump, hend⟩ := exists_of_bind h
  obtain ⟨rfl, htaken, hcontext₁⟩ := newLabel_eq_ok hlabel
  obtain ⟨rfl, htaken', hcontext₂⟩ := newLabel_eq_ok hlabel'
  obtain ⟨hplaced, hcontext₃⟩ := place_eq_ok hplace
  obtain ⟨ps, hps, hwrites⟩ := lowerCondition_code hcondition
  obtain ⟨s₇, hinside, rfl⟩ := exists_of_bracket hloop
  obtain ⟨qs, hqs, hwrites'⟩ := hbody _ _ hinside
  obtain ⟨hjumped, hcontext₆⟩ := emit_eq_ok hjump
  obtain ⟨hended, hcontext⟩ := place_eq_ok hend
  have hopened := (htaken.trans htaken').trans hplaced
  have htested := hopened.writes.trans hwrites
  rw [hcontext₁] at hcontext₂
  rw [hcontext₃, hcontext₂] at hps
  change StmtCode (s₄.draft.nesting.enterLoop s.context.label s₁.context.label) body s₄.context qs
    s₇.context at hqs
  rw [htested.nesting_eq, hcontext₁] at hqs
  rw [hcontext, hcontext₆]
  refine ⟨_, .while hps hqs, ?_, ?_⟩
  · rw [hended.code_eq, hjumped.code_eq]
    show s₇.draft.code ++ _ ++ _ = _
    rw [hwrites'.code_eq]
    show s₄.draft.code ++ _ ++ _ ++ _ = _
    rw [htested.code_eq, hcontext₁]
    simp [Context.withLabel]
  · rw [hended.nesting_eq, hjumped.nesting_eq]
    show s₇.draft.nesting.exitLoop = _
    rw [hwrites'.nesting_eq]
    exact htested.nesting_eq

end Branches

mutual

/-- `lowerStmt` `Follows` the `StmtCode` of the statement. -/
theorem lowerStmt_code (stmt : Stmt) : Follows (StmtCode · stmt) (lowerStmt stmt) := by
  match stmt with
  | .expr e span =>
    refine Follows.markFrom (fun s s' h => ?_) span
    obtain ⟨ps, hps, hwrites⟩ := lowerDiscarded_code h
    exact ⟨ps, .expr hps, hwrites⟩
  | .declare id ty init isConst span =>
    exact (lowerDeclaration_code id ty init isConst span).markFrom span
  | .return value span => exact (lowerReturn_code value span).markFrom span
  | .throw value span =>
    refine Follows.markFrom (fun s s' h => ?_) span
    obtain ⟨_, s₁, hvalue, hthrow⟩ := exists_of_bind h
    cases hthrow
    obtain ⟨ps, hps, hwrites⟩ := lowerExpr_code value hvalue
    exact ⟨_, .throw hps, hwrites.trans (Appends.emit s₁ _).writes⟩
  | .break span =>
    refine Follows.markFrom (fun s s' h => ?_) span
    obtain ⟨exit, hexit, hsame, happends⟩ := emitExit_code h
    rw [hsame]
    exact ⟨_, .break hexit, happends.writes⟩
  | .continue span =>
    refine Follows.markFrom (fun s s' h => ?_) span
    obtain ⟨exit, hexit, hsame, happends⟩ := emitExit_code h
    rw [hsame]
    exact ⟨_, .continue hexit, happends.writes⟩
  | .block body =>
    intro s s' h
    obtain ⟨ps, hps, hwrites⟩ := lowerBlock_code body s s' h
    exact ⟨ps, .block hps, hwrites⟩
  | .if condition thenBranch elseBranch _ =>
    have hthen := lowerStmt_code thenBranch
    refine lowerIf_code hthen fun branch hbranch => ?_
    match elseBranch with
    | none => cases hbranch
    | some other =>
      have hother := lowerStmt_code other
      cases hbranch
      exact hother
  | .while condition body _ => exact lowerWhile_code (lowerStmt_code body)
  | .try body handler finalizer span =>
    have hbody := lowerBlock_code body
    intro s s' h
    rw [lowerStmt.eq_def] at h
    match handler, finalizer with
    | none, none => exact emitTry_code hbody (by simp) (by simp) rfl h
    | some clause, none =>
      have hclause := lowerHandler_code clause
      refine emitTry_code hbody ?_ (by simp) rfl h
      rintro _ ⟨⟩
      exact hclause
    | none, some block =>
      have hblock := lowerBlock_code block
      refine emitTry_code hbody (by simp) ?_ rfl h
      rintro _ ⟨⟩
      exact hblock
    | some clause, some block =>
      have hclause := lowerHandler_code clause
      have hblock := lowerBlock_code block
      refine emitTry_code hbody ?_ ?_ rfl h
      · rintro _ ⟨⟩
        exact hclause
      · rintro _ ⟨⟩
        exact hblock
  | .other _ _ =>
    intro s s' h
    cases h

theorem lowerStmts_code (ss : List Stmt) : Follows (StmtsCode · ss) (lowerStmts ss) := by
  match ss with
  | [] =>
    intro s s' h
    cases h
    exact ⟨[], .nil, (Appends.refl s).writes⟩
  | stmt :: rest =>
    intro s s' h
    obtain ⟨_, s₁, hfirst, hrest⟩ := exists_of_bind h
    obtain ⟨ps, hps, hwrites⟩ := lowerStmt_code stmt _ _ hfirst
    obtain ⟨qs, hqs, hwrites'⟩ := lowerStmts_code rest _ _ hrest
    rw [hwrites.nesting_eq] at hqs
    exact ⟨_, .cons hps hqs, hwrites.trans hwrites'⟩

theorem lowerBlock_code (b : Block) : Follows (BlockCode · b) (lowerBlock b) := by
  match b with
  | ⟨ss, span⟩ =>
    have hstmts := lowerStmts_code ss
    intro s s' h
    obtain ⟨_, s₁, hopen, h⟩ := exists_of_bind h
    obtain ⟨_, s₂, hscope, hclose⟩ := exists_of_bind h
    obtain ⟨s₃, hinside, rfl⟩ := exists_of_bracket hscope
    obtain ⟨hopened, hcontext⟩ := emitAt_eq_ok hopen
    obtain ⟨hclosed, hcontext'⟩ := emitAt_eq_ok hclose
    obtain ⟨ps, hps, hcode, hnesting⟩ := hstmts _ _ hinside
    change StmtsCode s₁.draft.nesting ss (s₁.context.enter "block") ps s₃.context at hps
    rw [hopened.nesting_eq, hcontext] at hps
    rw [hcontext']
    have hinner : Writes s₁ { s₃ with scope := s₃.scope.leave } ps := ⟨hcode, hnesting⟩
    exact ⟨_, .block hps, (hopened.writes.trans hinner).trans hclosed.writes⟩

theorem lowerHandler_code (c : CatchClause) : Follows (HandlerCode c) (lowerHandler c) := by
  match c with
  | ⟨param, body, _⟩ =>
    have hbody := lowerBlock_code body
    intro s s' h
    rw [lowerHandler] at h
    obtain ⟨s₃, hinside, rfl⟩ := exists_of_bracket h
    obtain ⟨_, s₂, hbind, hblock⟩ := exists_of_bind hinside
    obtain ⟨ops, hbinds, hwrites⟩ := bindException_code hbind
    obtain ⟨qs, hqs, hwrites'⟩ := hbody _ _ hblock
    rw [hwrites.nesting_eq] at hqs
    have hboth := hwrites.trans hwrites'
    exact ⟨_, ⟨ops, qs, _, _, hbinds, hqs, rfl, rfl⟩, hboth.code_eq, hboth.nesting_eq⟩

end

/-! ## Functions -/

/-- `defineParams` declares the parameters in order. -/
theorem defineParams_code : ∀ {params : List Param} {s s' : LowerState},
    defineParams params s = .ok () s' →
    ParamsIn params s.context s'.context ∧ Writes s s' []
  | [], s, s', h => by
    cases h
    exact ⟨.nil, (Appends.refl s).writes⟩
  | param :: rest, s, s', h => by
    obtain ⟨_, s₁, hparam, hrest⟩ := exists_of_bind h
    rw [defineParam, defineSlot_eq] at hparam
    cases htaken : s.scope.isTaken param.id.name with
    | true =>
      rw [htaken] at hparam
      cases hparam
    | false =>
      rw [htaken] at hparam
      cases hparam
      obtain ⟨hrest', hwrites⟩ := defineParams_code hrest
      exact ⟨.cons htaken hrest', hwrites.code_eq, hwrites.nesting_eq⟩

/-- The `Operation`s of a function, from the code of its body and what is seen after it. -/
def finishedCode (ps : List Piece) (ctx : Context) : List Operation :=
  (if ctx.params.isEmpty && ctx.locals.isEmpty then []
    else [.initSlots ctx.locals.size ctx.params.size]) ++
  elide (codeOf ps ++ [.label Draft.returnTarget, .return])

theorem finishedCode_of_finish {s : LowerState} (h : s.draft.finish = .ok r)
    (hcode : s.draft.code = codeOf ps) : r.ops.map Op.operation = finishedCode ps s.context := by
  rw [(operations_of_finish h).2, hcode]
  rfl

/-- Lowering of the body of a function, before its draft is finished. -/
def lowerBody (decl : FunctionDecl) : Lower Unit :=
  inScope decl.id.name do
    defineParams decl.params
    match decl.body with
    | none => pure ()
    | some body => lowerBlock body

/-- `lowerBody` writes the `FunctionCode` of the declaration. -/
theorem lowerBody_code {id : FunctionId} {s' : LowerState}
    (h : lowerBody decl ⟨{ id := id, name := name }, scope, tokens⟩ = .ok () s') :
    ∃ ps, FunctionCode decl ⟨scope, #[], #[], 1, tokens⟩ ps s'.context ∧
      s'.draft.code = codeOf ps := by
  unfold lowerBody at h
  obtain ⟨s₁, hinside, rfl⟩ := exists_of_bracket h
  obtain ⟨_, s₂, hparams, hbody⟩ := exists_of_bind hinside
  obtain ⟨hin, hwrites⟩ := defineParams_code hparams
  show ∃ ps, FunctionCode decl ⟨scope, #[], #[], 1, tokens⟩ ps s₁.context.leave ∧
    s₁.draft.code = codeOf ps
  cases hdecl : decl.body with
  | none =>
    rw [hdecl] at hbody
    cases hbody
    exact ⟨[], .none hdecl hin, hwrites.code_eq⟩
  | some body =>
    rw [hdecl] at hbody
    obtain ⟨ps, hps, hwrites'⟩ := lowerBlock_code body _ _ hbody
    rw [hwrites.nesting_eq] at hps
    exact ⟨ps, .some hdecl hin hps, (hwrites.trans hwrites').code_eq⟩

/-- `lowerFunction` writes the code of its body, which is then finished. -/
theorem lowerFunction_code {id : FunctionId} {s' : LowerState}
    (h : lowerFunction decl ⟨{ id := id, name := name }, scope, tokens⟩ = .ok r s') :
    ∃ ps, FunctionCode decl ⟨scope, #[], #[], 1, tokens⟩ ps s'.context ∧
      r.params = s'.context.params.toList ∧
      r.ops.map Op.operation = finishedCode ps s'.context := by
  obtain ⟨finished, hfinish, hbody, rfl⟩ := lowerFunction_eq_ok h
  obtain ⟨ps, hps, hcode⟩ := lowerBody_code hbody
  have hops := finishedCode_of_finish hfinish hcode
  exact ⟨ps, hps, (operations_of_finish hfinish).1, hops⟩

/-- `lowerStatics` writes the `StaticsCode` of the variables, if none has a fault. -/
theorem lowerStatics_code : ∀ {decls : List StaticDecl} {index : Nat} {s s' : LowerState},
    lowerStatics decls index s = ([], s') →
    ∃ ps, StaticsCode decls index s.context ps s'.context ∧ Writes s s' ps
  | [], index, s, s', h => by
    cases h
    exact ⟨[], .nil, (Appends.refl s).writes⟩
  | decl :: rest, index, s, s', h => by
    rw [lowerStatics] at h
    split at h
    · next s₁ hstatic =>
      obtain ⟨qs, hqs, hwrites⟩ := lowerStatics_code h
      unfold lowerStatic at hstatic
      cases hinit : decl.init with
      | none =>
        rw [hinit] at hstatic
        cases hstatic
        exact ⟨qs, .skip hinit hqs, hwrites⟩
      | some value =>
        rw [hinit] at hstatic
        obtain ⟨s₂, hbody, hcontext, hmark⟩ := markFrom_code hstatic
        obtain ⟨_, s₃, hvalue, hstore⟩ := exists_of_bind hbody
        obtain ⟨hstored, hcontext'⟩ := emit_eq_ok hstore
        obtain ⟨ps, hps, hwrites'⟩ := lowerExpr_code value hvalue
        rw [hcontext, hcontext'] at hqs
        exact ⟨_, .fill hinit hps hqs, (hmark (hwrites'.trans hstored.writes)).trans hwrites⟩
    · cases h

end ContractScript
