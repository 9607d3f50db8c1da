import ContractScript.Proofs.Constructs

/-!
# Code piece by piece

Most of what holds of lowered code holds of each of its pieces and is kept where pieces are put
together (`Piecewise`). The rules of the constructs are gone through once here, and once more for
labels: those that a construct places are new (`Fresh`).
-/

namespace ContractScript

open List

variable {ctx ctx' : Context} {d : Definition} {argCount index lo hi : Nat}
  {ops code code' : List Operation} {ty : Ty} {op : Option BinaryOp} {ps : List Piece} {keep : Bool}
  {kind : SlotKind} {e : Expr} {param : Option Ident} {decl : FunctionDecl}

/-! ## Names -/

/-- The variables and what names stand for are the same. -/
structure Context.SameNames (ctx ctx' : Context) : Prop where
  scope_eq : ctx'.scope = ctx.scope
  params_eq : ctx'.params = ctx.params
  locals_eq : ctx'.locals = ctx.locals

namespace Context.SameNames

theorem refl (ctx : Context) : ctx.SameNames ctx := ⟨rfl, rfl, rfl⟩

theorem trans {ctx₁ ctx₂ : Context} (h : ctx.SameNames ctx₁) (h' : ctx₁.SameNames ctx₂) :
    ctx.SameNames ctx₂ :=
  ⟨h'.scope_eq.trans h.scope_eq, h'.params_eq.trans h.params_eq, h'.locals_eq.trans h.locals_eq⟩

theorem withLabel (ctx : Context) (l : Label) : ctx.SameNames (ctx.withLabel l) := ⟨rfl, rfl, rfl⟩

end Context.SameNames

/-- `Uses` changes the token table only. -/
theorem Uses.sameNames (h : Uses d argCount ctx ops ctx') : ctx.SameNames ctx' := by
  cases h <;> exact ⟨rfl, rfl, rfl⟩

mutual

/-- An expression changes no names. -/
theorem ExprCode.sameNames {e : Expr} {ctx ctx' : Context} {ps : List Piece}
    (h : ExprCode e ctx ps ctx') : ctx.SameNames ctx' :=
  match h with
  | .literal | .variable _ _ | .constant _ _ | .negated _ => .refl ctx
  | .shortCircuit _ hleft hright => (hleft.sameNames.trans (.withLabel _ _)).trans hright.sameNames
  | .operator _ _ hleft hright _ => hleft.sameNames.trans hright.sameNames
  | .nullTest _ _ _ h | .unary _ h | .assign _ h _ | .length _ _ _ h | .paren h => h.sameNames
  | .call _ _ hargs huses => hargs.sameNames.trans huses.sameNames
  | .property _ _ huses => huses.sameNames

theorem ArgsCode.sameNames {args : List Expr} {ctx ctx' : Context} {ps : List Piece}
    (h : ArgsCode args ctx ps ctx') : ctx.SameNames ctx' :=
  match h with
  | .nil => .refl ctx
  | .cons hrest harg => hrest.sameNames.trans harg.sameNames

end

theorem DiscardedCode.sameNames (h : DiscardedCode e ctx ps ctx') : ctx.SameNames ctx' := by
  cases h with
  | assign _ _ hvalue _ => exact hvalue.sameNames
  | call _ _ _ hargs huses => exact hargs.sameNames.trans huses.sameNames
  | value _ hvalue => exact hvalue.sameNames

/-! ## Pieces -/

/-- Whether an `Operation` hands control to a function, a contract or the host. Such operations
stand only for the use of a symbol. -/
def Operation.isCall : Operation → Bool
  | .call _ | .callToken _ | .service _ => true
  | _ => false

/-- An `Operation` calls nothing, and a local slot that it stores to is that of a variable in scope
or the newest one. -/
structure Context.Admits (ctx : Context) (op : Operation) : Prop where
  isCall_eq : op.isCall = false
  stores : ∀ i, op = .store .local i → i + 1 = ctx.locals.size ∨
    ∃ name symbol isMutable, ctx.scope.lookup name = some symbol ∧
      symbol.definition = .slot .local i isMutable

/-- A relation between what is seen before and after a list of `Piece`s, which holds of single
pieces and where pieces are put together. -/
structure Piecewise (R : Context → List Piece → Context → Prop) : Prop where
  nil : ∀ ctx, R ctx [] ctx
  append : ∀ {ctx ctx₁ ctx₂ ps qs}, R ctx ps ctx₁ → R ctx₁ qs ctx₂ → R ctx (ps ++ qs) ctx₂
  op : ∀ {ctx operation}, ctx.Admits operation → R ctx [.op operation] ctx
  /-- A symbol is used that a name stands for, with its number of arguments or as a property. -/
  use : ∀ {ctx ctx' e symbol argCount isWanted ops}, ctx.scope.callee? e = some symbol →
    (symbol.definition.paramCount? = some argCount ∨
      symbol.definition.isProperty = true ∧ argCount = 0) →
    Uses symbol.definition argCount ctx ops ctx' →
    R ctx [.use symbol argCount isWanted ops] ctx'
  leave : ∀ ctx hasValue exit, R ctx [.leave hasValue (Exit.operation exit)] ctx
  label : ∀ ctx l, R ctx [] (ctx.withLabel l)
  declareLocal : ∀ ctx id ty isMutable, R ctx [] (ctx.declareLocal id ty isMutable)
  enclosed : ∀ {ctx ctx' ps} name, R (ctx.enter name) ps ctx' → R ctx ps ctx'.leave

/-! ### Operations that only work on values -/

/-- Whether an `Operation` changes nothing about where control goes: it neither branches, nor marks
a place, nor has to do with regions. -/
def Operation.isInert : Operation → Bool
  | .jump _ _ | .try _ _ | .endTry _ | .label _ | .return => false
  | _ => true

/-- Whether an `Operation` neither calls nor stores. -/
def Operation.isQuiet : Operation → Bool
  | .store _ _ => false
  | op => !op.isCall

/-- Whether an `Operation` only works on the stack, or loads. -/
def Operation.isBasic (op : Operation) : Bool :=
  op.isInert && op.isQuiet

theorem Operation.isInert_of_isBasic {op : Operation} (h : op.isBasic = true) :
    op.isInert = true :=
  ((Bool.and_eq_true _ _).mp h).1

theorem Operation.isQuiet_of_isBasic {op : Operation} (h : op.isBasic = true) :
    op.isQuiet = true :=
  ((Bool.and_eq_true _ _).mp h).2

/-- `isQuiet` operations are admitted everywhere. -/
theorem Context.admits_of_isQuiet (ctx : Context) {op : Operation} (h : op.isQuiet = true) :
    ctx.Admits op := by
  refine ⟨?_, fun i hi => ?_⟩
  · cases op <;> first | rfl | cases h
  · rw [hi] at h
    cases h

@[simp] theorem Operation.isBasic_simple (o : Opcode) : (simple o).isBasic = true := rfl

@[simp] theorem Operation.isBasic_convert (ty : ItemType) : (convert ty).isBasic = true := rfl

theorem isBasic_push (c : Constant) : c.push.isBasic = true := by
  cases c <;> rfl

/-- The operations of `operatorOps?` are opcodes. -/
theorem isBasic_operatorOps {op : BinaryOp} (h : operatorOps? op ty = some ops) :
    ∀ o ∈ ops, o.isBasic = true := by
  unfold operatorOps? at h
  split at h
  · obtain ⟨opcode, -, rfl⟩ := Option.map_eq_some_iff.mp h
    simp
  · split at h
    · split at h
      · cases h
        simp
      · cases h
    · cases h
      simp
    · cases h
      simp
    · cases h

theorem isBasic_unaryOps (op : UnaryOp) : ∀ o ∈ op.ops, o.isBasic = true := by
  cases op <;> simp [UnaryOp.ops]

theorem isBasic_nullTest (isNegated : Bool) :
    ∀ o ∈ Operation.simple .isNull :: (bif isNegated then [Operation.simple .not] else []),
      o.isBasic = true := by
  cases isNegated <;> simp

theorem isBasic_dropIf (isDropped : Bool) :
    ∀ o ∈ (bif isDropped then [Operation.simple .drop] else []), o.isBasic = true := by
  cases isDropped <;> simp

/-- `Combines` adds the opcodes of an operator, or none. -/
theorem isBasic_combines (h : Combines ty op ops) : ∀ o ∈ ops, o.isBasic = true := by
  cases op with
  | none =>
    cases h
    exact forall_mem_nil _
  | some op => exact isBasic_operatorOps h

/-- An assignment reads its variable before the right side if it combines them. -/
theorem isBasic_loadIf (isLoaded : Bool) (kind : SlotKind) (index : Nat) :
    ∀ o ∈ (bif isLoaded then [Operation.load kind index] else []), o.isBasic = true := by
  cases isLoaded with
  | false => exact forall_mem_nil _
  | true => exact forall_mem_singleton.mpr rfl

/-- An assignment works on the values after the right side, and stores. -/
theorem isInert_store (h : Combines ty op ops) (keep : Bool) (kind : SlotKind) (index : Nat) :
    ∀ o ∈ ops ++ storeCode keep kind index, o.isInert = true := by
  have hops (o : Operation) (ho : o ∈ ops) := Operation.isInert_of_isBasic (isBasic_combines h o ho)
  refine forall_mem_append.mpr ⟨hops, ?_⟩
  cases keep <;> simp [storeCode, Operation.isInert]

theorem isCall_operation (exit : Exit) : exit.operation.isCall = false := by
  cases exit <;> rfl

theorem isQuiet_operation (exit : Exit) : exit.operation.isQuiet = true := by
  cases exit <;> rfl

/-- `decideCode` tests and jumps. -/
theorem isQuiet_decideCode (op : BinaryOp) (done : Label) :
    ∀ o ∈ decideCode op done, o.isQuiet = true := by
  cases op <;> simp [decideCode, Operation.isQuiet, Operation.isCall]

/-- A property is named by its access, as a method is by a call. -/
theorem exists_callee?_of_member {scope : Scope} {object : Expr} {member : Ident} {symbol : Symbol}
    (h : scope.member? object member.name = some symbol) :
    ∃ e, scope.callee? e = some symbol :=
  ⟨.member object member .any default, h⟩

namespace Piecewise

variable {R : Context → List Piece → Context → Prop} (hR : Piecewise R)

include hR

/-- Operations that are admitted are kept one by one. -/
theorem plain (ctx : Context) : ∀ {ops : List Operation}, (∀ o ∈ ops, ctx.Admits o) →
    R ctx (plain ops) ctx
  | [], _ => hR.nil ctx
  | o :: ops, h => by
    have hfirst := hR.op (h o mem_cons_self)
    exact hR.append hfirst (plain ctx fun o' ho' => h o' (mem_cons_of_mem o ho'))

theorem quiet (ctx : Context) {op : Operation} (h : op.isQuiet = true) : R ctx [.op op] ctx :=
  hR.op (ctx.admits_of_isQuiet h)

theorem basic (ctx : Context) (h : ∀ o ∈ ops, o.isBasic = true) :
    R ctx (ContractScript.plain ops) ctx :=
  hR.plain ctx fun o ho => ctx.admits_of_isQuiet (Operation.isQuiet_of_isBasic (h o ho))

/-- A variable is declared and its slot filled. -/
theorem declareAs (ctx : Context) (id : Ident) (ty : ParamType) (isMutable : Bool) :
    R ctx [.op (.store .local ctx.locals.size)] (ctx.declareLocal id ty isMutable) := by
  refine hR.append (hR.declareLocal ctx id ty isMutable) (hR.op ⟨rfl, fun i hi => .inl ?_⟩)
  cases hi
  exact (Array.size_push _).symm

/-- Code after which labels were taken. -/
theorem labelled {l : Label} (h : R (ctx.withLabel l) ps ctx') : R ctx ps ctx' :=
  hR.append (hR.label ctx l) h

/-- `assignPieces` stores to a variable in scope. -/
theorem assign {target : Expr} (hassigned : ctx'.scope.assigned? target = some (kind, index))
    (h : R ctx ps ctx') (hcombines : Combines ty op ops) :
    R ctx (assignPieces op keep kind index ps ops) ctx' := by
  obtain ⟨id, _, _, symbol, -, hlookup, hdef⟩ := Scope.exists_of_assigned? hassigned
  have hstore : ctx'.Admits (.store kind index) := by
    refine ⟨rfl, fun i hi => .inr ⟨id.name, symbol, true, hlookup, ?_⟩⟩
    cases hi
    exact hdef
  have hkeep : R ctx' (ContractScript.plain (storeCode keep kind index)) ctx' := by
    cases keep with
    | false => exact hR.op hstore
    | true => exact hR.append (hR.quiet ctx' rfl) (hR.op hstore)
  have hstores : R ctx' (ContractScript.plain (ops ++ storeCode keep kind index)) ctx' := by
    rw [ContractScript.plain, map_append]
    exact hR.append (hR.basic ctx' (isBasic_combines hcombines)) hkeep
  exact hR.append (hR.append (hR.basic ctx (isBasic_loadIf _ _ _)) h) hstores

mutual

/-- `Piecewise` holds of the code of an expression. -/
theorem expr {e : Expr} {ctx ctx' : Context} {ps : List Piece} (h : ExprCode e ctx ps ctx') :
    R ctx ps ctx' := by
  match h with
  | .literal => exact hR.quiet ctx (Operation.isQuiet_of_isBasic (isBasic_push _))
  | .variable _ _ => exact hR.quiet ctx rfl
  | .constant _ _ => exact hR.quiet ctx (Operation.isQuiet_of_isBasic (isBasic_push _))
  | .shortCircuit _ hleft hright =>
    refine hR.append (hR.append (hR.append (expr hleft) (hR.plain _ ?_))
      (hR.labelled (expr hright))) (hR.quiet _ rfl)
    refine forall_mem_cons.mpr ⟨Context.admits_of_isQuiet _ rfl, forall_mem_append.mpr ⟨?_, ?_⟩⟩
    · exact fun o ho => Context.admits_of_isQuiet _ (isQuiet_decideCode _ _ o ho)
    · exact forall_mem_singleton.mpr (Context.admits_of_isQuiet _ rfl)
  | .nullTest _ _ _ hoperand => exact hR.append (expr hoperand) (hR.basic _ (isBasic_nullTest _))
  | .operator _ _ hleft hright hops =>
    exact hR.append (hR.append (expr hleft) (expr hright))
      (hR.basic _ (isBasic_operatorOps hops))
  | .negated _ => exact hR.quiet ctx rfl
  | .unary _ hoperand => exact hR.append (expr hoperand) (hR.basic _ (isBasic_unaryOps _))
  | .assign hassigned hvalue hcombines =>
    rw [← hvalue.sameNames.scope_eq] at hassigned
    exact hR.assign hassigned (expr hvalue) hcombines
  | .call hcallee hcount hargs huses =>
    rw [← hargs.sameNames.scope_eq] at hcallee
    exact hR.append (args hargs) (hR.use hcallee (.inl hcount) huses)
  | .property hmember hproperty huses =>
    obtain ⟨e, he⟩ := exists_callee?_of_member hmember
    exact hR.use he (.inr ⟨hproperty, rfl⟩) huses
  | .length _ _ _ hobject => exact hR.append (expr hobject) (hR.quiet _ rfl)
  | .paren hinner => exact expr hinner

theorem args {arguments : List Expr} {ctx ctx' : Context} {ps : List Piece}
    (h : ArgsCode arguments ctx ps ctx') : R ctx ps ctx' := by
  match h with
  | .nil => exact hR.nil ctx
  | .cons hrest harg => exact hR.append (args hrest) (expr harg)

end

/-- A value that is not used is dropped by basic operations. -/
theorem discarded (h : DiscardedCode e ctx ps ctx') : R ctx ps ctx' := by
  cases h with
  | assign _ hassigned hvalue hcombines =>
    rw [← hvalue.sameNames.scope_eq] at hassigned
    exact hR.assign hassigned (hR.expr hvalue) hcombines
  | call _ hcallee hcount hargs huses =>
    rw [← hargs.sameNames.scope_eq] at hcallee
    exact hR.append (hR.append (hR.args hargs) (hR.use hcallee (.inl hcount) huses))
      (hR.basic _ (isBasic_dropIf _))
  | value _ hvalue =>
    refine hR.append (hR.expr hvalue) (hR.basic _ ?_)
    rw [← Bool.cond_not]
    exact isBasic_dropIf _

/-- A handler begins with its label and stores or drops the exception. -/
theorem bindsException (h : BindsException param ctx ops ctx') (l : Label) :
    R ctx (ContractScript.plain (.label l :: ops)) ctx' := by
  cases h with
  | drop => exact hR.append (hR.quiet ctx rfl) (hR.quiet ctx rfl)
  | keep _ => exact hR.append (hR.quiet ctx rfl) (hR.declareAs ctx _ _ _)

mutual

/-- `Piecewise` holds of the code of a statement. -/
theorem stmt {n : Nesting} {s : Stmt} {ctx ctx' : Context} {ps : List Piece}
    (h : StmtCode n s ctx ps ctx') : R ctx ps ctx' := by
  match h with
  | .expr he => exact hR.discarded he
  | .declare _ => exact hR.declareLocal ctx _ _ _
  | .declareAs hvalue _ => exact hR.append (hR.expr hvalue) (hR.declareAs _ _ _ _)
  | .return _ => exact hR.leave ctx _ _
  | .returnAs hvalue _ => exact hR.append (hR.expr hvalue) (hR.leave _ _ _)
  | .throw hvalue => exact hR.append (hR.expr hvalue) (hR.quiet _ rfl)
  | .break _ => exact hR.quiet ctx (isQuiet_operation _)
  | .continue _ => exact hR.quiet ctx (isQuiet_operation _)
  | .block hbody => exact block hbody
  | .ifThen hcondition hthen =>
    exact hR.append (hR.append (hR.append (hR.labelled (hR.expr hcondition)) (hR.quiet _ rfl))
      (stmt hthen)) (hR.quiet _ rfl)
  | .ifElse hcondition hthen helse =>
    refine hR.append (hR.append (hR.append (hR.append ?_ (stmt hthen)) ?_)
      (hR.labelled (stmt helse))) (hR.quiet _ rfl)
    · exact hR.append (hR.labelled (hR.expr hcondition)) (hR.quiet _ rfl)
    · exact hR.append (hR.quiet _ rfl) (hR.quiet _ rfl)
  | .while hcondition hbody =>
    refine hR.append (hR.append ?_ (stmt hbody)) (hR.append (hR.quiet _ rfl) (hR.quiet _ rfl))
    exact hR.append (hR.append (hR.quiet _ rfl) (hR.labelled (hR.expr hcondition))) (hR.quiet _ rfl)
  | .try _ _ hbody hhandler hfinalizer =>
    refine hR.append (hR.append (hR.append ?_ (handler hhandler)) (finalizer hfinalizer))
      (hR.quiet _ rfl)
    exact hR.append (hR.append (hR.quiet ctx rfl) (hR.labelled (block hbody))) (hR.quiet _ rfl)

theorem stmts {n : Nesting} {ss : List Stmt} {ctx ctx' : Context} {ps : List Piece}
    (h : StmtsCode n ss ctx ps ctx') : R ctx ps ctx' := by
  match h with
  | .nil => exact hR.nil ctx
  | .cons hfirst hrest => exact hR.append (stmt hfirst) (stmts hrest)

theorem block {n : Nesting} {b : Block} {ctx ctx' : Context} {ps : List Piece}
    (h : BlockCode n b ctx ps ctx') : R ctx ps ctx' := by
  match h with
  | .block hbody =>
    exact hR.append (hR.append (hR.quiet ctx rfl) (hR.enclosed _ (stmts hbody))) (hR.quiet _ rfl)

theorem handler {n : Nesting} {l : Option Label} {endLabel : Label} {c : Option CatchClause}
    {ctx ctx' : Context} {ps : List Piece} (h : CatchCode n l endLabel c ctx ps ctx') :
    R ctx ps ctx' := by
  match h with
  | .none => exact hR.nil ctx
  | .some hbinds hbody =>
    exact hR.enclosed _ (hR.append (hR.append (hR.bindsException hbinds _) (block hbody))
      (hR.quiet _ rfl))

theorem finalizer {n : Nesting} {l : Option Label} {b : Option Block} {ctx ctx' : Context}
    {ps : List Piece} (h : FinallyCode n l b ctx ps ctx') : R ctx ps ctx' := by
  match h with
  | .none => exact hR.nil ctx
  | .some hbody => exact hR.append (hR.append (hR.quiet ctx rfl) (block hbody)) (hR.quiet _ rfl)

end

theorem params (hparam : ∀ ctx name span ty, R ctx [] (ctx.declareParam name span ty))
    {params : List Param} {ctx ctx' : Context} (h : ParamsIn params ctx ctx') : R ctx [] ctx' := by
  induction h with
  | nil => exact hR.nil _
  | cons _ _ ih => exact hR.append (hparam _ _ _ _) ih

/-- `Piecewise` holds of the code of a function if parameters keep it. -/
theorem function (hparam : ∀ ctx name span ty, R ctx [] (ctx.declareParam name span ty))
    {decl : FunctionDecl} {ctx ctx' : Context} {ps : List Piece}
    (h : FunctionCode decl ctx ps ctx') : R ctx ps ctx' := by
  cases h with
  | none _ hparams => exact hR.enclosed _ (hR.params hparam hparams)
  | some _ hparams hbody =>
    exact hR.enclosed _ (hR.append (hR.params hparam hparams) (hR.block hbody))

/-- `Piecewise` holds of the code of initializers, which store to static slots. -/
theorem statics {decls : List StaticDecl} (h : StaticsCode decls index ctx ps ctx') :
    R ctx ps ctx' := by
  induction h with
  | nil => exact hR.nil _
  | skip _ _ ih => exact ih
  | fill _ hvalue _ ih =>
    refine hR.append (hR.append (hR.expr hvalue) (hR.op ⟨rfl, fun i hi => ?_⟩)) ih
    cases hi

end Piecewise

/-! ## Labels -/

/-- The `Operation`s of a piece that do not stand for a symbol. -/
def Piece.ownOps : Piece → List Operation
  | .op operation => [operation]
  | .use _ _ _ _ => []
  | .leave _ operation => [operation]

/-- The `Operation`s of pieces without those that stand for symbols. -/
def ownCode (pieces : List Piece) : List Operation :=
  pieces.flatMap Piece.ownOps

@[simp] theorem ownCode_nil : ownCode [] = [] := rfl

@[simp] theorem ownCode_cons (piece : Piece) (pieces : List Piece) :
    ownCode (piece :: pieces) = piece.ownOps ++ ownCode pieces :=
  flatMap_cons

@[simp] theorem ownCode_append (pieces pieces' : List Piece) :
    ownCode (pieces ++ pieces') = ownCode pieces ++ ownCode pieces' :=
  flatMap_append

/-- `plain` operations stand for no symbol. -/
@[simp] theorem ownCode_plain (ops : List Operation) : ownCode (plain ops) = ops := by
  induction ops with
  | nil => rfl
  | cons op ops ih => exact congrArg (op :: ·) ih

/-- The labels that code places are new: those of a range, each of them once. -/
structure Fresh (lo hi : Nat) (code : List Operation) : Prop where
  le : lo ≤ hi
  nodup : (labelsIn code).Nodup
  range : ∀ l ∈ labelsIn code, lo ≤ l ∧ l < hi
  all : ∀ l, lo ≤ l → l < hi → l ∈ labelsIn code

namespace Fresh

variable {lo mid hi : Nat} {code code' : List Operation}

theorem of_labelsIn_eq_nil (h : labelsIn code = []) (lo : Nat) : Fresh lo lo code :=
  ⟨Nat.le_refl lo, by rw [h]; exact nodup_nil, by rw [h]; exact forall_mem_nil _,
    fun _ hle hlt => absurd hlt (Nat.not_lt.mpr hle)⟩

theorem label (l : Label) : Fresh l (l + 1) [.label l] :=
  ⟨Nat.le_succ l, pairwise_singleton _ l, fun _ h => by
    cases mem_singleton.mp h
    exact ⟨Nat.le_refl _, Nat.lt_succ_self _⟩, fun _ hle hlt =>
    mem_singleton.mpr (Nat.le_antisymm (Nat.le_of_lt_succ hlt) hle)⟩

/-- Ranges of `Fresh` labels that follow each other are one range. -/
theorem append (h : Fresh lo mid code) (h' : Fresh mid hi code') : Fresh lo hi (code ++ code') := by
  refine ⟨Nat.le_trans h.le h'.le, ?_, fun l hl => ?_, fun l hle hlt => ?_⟩
  · rw [labelsIn_append, nodup_append]
    refine ⟨h.nodup, h'.nodup, fun l hl l' hl' heq => ?_⟩
    subst heq
    exact Nat.lt_irrefl l (Nat.lt_of_lt_of_le (h.range l hl).2 (h'.range l hl').1)
  · rw [labelsIn_append] at hl
    rcases mem_append.mp hl with hl | hl
    · exact ⟨(h.range l hl).1, Nat.lt_of_lt_of_le (h.range l hl).2 h'.le⟩
    · exact ⟨Nat.le_trans h.le (h'.range l hl).1, (h'.range l hl).2⟩
  · rw [labelsIn_append]
    by_cases hmid : l < mid
    · exact mem_append_left _ (h.all l hle hmid)
    · exact mem_append_right _ (h'.all l (Nat.not_lt.mp hmid) hlt)

/-- The labels of the first range may also come last. -/
theorem append_comm (h : Fresh lo mid code) (h' : Fresh mid hi code') :
    Fresh lo hi (code' ++ code) := by
  have hfresh := h.append h'
  have hperm : (labelsIn (code' ++ code)).Perm (labelsIn (code ++ code')) := by
    rw [labelsIn_append, labelsIn_append]
    exact perm_append_comm
  exact ⟨hfresh.le, hperm.nodup_iff.mpr hfresh.nodup,
    fun l hl => hfresh.range l (hperm.mem_iff.mp hl),
    fun l hle hlt => hperm.mem_iff.mpr (hfresh.all l hle hlt)⟩

end Fresh

/-- Only the labels matter, in any order. -/
theorem Fresh.of_perm (h : Fresh lo hi code) (hperm : (labelsIn code').Perm (labelsIn code)) :
    Fresh lo hi code' :=
  ⟨h.le, hperm.nodup_iff.mpr h.nodup, fun l hl => h.range l (hperm.mem_iff.mp hl),
    fun l hle hlt => hperm.mem_iff.mpr (h.all l hle hlt)⟩

/-- Operations that place no label may be added. -/
theorem Fresh.congr (h : Fresh lo hi code) (heq : labelsIn code' = labelsIn code) :
    Fresh lo hi code' :=
  h.of_perm (heq ▸ List.Perm.refl _)

@[simp] theorem labelsIn_nil : labelsIn [] = [] := rfl

@[simp] theorem labelsIn_cons (op : Operation) (code : List Operation) :
    labelsIn (op :: code) = op.placedLabel?.toList ++ labelsIn code := by
  cases h : op.placedLabel? with
  | none => exact filterMap_cons_none h
  | some l => exact filterMap_cons_some h

@[simp] theorem placedLabel?_push (c : Constant) : c.push.placedLabel? = none := by
  cases c <;> rfl

@[simp] theorem placedLabel?_exit (exit : Exit) : exit.operation.placedLabel? = none := by
  cases exit <;> rfl

/-- `isInert` operations place no label. -/
theorem labelsIn_of_isInert (h : ∀ o ∈ ops, o.isInert = true) : labelsIn ops = [] := by
  refine filterMap_eq_nil_iff.mpr fun o ho => ?_
  have hinert := h o ho
  cases o with
  | label => cases hinert
  | _ => rfl

theorem labelsIn_of_isBasic (h : ∀ o ∈ ops, o.isBasic = true) : labelsIn ops = [] :=
  labelsIn_of_isInert fun o ho => Operation.isInert_of_isBasic (h o ho)

/-- `assignPieces` places the labels of its value only. -/
theorem labelsIn_assign (h : Combines ty op ops) :
    labelsIn (ownCode (assignPieces op keep kind index ps ops)) = labelsIn (ownCode ps) := by
  rw [assignPieces, ownCode_append, ownCode_append, ownCode_plain, ownCode_plain, labelsIn_append,
    labelsIn_append, labelsIn_of_isBasic (isBasic_loadIf _ _ _),
    labelsIn_of_isInert (isInert_store h _ _ _), nil_append, append_nil]

@[simp] theorem labelsIn_cond (b : Bool) (code code' : List Operation) :
    labelsIn (bif b then code else code') = bif b then labelsIn code else labelsIn code' := by
  cases b <;> rfl

@[simp] theorem labelsIn_decideCode (op : BinaryOp) (done : Label) :
    labelsIn (decideCode op done) = [] := by
  cases op <;> rfl

@[simp] theorem labelsIn_unaryOps (op : UnaryOp) : labelsIn op.ops = [] := by
  cases op <;> rfl

theorem Uses.label_eq (h : Uses d argCount ctx ops ctx') : ctx'.label = ctx.label := by
  cases h <;> rfl

mutual

/-- The labels of an expression are new: `Context.label` counts them. -/
theorem ExprCode.fresh {e : Expr} {ctx ctx' : Context} {ps : List Piece}
    (h : ExprCode e ctx ps ctx') : Fresh ctx.label ctx'.label (ownCode ps) := by
  match h with
  | .literal => exact .of_labelsIn_eq_nil (by simp) _
  | .variable _ _ => exact .of_labelsIn_eq_nil rfl _
  | .constant _ _ => exact .of_labelsIn_eq_nil (by simp) _
  | .shortCircuit _ hleft hright =>
    -- the label of the end is older than those of the right operand, which it follows
    refine (hleft.fresh.append ((Fresh.label _).append_comm hright.fresh)).congr ?_
    simp [Operation.placedLabel?]
  | .nullTest _ _ _ hoperand =>
    refine hoperand.fresh.congr ?_
    simp [Operation.placedLabel?]
  | .operator _ _ hleft hright hops =>
    refine (hleft.fresh.append hright.fresh).congr ?_
    simp [labelsIn_of_isBasic (isBasic_operatorOps hops)]
  | .negated _ => exact .of_labelsIn_eq_nil rfl _
  | .unary _ hoperand =>
    refine hoperand.fresh.congr ?_
    simp
  | .assign _ hvalue hcombines => exact hvalue.fresh.congr (labelsIn_assign hcombines)
  | .call _ _ hargs huses =>
    rw [huses.label_eq]
    refine hargs.fresh.congr ?_
    simp [Piece.ownOps]
  | .property _ _ huses =>
    rw [huses.label_eq]
    exact .of_labelsIn_eq_nil rfl _
  | .length _ _ _ hobject =>
    refine hobject.fresh.congr ?_
    simp [Operation.placedLabel?]
  | .paren hinner => exact hinner.fresh

theorem ArgsCode.fresh {args : List Expr} {ctx ctx' : Context} {ps : List Piece}
    (h : ArgsCode args ctx ps ctx') : Fresh ctx.label ctx'.label (ownCode ps) := by
  match h with
  | .nil => exact .of_labelsIn_eq_nil rfl _
  | .cons hrest harg =>
    rw [ownCode_append]
    exact hrest.fresh.append harg.fresh

end

theorem DiscardedCode.fresh (h : DiscardedCode e ctx ps ctx') :
    Fresh ctx.label ctx'.label (ownCode ps) := by
  cases h with
  | assign _ _ hvalue hcombines => exact hvalue.fresh.congr (labelsIn_assign hcombines)
  | call _ _ _ hargs huses =>
    rw [huses.label_eq]
    refine hargs.fresh.congr ?_
    simp [Piece.ownOps, Operation.placedLabel?]
  | value _ hvalue =>
    refine hvalue.fresh.congr ?_
    simp [Operation.placedLabel?]

/-! ### Statements -/

/-- `partLabel` takes a label for a part that there is. -/
theorem fresh_partLabel {isThere : Bool} {next next' : Label} {l : Option Label}
    (h : partLabel isThere next = (l, next')) :
    Fresh next next' (l.toList.map Operation.label) := by
  cases isThere with
  | false =>
    cases h
    exact .of_labelsIn_eq_nil rfl _
  | true =>
    cases h
    exact .label next

theorem labelsIn_map_label (labels : List Label) : labelsIn (labels.map .label) = labels := by
  induction labels with
  | nil => rfl
  | cons l labels ih => exact congrArg (l :: ·) ih

theorem BindsException.label_eq (h : BindsException param ctx ops ctx') :
    ctx'.label = ctx.label ∧ labelsIn ops = [] := by
  cases h <;> exact ⟨rfl, rfl⟩

mutual

/-- The labels of a statement are new. -/
theorem StmtCode.fresh {n : Nesting} {s : Stmt} {ctx ctx' : Context} {ps : List Piece}
    (h : StmtCode n s ctx ps ctx') : Fresh ctx.label ctx'.label (ownCode ps) := by
  match h with
  | .expr he => exact he.fresh
  | .declare _ => exact .of_labelsIn_eq_nil rfl _
  | .declareAs hvalue _ =>
    refine hvalue.fresh.congr ?_
    simp [Operation.placedLabel?]
  | .return _ => exact .of_labelsIn_eq_nil (by simp [Piece.ownOps]) _
  | .returnAs hvalue _ =>
    refine hvalue.fresh.congr ?_
    simp [Piece.ownOps]
  | .throw hvalue =>
    refine hvalue.fresh.congr ?_
    simp [Operation.placedLabel?]
  | .break _ => exact .of_labelsIn_eq_nil (by simp) _
  | .continue _ => exact .of_labelsIn_eq_nil (by simp) _
  | .block hbody => exact hbody.fresh
  | .ifThen hcondition hthen =>
    -- the label where the test leads to is the oldest and comes last
    refine ((Fresh.label _).append_comm (hcondition.fresh.append hthen.fresh)).congr ?_
    simp [Operation.placedLabel?]
  | .ifElse hcondition hthen helse =>
    have hfirst := (Fresh.label _).append_comm (hcondition.fresh.append hthen.fresh)
    refine (hfirst.append ((Fresh.label _).append_comm helse.fresh)).congr ?_
    simp [Operation.placedLabel?]
  | .while hcondition hbody =>
    have hafter := (Fresh.label _).append_comm (hcondition.fresh.append hbody.fresh)
    refine ((Fresh.label _).append hafter).congr ?_
    simp [Operation.placedLabel?]
  | .try hlabel hlabel' hbody hhandler hfinalizer =>
    obtain ⟨code, hcode, hlabels⟩ := hhandler.fresh
    obtain ⟨code', hcode', hlabels'⟩ := hfinalizer.fresh
    -- all three labels of the statement are older than those of its parts
    refine ((((fresh_partLabel hlabel).append (fresh_partLabel hlabel')).append
      (Fresh.label _)).append ((hbody.fresh.append hcode).append hcode')).of_perm ?_
    rw [perm_iff_count]
    intro l
    simp [Operation.placedLabel?, hlabels, hlabels', labelsIn_map_label,
      count_append, count_cons]
    omega

theorem StmtsCode.fresh {n : Nesting} {ss : List Stmt} {ctx ctx' : Context} {ps : List Piece}
    (h : StmtsCode n ss ctx ps ctx') : Fresh ctx.label ctx'.label (ownCode ps) := by
  match h with
  | .nil => exact .of_labelsIn_eq_nil rfl _
  | .cons hfirst hrest =>
    rw [ownCode_append]
    exact hfirst.fresh.append hrest.fresh

theorem BlockCode.fresh {n : Nesting} {b : Block} {ctx ctx' : Context} {ps : List Piece}
    (h : BlockCode n b ctx ps ctx') : Fresh ctx.label ctx'.label (ownCode ps) := by
  match h with
  | .block hbody =>
    refine hbody.fresh.congr ?_
    simp [Operation.placedLabel?]

/-- The label of a handler was taken before, and the others are new. -/
theorem CatchCode.fresh {n : Nesting} {l : Option Label} {endLabel : Label}
    {c : Option CatchClause} {ctx ctx' : Context} {ps : List Piece}
    (h : CatchCode n l endLabel c ctx ps ctx') :
    ∃ code, Fresh ctx.label ctx'.label code ∧
      labelsIn (ownCode ps) = l.toList ++ labelsIn code := by
  match h with
  | .none => exact ⟨[], .of_labelsIn_eq_nil rfl _, rfl⟩
  | .some hbinds hbody =>
    obtain ⟨hlabel, hnone⟩ := hbinds.label_eq
    have hfresh := hbody.fresh
    rw [hlabel] at hfresh
    refine ⟨_, hfresh, ?_⟩
    simp [Operation.placedLabel?, hnone]

theorem FinallyCode.fresh {n : Nesting} {l : Option Label} {b : Option Block}
    {ctx ctx' : Context} {ps : List Piece} (h : FinallyCode n l b ctx ps ctx') :
    ∃ code, Fresh ctx.label ctx'.label code ∧
      labelsIn (ownCode ps) = l.toList ++ labelsIn code := by
  match h with
  | .none => exact ⟨[], .of_labelsIn_eq_nil rfl _, rfl⟩
  | .some hbody =>
    refine ⟨_, hbody.fresh, ?_⟩
    simp [Operation.placedLabel?]

end

/-- The labels of a body are all later than `Draft.returnTarget`. -/
theorem nodup_labelsIn_program {count : Nat} (h : Fresh (Draft.returnTarget + 1) count code) :
    (labelsIn (code ++ [Operation.label Draft.returnTarget, .return])).Nodup := by
  have hnodup := ((Fresh.label Draft.returnTarget).append_comm h).nodup
  rw [labelsIn_append] at hnodup ⊢
  exact hnodup

/-! ## Parameters -/

/-- The code of a function takes no parameters after those that are declared. -/
theorem piecewise_params : Piecewise fun ctx _ ctx' => ctx'.params = ctx.params where
  nil _ := rfl
  append h h' := h'.trans h
  op _ := rfl
  use _ _ huses := huses.sameNames.params_eq
  leave _ _ _ := rfl
  label _ _ := rfl
  declareLocal _ _ _ _ := rfl
  enclosed _ h := h

/-- Outside of the innermost frame all is the same. -/
structure Scope.SameOutside (scope scope' : Scope) : Prop where
  builtins_eq : scope'.builtins = scope.builtins
  rootFrame_eq : scope'.rootFrame = scope.rootFrame
  tail_eq : scope'.inner.tail = scope.inner.tail
  inner_ne : scope'.inner ≠ []

theorem Scope.SameOutside.trans {scope scope' scope'' : Scope} (h : Scope.SameOutside scope scope')
    (h' : Scope.SameOutside scope' scope'') : Scope.SameOutside scope scope'' :=
  ⟨h'.builtins_eq.trans h.builtins_eq, h'.rootFrame_eq.trans h.rootFrame_eq,
    h'.tail_eq.trans h.tail_eq, h'.inner_ne⟩

/-- A frame that was entered is left again. -/
theorem Scope.SameOutside.leave {name : String}
    (h : Scope.SameOutside (ctx.enter name).scope ctx'.scope) (hne : ctx.scope.inner ≠ []) :
    Scope.SameOutside ctx.scope ctx'.leave.scope :=
  ⟨h.builtins_eq, h.rootFrame_eq, congrArg List.tail h.tail_eq, h.tail_eq.trans_ne hne⟩

/-- Code changes at most the innermost frame. -/
theorem piecewise_outside : Piecewise fun ctx _ ctx' => ctx.scope.inner ≠ [] →
    Scope.SameOutside ctx.scope ctx'.scope where
  nil _ h := ⟨rfl, rfl, rfl, h⟩
  append h h' hne := (h hne).trans (h' (h hne).inner_ne)
  op _ h := ⟨rfl, rfl, rfl, h⟩
  use _ _ huses h := by
    rw [huses.sameNames.scope_eq]
    exact ⟨rfl, rfl, rfl, h⟩
  leave _ _ _ h := ⟨rfl, rfl, rfl, h⟩
  label _ _ h := ⟨rfl, rfl, rfl, h⟩
  declareLocal ctx id ty isMutable h := by
    show Scope.SameOutside ctx.scope (ctx.scope.push _)
    unfold Scope.push
    split
    · next hnil => exact absurd hnil h
    · next hinner => exact ⟨rfl, rfl, by rw [hinner]; rfl, cons_ne_nil _ _⟩
  enclosed _ h hne := (h (cons_ne_nil _ _)).leave hne

/-- `ParamsIn` declares each parameter. -/
theorem ParamsIn.size_eq {params : List Param} (h : ParamsIn params ctx ctx') :
    ctx'.params.size = ctx.params.size + params.length := by
  induction h with
  | nil => rfl
  | cons _ _ ih =>
    rw [ih, Context.declareParam, Array.size_push, length_cons]
    omega

theorem FunctionCode.params_size (h : FunctionCode decl ctx ps ctx') :
    ctx'.params.size = ctx.params.size + decl.params.length := by
  cases h with
  | none _ hparams => exact hparams.size_eq
  | some _ hparams hbody =>
    have hsame := piecewise_params.block hbody
    exact (congrArg Array.size hsame).trans hparams.size_eq

theorem ParamsIn.label_eq {params : List Param} (h : ParamsIn params ctx ctx') :
    ctx'.label = ctx.label := by
  induction h with
  | nil => rfl
  | cons _ _ ih => exact ih

/-- The labels of a function are new. -/
theorem FunctionCode.fresh (h : FunctionCode decl ctx ps ctx') :
    Fresh ctx.label ctx'.label (ownCode ps) := by
  cases h with
  | none _ hparams => exact hparams.label_eq ▸ .of_labelsIn_eq_nil rfl _
  | some _ hparams hbody =>
    have hfresh := hbody.fresh
    rwa [hparams.label_eq] at hfresh

end ContractScript
