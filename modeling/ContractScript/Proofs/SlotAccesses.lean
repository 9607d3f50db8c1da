import ContractScript.Proofs.LexicalScope
import ContractScript.Proofs.Origins

/-!
# Accesses to slots

The operations of a function on slots (`slotCode`) are the accesses to variables that its source
has, in order. So every slot that is read or written is there, and it is that of the innermost
variable of the name that stands in the source.
-/

namespace ContractScript

open List

variable {ty : Ty} {ops : List Operation} {op : Option BinaryOp} {slot : SlotKind × Nat}
  {e target : Expr} {kind : SlotKind} {index : Nat} {span : Span} {ps : List Piece}
  {params : List Param} {d d' : Declarations} {registry : Registry} {p : Program}

/-! ## Operations on slots -/

/-- Whether an `Operation` reads, writes or opens slots. -/
def Operation.isOnSlots : Operation → Bool
  | .load _ _ | .store _ _ | .initSlots _ _ | .initStatics _ => true
  | _ => false

/-- The `Operation`s on slots that constructs have of their own. -/
def slotCode (ps : List Piece) : List Operation :=
  (ownCode ps).filter Operation.isOnSlots

@[simp] theorem slotCode_nil : slotCode [] = [] := rfl

@[simp] theorem slotCode_append (ps qs : List Piece) :
    slotCode (ps ++ qs) = slotCode ps ++ slotCode qs := by
  rw [slotCode, ownCode_append, filter_append]
  rfl

@[simp] theorem slotCode_plain (ops : List Operation) :
    slotCode (plain ops) = ops.filter Operation.isOnSlots := by
  rw [slotCode, ownCode_plain]

@[simp] theorem slotCode_use (symbol : Symbol) (argCount : Nat) (isWanted : Bool)
    (ops : List Operation) (ps : List Piece) :
    slotCode (.use symbol argCount isWanted ops :: ps) = slotCode ps := rfl

@[simp] theorem isOnSlots_push (c : Constant) : c.push.isOnSlots = false := by
  cases c <;> rfl

@[simp] theorem isOnSlots_exit (exit : Exit) : exit.operation.isOnSlots = false := by
  cases exit <;> rfl

@[simp] theorem slotCode_leave (hasValue : Bool) (exit : Exit) (ps : List Piece) :
    slotCode (.leave hasValue exit.operation :: ps) = slotCode ps := by
  simp [slotCode, Piece.ownOps]

theorem filter_operatorOps {op : BinaryOp} (h : operatorOps? op ty = some ops) :
    ops.filter Operation.isOnSlots = [] := by
  unfold operatorOps? at h
  split at h
  · obtain ⟨opcode, -, rfl⟩ := Option.map_eq_some_iff.mp h
    rfl
  · split at h
    · split at h <;> cases h
      rfl
    · cases h
      rfl
    · cases h
      rfl
    · cases h

theorem filter_combines (h : Combines ty op ops) : ops.filter Operation.isOnSlots = [] := by
  cases op with
  | none =>
    cases h
    rfl
  | some op => exact filter_operatorOps h

@[simp] theorem filter_unaryOps (op : UnaryOp) : op.ops.filter Operation.isOnSlots = [] := by
  cases op <;> rfl

@[simp] theorem filter_decideCode (op : BinaryOp) (done : Label) :
    (decideCode op done).filter Operation.isOnSlots = [] := by
  cases op <;> rfl

@[simp] theorem filter_dropIf (isDropped : Bool) :
    (bif isDropped then [Operation.simple .drop] else []).filter Operation.isOnSlots = [] := by
  cases isDropped <;> rfl

@[simp] theorem filter_notIf (isNegated : Bool) :
    (bif isNegated then [Operation.simple .not] else []).filter Operation.isOnSlots = [] := by
  cases isNegated <;> rfl

/-- An assignment reads its variable if it combines it with the right side, and then writes it. -/
theorem slotCode_assign (h : Combines ty op ops) (keep : Bool) (kind : SlotKind) (index : Nat)
    (ps : List Piece) : slotCode (assignPieces op keep kind index ps ops) =
      (bif op.isSome then [Operation.load kind index] else []) ++ slotCode ps ++
        [Operation.store kind index] := by
  have hload : (bif op.isSome then [Operation.load kind index] else []).filter
      Operation.isOnSlots = bif op.isSome then [.load kind index] else [] := by
    cases op <;> rfl
  have hstore : (storeCode keep kind index).filter Operation.isOnSlots = [.store kind index] := by
    cases keep <;> rfl
  simp [assignPieces, filter_combines h, hload, hstore]

/-! ## Names -/

/-- The names of a `Scope` that stand for variables stand for those in scope. -/
def Scope.Resolves (scope : Scope) (vars : Variables) : Prop :=
  ∀ name, (scope.lookup name).bind slotOf? = vars.lookup name

namespace Scope.Resolves

variable {scope : Scope} {vars : Variables} {name : String} {symbol : Symbol}

/-- A name with a slot is an access to it. -/
theorem access_of_slot (h : scope.Resolves vars) (hlookup : scope.lookup name = some symbol)
    (hslot : slotOf? symbol = some slot) (isWrite : Bool) :
    vars.access isWrite name = [⟨name, isWrite, vars, slot⟩] := by
  have hname := h name
  rw [hlookup, Option.bind_some, hslot] at hname
  rw [Variables.access, ← hname]
  rfl

/-- A name without a slot is no access. -/
theorem access_of_not_slot (h : scope.Resolves vars) (hlookup : scope.lookup name = some symbol)
    (hslot : slotOf? symbol = none) (isWrite : Bool) : vars.access isWrite name = [] := by
  have hname := h name
  rw [hlookup, Option.bind_some, hslot] at hname
  rw [Variables.access, ← hname]
  rfl

end Scope.Resolves

variable {scope : Scope} {vars : Variables}

/-- `unparenthesized` keeps the accesses. -/
theorem Expr.accesses_unparenthesized (vars : Variables) (e : Expr) :
    e.unparenthesized.accesses vars = e.accesses vars := by
  match e with
  | .paren inner _ => exact accesses_unparenthesized vars inner
  | .literal _ _ _ | .ident _ _ _ | .binary _ _ _ _ _ | .unary _ _ _ _ | .assign _ _ _ _
  | .call _ _ _ _ | .member _ _ _ _ | .other _ _ => rfl

theorem Expr.accesses_of_isNullLiteral (vars : Variables) (h : e.isNullLiteral = true) :
    e.accesses vars = [] := by
  rw [← accesses_unparenthesized]
  unfold Expr.isNullLiteral at h
  split at h
  · next hliteral =>
    rw [hliteral]
    rfl
  · cases h

theorem Expr.accesses_of_intLiteral? (vars : Variables) {value : Int}
    (h : e.intLiteral? = some value) : e.accesses vars = [] := by
  rw [← accesses_unparenthesized]
  unfold Expr.intLiteral? at h
  split at h
  · next hliteral =>
    rw [hliteral]
    rfl
  · cases h

/-- An object of the host is no variable. -/
theorem Scope.Resolves.accesses_of_member? (h : scope.Resolves vars) {object : Expr}
    {name : String} {symbol : Symbol} (hmember : scope.member? object name = some symbol) :
    object.accesses vars = [] := by
  rw [← Expr.accesses_unparenthesized]
  unfold Scope.member? at hmember
  split at hmember
  · next id _ _ hobject =>
    rw [hobject]
    split at hmember
    · next hlookup => exact h.access_of_not_slot hlookup rfl false
    · cases hmember
  · cases hmember

/-- The target of an assignment names the variable that is written, as `assigned?` says. -/
theorem Scope.Resolves.accesses_of_assigned? (h : scope.Resolves vars)
    (hassigned : scope.assigned? target = some (kind, index)) :
    (target.accesses vars).map Access.operation = [.load kind index] ∧
      (target.writes vars).map Access.operation = [.store kind index] := by
  obtain ⟨id, _, _, symbol, htarget, hlookup, hdef⟩ := Scope.exists_of_assigned? hassigned
  have hslot : slotOf? symbol = some (kind, index) := by rw [slotOf?, hdef]
  have haccess := h.access_of_slot hlookup hslot
  rw [← Expr.accesses_unparenthesized, Expr.writes, htarget]
  constructor
  · show (vars.access false id.name).map Access.operation = _
    rw [haccess]
    rfl
  · show (vars.access true id.name).map Access.operation = _
    rw [haccess]
    rfl

/-! ## Expressions -/

variable {vars : Variables} {ctx ctx' : Context}

theorem map_assign {value : Expr}
    (h : (target.accesses vars).map Access.operation = [.load kind index] ∧
      (target.writes vars).map Access.operation = [.store kind index]) :
    ((Expr.assign op target value span).accesses vars).map Access.operation =
      (bif op.isSome then [Operation.load kind index] else []) ++
        (value.accesses vars).map Access.operation ++ [Operation.store kind index] := by
  cases op <;> simp [Expr.accesses, h]

mutual

/-- The `slotCode` of an expression is that of its accesses. -/
theorem ExprCode.slotCode_eq {e : Expr} {ctx ctx' : Context} {ps : List Piece} {vars : Variables}
    (h : ExprCode e ctx ps ctx') (hvars : ctx.scope.Resolves vars) :
    slotCode ps = (e.accesses vars).map Access.operation := by
  match h with
  | .literal => simp [Expr.accesses]
  | .variable hlookup hdef =>
    rw [Expr.accesses, hvars.access_of_slot hlookup (by rw [slotOf?, hdef])]
    rfl
  | .constant hlookup hdef =>
    rw [Expr.accesses, hvars.access_of_not_slot hlookup (by rw [slotOf?, hdef])]
    simp
  | .shortCircuit _ hleft hright =>
    have hright' := hright.slotCode_eq (hleft.sameNames.scope_eq ▸ hvars)
    simp [Expr.accesses, hleft.slotCode_eq hvars, hright', Operation.isOnSlots]
  | @ExprCode.nullTest op left right operand _ _ _ _ _ _ htests hoperand hcode =>
    -- the null literal accesses nothing, on whichever side it stands
    have hnull : operand.accesses vars = left.accesses vars ++ right.accesses vars := by
      rw [hoperand]
      split
      · next hright => rw [Expr.accesses_of_isNullLiteral vars hright, append_nil]
      · next hright =>
        have hleft : left.isNullLiteral = true := by
          simp only [BinaryOp.testsNull, Bool.and_eq_true, Bool.or_eq_true] at htests
          exact htests.2.resolve_right hright
        rw [Expr.accesses_of_isNullLiteral vars hleft, nil_append]
    simp [Expr.accesses, hcode.slotCode_eq hvars, hnull, Operation.isOnSlots]
  | .operator _ _ hleft hright hops =>
    have hright' := hright.slotCode_eq (hleft.sameNames.scope_eq ▸ hvars)
    simp [Expr.accesses, hleft.slotCode_eq hvars, hright', filter_operatorOps hops]
  | .negated hliteral =>
    simp [Expr.accesses, Expr.accesses_of_intLiteral? vars hliteral, Operation.isOnSlots]
  | .unary _ hoperand => simp [Expr.accesses, hoperand.slotCode_eq hvars]
  | .assign hassigned hvalue hcombines =>
    rw [slotCode_assign hcombines, map_assign (hvars.accesses_of_assigned? hassigned),
      hvalue.slotCode_eq hvars]
  | .call _ _ hargs _ => simp [Expr.accesses, hargs.slotCode_eq hvars]
  | .property hmember _ _ => simp [Expr.accesses, hvars.accesses_of_member? hmember]
  | .length _ _ _ hobject =>
    simp [Expr.accesses, hobject.slotCode_eq hvars, Operation.isOnSlots]
  | .paren hinner => exact hinner.slotCode_eq hvars

/-- Likewise of arguments. -/
theorem ArgsCode.slotCode_eq {args : List Expr} {ctx ctx' : Context} {ps : List Piece}
    {vars : Variables} (h : ArgsCode args ctx ps ctx') (hvars : ctx.scope.Resolves vars) :
    slotCode ps = (Expr.argAccesses vars args).map Access.operation := by
  match h with
  | .nil => rfl
  | .cons hrest harg =>
    have harg' := harg.slotCode_eq (hrest.sameNames.scope_eq ▸ hvars)
    simp [Expr.argAccesses, hrest.slotCode_eq hvars, harg']

end

/-- Likewise of an expression that stands as a statement. -/
theorem DiscardedCode.slotCode_eq (h : DiscardedCode e ctx ps ctx')
    (hvars : ctx.scope.Resolves vars) : slotCode ps = (e.accesses vars).map Access.operation := by
  rw [← Expr.accesses_unparenthesized]
  cases h with
  | assign he hassigned hvalue hcombines =>
    rw [he, slotCode_assign hcombines, map_assign (hvars.accesses_of_assigned? hassigned),
      hvalue.slotCode_eq hvars]
  | call he _ _ hargs _ =>
    rw [he]
    simp [Expr.accesses, hargs.slotCode_eq hvars]
  | value _ hvalue =>
    cases e.unparenthesized.ty.isVoid <;> simp [hvalue.slotCode_eq hvars, Operation.isOnSlots]

/-! ## Declarations and blocks -/

variable {scope : Scope} {symbol : Symbol}

/-- After `push` a name stands for its new symbol, and nothing else changes. -/
theorem Scope.lookup_push (h : scope.isTaken symbol.name = false) (name : String) :
    (scope.push symbol).lookup name =
      if name = symbol.name then some symbol else scope.lookup name := by
  rw [Scope.isTaken, Bool.or_eq_false_iff] at h
  obtain ⟨hframe, hbuiltins⟩ := h
  have hfree : findSymbol scope.frame.symbols symbol.name = none :=
    Option.isNone_iff_eq_none.mp (Option.isSome_eq_false_iff.mp hframe)
  have hnew : findSymbol [symbol] name = if name = symbol.name then some symbol else none := by
    by_cases hname : name = symbol.name
    · rw [if_pos hname]
      exact find?_cons_of_pos (beq_iff_eq.mpr hname.symm)
    · rw [if_neg hname]
      exact find?_cons_of_neg fun heq => hname (beq_iff_eq.mp heq).symm
  cases hinner : scope.inner with
  | nil =>
    have hroot : scope.frame = scope.rootFrame := by
      rw [Scope.frame, hinner]
      rfl
    rw [hroot] at hfree
    rw [Scope.push, hinner]
    simp only [Scope.lookup, hinner, findSome?_nil, findSymbol_append, hnew]
    by_cases hname : name = symbol.name
    · subst hname
      simp [hfree]
    · simp [hname]
  | cons f outer =>
    have hinnermost : scope.frame = f := by
      rw [Scope.frame, hinner]
      rfl
    rw [hinnermost] at hfree
    rw [Scope.push, hinner]
    simp only [Scope.lookup, hinner, findSome?_cons, findSymbol_append, hnew]
    by_cases hname : name = symbol.name
    · subst hname
      simp [hfree]
    · simp [hname]

/-- `push` puts a new variable in scope. -/
theorem Scope.Resolves.push {vars : Variables} (h : scope.Resolves vars)
    (htaken : scope.isTaken symbol.name = false) (hslot : slotOf? symbol = some slot) :
    (scope.push symbol).Resolves ((symbol.name, slot) :: vars) := by
  intro name
  rw [Scope.lookup_push htaken, lookup_cons]
  by_cases hname : name = symbol.name
  · -- the new variable hides others of its name
    rw [if_pos hname, beq_iff_eq.mpr hname]
    exact hslot
  · rw [if_neg hname, beq_eq_false_iff_ne.mpr hname]
    exact h name

/-- After a frame was left, names stand for what they stood for before it. -/
theorem Scope.SameOutside.lookup_leave {ctx ctx' : Context} {name : String}
    (h : Scope.SameOutside (ctx.enter name).scope ctx'.scope) (name' : String) :
    ctx'.leave.scope.lookup name' = ctx.scope.lookup name' := by
  have hinner : ctx'.leave.scope.inner = ctx.scope.inner := h.tail_eq
  have hroot : ctx'.leave.scope.rootFrame = ctx.scope.rootFrame := h.rootFrame_eq
  have hbuiltins : ctx'.leave.scope.builtins = ctx.scope.builtins := h.builtins_eq
  rw [Scope.lookup, Scope.lookup, hinner, hroot, hbuiltins]

/-! ## Statements -/

/-- What lowering sees agrees with what a walk through the source has met. -/
structure Mirrors (ctx : Context) (x : Survey) : Prop where
  resolves : ctx.scope.Resolves x.vars
  locals_eq : ctx.locals.toList = x.locals

namespace Mirrors

variable {ctx ctx' : Context} {x : Survey}

section

variable (h : Mirrors ctx x)
include h

theorem of_sameNames (hsame : ctx.SameNames ctx') : Mirrors ctx' x := by
  refine ⟨?_, ?_⟩
  · rw [hsame.scope_eq]
    exact h.resolves
  · rw [hsame.locals_eq]
    exact h.locals_eq

theorem visit (e : Expr) : Mirrors ctx (x.visit e) :=
  ⟨h.resolves, h.locals_eq⟩

theorem write (name : String) : Mirrors ctx (x.write name) :=
  ⟨h.resolves, h.locals_eq⟩

theorem enter (name : String) : Mirrors (ctx.enter name) x :=
  ⟨h.resolves, h.locals_eq⟩

theorem size_locals : ctx.locals.size = x.locals.length := by
  rw [← h.locals_eq, Array.length_toList]

/-- A declaration puts the next local slot in scope, in both. -/
theorem declare {id : Ident} (htaken : ctx.scope.isTaken id.name = false) (ty : ParamType)
    (isMutable : Bool) : Mirrors (ctx.declareLocal id ty isMutable) (x.declare id.name ty) := by
  refine ⟨?_, ?_⟩
  · rw [Survey.declare, ← h.size_locals]
    exact h.resolves.push htaken rfl
  · show (ctx.locals.push ⟨id.name, ty⟩).toList = x.locals ++ [⟨id.name, ty⟩]
    rw [Array.toList_push, h.locals_eq]

end

/-- Both go back to the names from before a frame. -/
theorem leave {before : Survey} {name : String} (h : Mirrors ctx' x) (hbefore : Mirrors ctx before)
    (houtside : Scope.SameOutside (ctx.enter name).scope ctx'.scope) :
    Mirrors ctx'.leave (x.leaveTo before) := by
  refine ⟨fun name' => ?_, h.locals_eq⟩
  rw [houtside.lookup_leave]
  exact hbefore.resolves name'

end Mirrors

variable {ctx ctx' : Context} {x : Survey}

/-- Code has the operations of the accesses that were met between two points of a walk, and leads
to what the second one says. -/
structure Surveys (x : Survey) (ps : List Piece) (ctx' : Context) (x' : Survey) : Prop where
  mirrors : Mirrors ctx' x'
  accesses_eq : x'.accesses.map Access.operation =
    x.accesses.map Access.operation ++ slotCode ps

/-- The code of an expression follows `visit`. -/
theorem ExprCode.surveys (h : ExprCode e ctx ps ctx') (hx : Mirrors ctx x) :
    Surveys x ps ctx' (x.visit e) := by
  refine ⟨(hx.visit e).of_sameNames h.sameNames, ?_⟩
  rw [h.slotCode_eq hx.resolves, Survey.visit, map_append]

/-- A new variable is written under its name. -/
theorem accesses_write_declare (x : Survey) (name : String) (ty : ParamType) :
    ((x.declare name ty).write name).accesses.map Access.operation =
      x.accesses.map Access.operation ++ [.store .local x.locals.length] := by
  have hlookup : (x.declare name ty).vars.lookup name = some (.local, x.locals.length) := by
    rw [Survey.declare, lookup_cons, beq_self_eq_true]
  rw [Survey.write, Variables.access, hlookup]
  simp [Survey.declare, Access.operation]

/-- The variable of a handler is declared and written. -/
theorem BindsException.surveys {param : Option Ident} (h : BindsException param ctx ops ctx')
    (hx : Mirrors ctx x) : Surveys x (plain ops) ctx'
      (param.elim x fun id => (x.declare id.name .any).write id.name) := by
  cases h with
  | drop => exact ⟨hx, by simp [Operation.isOnSlots]⟩
  | keep htaken =>
    refine ⟨(hx.declare htaken .any true).write _, ?_⟩
    rw [Option.elim_some, accesses_write_declare, hx.size_locals]
    rfl

theorem CatchClause.survey_eq (param : Option Ident) (body : Block) (span : Span) (x : Survey) :
    CatchClause.survey ⟨param, body, span⟩ x =
      (body.survey (param.elim x fun id => (x.declare id.name .any).write id.name)).leaveTo x := by
  cases param <;> rfl

theorem Stmt.survey_try (body : Block) (handler : Option CatchClause) (finalizer : Option Block)
    (span : Span) (x : Survey) :
    (Stmt.try body handler finalizer span).survey x =
      finalizer.elim (handler.elim (body.survey x) (·.survey (body.survey x)))
        (·.survey (handler.elim (body.survey x) (·.survey (body.survey x)))) := by
  cases handler <;> cases finalizer <;> rfl

mutual

/-- The code of a statement follows `Stmt.survey`. -/
theorem StmtCode.surveys {n : Nesting} {s : Stmt} {ctx ctx' : Context} {ps : List Piece}
    {x : Survey} (h : StmtCode n s ctx ps ctx') (hx : Mirrors ctx x) :
    Surveys x ps ctx' (s.survey x) := by
  match h with
  | .expr he =>
    refine ⟨(hx.visit _).of_sameNames he.sameNames, ?_⟩
    rw [Stmt.survey, he.slotCode_eq hx.resolves, Survey.visit, map_append]
  | .declare htaken => exact ⟨hx.declare htaken _ _, (append_nil _).symm⟩
  | .declareAs hvalue htaken =>
    -- the value is lowered before its name is in scope
    obtain ⟨hx₁, hvalue'⟩ := hvalue.surveys hx
    refine ⟨(hx₁.declare htaken _ _).write _, ?_⟩
    rw [Stmt.survey, accesses_write_declare, hvalue', ← hx₁.size_locals, slotCode_append,
      append_assoc]
    rfl
  | .return _ => exact ⟨hx, by simp [Stmt.survey]⟩
  | .returnAs hvalue _ =>
    obtain ⟨hx₁, hvalue'⟩ := hvalue.surveys hx
    exact ⟨hx₁, by simp [Stmt.survey, hvalue']⟩
  | .throw hvalue =>
    obtain ⟨hx₁, hvalue'⟩ := hvalue.surveys hx
    exact ⟨hx₁, by simp [Stmt.survey, hvalue', Operation.isOnSlots]⟩
  | .break _ => exact ⟨hx, by simp [Stmt.survey]⟩
  | .continue _ => exact ⟨hx, by simp [Stmt.survey]⟩
  | .block hbody => exact hbody.surveys hx
  | .ifThen hcondition hthen =>
    obtain ⟨hx₁, hcondition'⟩ := hcondition.surveys (hx.of_sameNames (.withLabel _ _))
    obtain ⟨hx₂, hthen'⟩ := hthen.surveys hx₁
    exact ⟨hx₂, by simp [Stmt.survey, hcondition', hthen', Operation.isOnSlots]⟩
  | .ifElse hcondition hthen helse =>
    obtain ⟨hx₁, hcondition'⟩ := hcondition.surveys (hx.of_sameNames (.withLabel _ _))
    obtain ⟨hx₂, hthen'⟩ := hthen.surveys hx₁
    obtain ⟨hx₃, helse'⟩ := helse.surveys (hx₂.of_sameNames (.withLabel _ _))
    exact ⟨hx₃, by simp [Stmt.survey, hcondition', hthen', helse', Operation.isOnSlots]⟩
  | .while hcondition hbody =>
    obtain ⟨hx₁, hcondition'⟩ := hcondition.surveys (hx.of_sameNames (.withLabel _ _))
    obtain ⟨hx₂, hbody'⟩ := hbody.surveys hx₁
    exact ⟨hx₂, by simp [Stmt.survey, hcondition', hbody', Operation.isOnSlots]⟩
  | .try _ _ hbody hhandler hfinalizer =>
    obtain ⟨hx₁, hbody'⟩ := hbody.surveys (hx.of_sameNames (.withLabel _ _))
    obtain ⟨hx₂, hhandler'⟩ := hhandler.surveys hx₁
    obtain ⟨hx₃, hfinalizer'⟩ := hfinalizer.surveys hx₂
    rw [Stmt.survey_try]
    refine ⟨hx₃, ?_⟩
    rw [hfinalizer', hhandler', hbody']
    simp [Operation.isOnSlots]

theorem StmtsCode.surveys {n : Nesting} {ss : List Stmt} {ctx ctx' : Context} {ps : List Piece}
    {x : Survey} (h : StmtsCode n ss ctx ps ctx') (hx : Mirrors ctx x) :
    Surveys x ps ctx' (Stmt.surveyAll ss x) := by
  match h with
  | .nil => exact ⟨hx, (append_nil _).symm⟩
  | .cons hfirst hrest =>
    obtain ⟨hx₁, hfirst'⟩ := hfirst.surveys hx
    obtain ⟨hx₂, hrest'⟩ := hrest.surveys hx₁
    exact ⟨hx₂, by rw [Stmt.surveyAll, hrest', hfirst', slotCode_append, append_assoc]⟩

theorem BlockCode.surveys {n : Nesting} {b : Block} {ctx ctx' : Context} {ps : List Piece}
    {x : Survey} (h : BlockCode n b ctx ps ctx') (hx : Mirrors ctx x) :
    Surveys x ps ctx' (b.survey x) := by
  match h with
  | .block hbody =>
    obtain ⟨hx₁, hbody'⟩ := hbody.surveys (hx.enter "block")
    have houtside := piecewise_outside.stmts hbody (cons_ne_nil _ _)
    refine ⟨hx₁.leave hx houtside, ?_⟩
    rw [Block.survey, Survey.leaveTo, hbody']
    simp [Operation.isOnSlots]

/-- A handler that is not there changes nothing. -/
theorem CatchCode.surveys {n : Nesting} {l : Option Label} {endLabel : Label}
    {c : Option CatchClause} {ctx ctx' : Context} {ps : List Piece} {x : Survey}
    (h : CatchCode n l endLabel c ctx ps ctx') (hx : Mirrors ctx x) :
    Surveys x ps ctx' (c.elim x (·.survey x)) := by
  match h with
  | .none => exact ⟨hx, (append_nil _).symm⟩
  | .some hbinds hbody =>
    obtain ⟨hx₁, hbinds'⟩ := hbinds.surveys (hx.enter "catch")
    obtain ⟨hx₂, hbody'⟩ := hbody.surveys hx₁
    have hfirst := piecewise_outside.bindsException hbinds 0 (cons_ne_nil _ _)
    have houtside := hfirst.trans (piecewise_outside.block hbody hfirst.inner_ne)
    rw [Option.elim_some, CatchClause.survey_eq]
    refine ⟨hx₂.leave hx houtside, ?_⟩
    rw [Survey.leaveTo, hbody', hbinds']
    simp [Operation.isOnSlots]

theorem FinallyCode.surveys {n : Nesting} {l : Option Label} {b : Option Block}
    {ctx ctx' : Context} {ps : List Piece} {x : Survey} (h : FinallyCode n l b ctx ps ctx')
    (hx : Mirrors ctx x) : Surveys x ps ctx' (b.elim x (·.survey x)) := by
  match h with
  | .none => exact ⟨hx, (append_nil _).symm⟩
  | .some hbody =>
    obtain ⟨hx₁, hbody'⟩ := hbody.surveys hx
    exact ⟨hx₁, by simp [hbody', Operation.isOnSlots]⟩

end

/-! ## Functions -/

variable {ctx ctx' : Context} {vars : Variables}

/-- Parameters are in scope once they are declared (`ParamsIn`), the last one first. -/
theorem ParamsIn.resolves (h : ParamsIn params ctx ctx') (hvars : ctx.scope.Resolves vars) :
    ctx'.scope.Resolves ((((params.map (·.id.name)).zipIdx ctx.params.size).map
      fun (name, index) => (name, SlotKind.argument, index)).reverse ++ vars) := by
  induction h generalizing vars with
  | nil => exact hvars
  | @cons param rest ctx ctx' htaken _ ih =>
    have hparam : Scope.Resolves
        (ctx.declareParam param.id.name param.span (ParamType.ofTy param.ty)).scope
        ((param.id.name, .argument, ctx.params.size) :: vars) :=
      hvars.push htaken rfl
    have hrest := ih hparam
    rw [Context.declareParam, Array.size_push] at hrest
    rw [map_cons, zipIdx_cons, map_cons, reverse_cons, append_assoc]
    exact hrest

theorem ParamsIn.locals_eq (h : ParamsIn params ctx ctx') : ctx'.locals = ctx.locals := by
  induction h with
  | nil => rfl
  | cons _ _ ih => exact ih

/-- The code of a function follows `FunctionDecl.survey`. -/
theorem FunctionCode.surveys {decl : FunctionDecl} {scope : Scope} {tokens : TokenTable}
    (h : FunctionCode decl ⟨scope, #[], #[], 1, tokens⟩ ps ctx) (hvars : scope.Resolves vars) :
    ctx.locals.toList = (decl.survey vars).locals ∧
      (decl.survey vars).accesses.map Access.operation = slotCode ps := by
  unfold FunctionDecl.survey
  cases h with
  | none hbody hparams =>
    rw [hbody]
    exact ⟨congrArg Array.toList hparams.locals_eq, rfl⟩
  | some hbody hparams hcode =>
    rw [hbody]
    have hstart := (hparams.resolves hvars : Scope.Resolves _ _)
    obtain ⟨hmirrors, haccesses⟩ := hcode.surveys
      (x := ⟨_, [], []⟩) ⟨hstart, congrArg Array.toList hparams.locals_eq⟩
    exact ⟨hmirrors.locals_eq, haccesses⟩

/-- The code for the values of static variables follows the walk through them. -/
theorem StaticsCode.surveys {decls : List StaticDecl} {x : Survey}
    (h : StaticsCode decls index ctx ps ctx') (hx : Mirrors ctx x)
    (hfound : ∀ k decl, decls[k]? = some decl →
      x.vars.lookup decl.id.name = some (.static, index + k)) :
    Surveys x ps ctx' (decls.foldl StaticDecl.survey x) := by
  induction h generalizing x with
  | nil => exact ⟨hx, (append_nil _).symm⟩
  | @skip decl rest index _ _ _ hinit _ ih =>
    rw [foldl_cons, StaticDecl.survey, hinit]
    refine ih hx fun k decl' hk => ?_
    have hindex : index + 1 + k = index + (k + 1) := by omega
    rw [hindex]
    exact hfound (k + 1) decl' hk
  | @fill decl rest value index _ _ _ _ _ hinit hvalue _ ih =>
    rw [foldl_cons, StaticDecl.survey, hinit]
    obtain ⟨hx₁, hvalue'⟩ := hvalue.surveys hx
    have hlater : ∀ k decl', rest[k]? = some decl' →
        ((x.visit value).write decl.id.name).vars.lookup decl'.id.name =
          some (.static, index + 1 + k) := by
      intro k decl' hk
      have hindex : index + 1 + k = index + (k + 1) := by omega
      rw [hindex]
      exact hfound (k + 1) decl' hk
    obtain ⟨hx₂, hrest⟩ := ih (hx₁.write decl.id.name) hlater
    have hlookup : (x.visit value).vars.lookup decl.id.name = some (.static, index) :=
      hfound 0 decl rfl
    refine ⟨hx₂, hrest.trans ?_⟩
    rw [Survey.write, Variables.access, hlookup, map_append, hvalue']
    simp only [slotCode_append, append_assoc]
    rfl

/-! ## Global names -/

namespace Declarations

/-- The static variables declared so far. -/
def staticVariables (d : Declarations) : Variables :=
  numbered .static (d.statics.map (·.id.name))

/-- The variables among the global names are the static ones, each under its number. -/
structure FindsStatics (d : Declarations) : Prop where
  resolves : ∀ name, (findSymbol d.scope.rootFrame.symbols name).bind slotOf? =
    d.staticVariables.lookup name
  found : ∀ (k : Nat) decl, d.statics[k]? = some decl →
    d.staticVariables.lookup decl.id.name = some (.static, k)

/-- A function or a constant is no variable. -/
theorem FindsStatics.define (h : d.FindsStatics) {symbol : Symbol}
    (hsymbols : d'.scope.rootFrame.symbols = d.scope.rootFrame.symbols ++ [symbol])
    (hstatics : d'.statics = d.statics) (hslot : slotOf? symbol = none) : d'.FindsStatics := by
  have hvars : d'.staticVariables = d.staticVariables := by
    rw [staticVariables, hstatics]
    rfl
  refine ⟨fun name => ?_, ?_⟩
  · have hnew : (findSymbol [symbol] name).bind slotOf? = none := by
      rw [findSymbol, find?_cons]
      split
      · exact hslot
      · rfl
    rw [hvars, ← h.resolves name, hsymbols, findSymbol_append]
    cases findSymbol d.scope.rootFrame.symbols name with
    | none => exact hnew
    | some _ => rfl
  · rw [hvars, hstatics]
    exact h.found

/-- `addStatic` gives the next number to a static variable. -/
theorem FindsStatics.addStatic (h : d.FindsStatics) {decl : StaticDecl} {symbol : Symbol}
    (hfree : findSymbol d.scope.rootFrame.symbols decl.id.name = none)
    (hname : symbol.name = decl.id.name)
    (hslot : slotOf? symbol = some (.static, d.statics.length))
    (hsymbols : d'.scope.rootFrame.symbols = d.scope.rootFrame.symbols ++ [symbol])
    (hstatics : d'.statics = d.statics ++ [decl]) : d'.FindsStatics := by
  have hvars : d'.staticVariables =
      d.staticVariables ++ [(decl.id.name, .static, d.statics.length)] := by
    rw [staticVariables, hstatics, staticVariables, numbered, numbered, map_append,
      zipIdx_append, map_append, length_map, Nat.zero_add]
    rfl
  -- the name is new, so no static variable before has it
  have hnone : d.staticVariables.lookup decl.id.name = none := by
    rw [← h.resolves, hfree]
    rfl
  refine ⟨fun name => ?_, fun k decl' hk => ?_⟩
  · rw [hvars, hsymbols, findSymbol_append, lookup_append, lookup_cons]
    by_cases heq : name = decl.id.name
    · have hsymbol : findSymbol [symbol] name = some symbol :=
        find?_cons_of_pos (beq_iff_eq.mpr (hname.trans heq.symm))
      rw [hsymbol, beq_iff_eq.mpr heq, heq, hfree, hnone]
      exact hslot
    · have hsymbol : findSymbol [symbol] name = none :=
        find?_cons_of_neg fun h => heq ((beq_iff_eq.mp h).symm.trans hname)
      rw [hsymbol, beq_eq_false_iff_ne.mpr heq, lookup_nil, Option.or_none, Option.or_none]
      exact h.resolves name
  · rw [hstatics] at hk
    rw [hvars, lookup_append]
    rcases getElem?_concat_cases hk with hk | ⟨rfl, rfl⟩
    · rw [h.found k decl' hk]
      rfl
    · rw [hnone, lookup_cons, beq_self_eq_true]
      rfl

/-- `addItem` keeps the static variables under their numbers, unless there is a fault. -/
theorem findsStatics_addItem (hinner : d.scope.inner = []) {item : Item}
    (hfaults : (d.addItem item).faults = []) :
    d.faults = [] ∧ (d.FindsStatics → (d.addItem item).FindsStatics) := by
  have hadds := adds_addItem d item
  generalize d.addItem item = d' at hfaults hadds ⊢
  cases hadds with
  | nothing => exact ⟨hfaults, id⟩
  | fault fault => cases (append_eq_nil_iff.mp hfaults).2
  | function decl =>
    obtain ⟨hfaults', -, symbol, -, hdef, hsymbols⟩ :=
      exists_of_define (d := { d with functions := d.functions ++ [decl] }) hinner hfaults
    exact ⟨hfaults', fun h => h.define hsymbols (statics_define _ _ _ _) (by rw [slotOf?, hdef])⟩
  | constant name span value =>
    obtain ⟨hfaults', -, symbol, -, hdef, hsymbols⟩ := exists_of_define hinner hfaults
    exact ⟨hfaults', fun h => h.define hsymbols (statics_define _ _ _ _) (by rw [slotOf?, hdef])⟩
  | static decl =>
    obtain ⟨hfaults', hfree, symbol, hname, hdef, hsymbols⟩ :=
      exists_of_define (d := { d with statics := d.statics ++ [decl] }) hinner hfaults
    exact ⟨hfaults', fun h => h.addStatic hfree hname (by rw [slotOf?, hdef]) hsymbols
      (statics_define _ _ _ _)⟩

end Declarations

open Declarations

/-- `declare` finds all static variables under their numbers, unless there is a fault. -/
theorem findsStatics_declare (h : (declare registry p).faults = []) :
    (declare registry p).FindsStatics := by
  have hinner : (declareItems registry p).scope.inner = [] :=
    (extends_declareItems registry p).inner_eq
  have hitems : (declareItems registry p).faults = [] → (declareItems registry p).FindsStatics :=
    fun hfaults => (foldl_addItem findsStatics_addItem p.items
      { scope := Scope.root "global" registry } rfl hfaults).2
      ⟨fun _ => rfl, nofun⟩
  rcases addInitializer_cases (declareItems registry p) with heq | ⟨span, heq⟩
  · have hdeclared : declare registry p = declareItems registry p := heq
    rw [hdeclared] at h ⊢
    exact hitems h
  · let d := declareItems registry p
    obtain ⟨hfaults, -, symbol, -, hdef, hsymbols⟩ :=
      exists_of_define (d := { d with initializer := some d.functions.length }) hinner
        ((congrArg faults heq).symm.trans h)
    have hdeclared : declare registry p = _ := heq
    rw [hdeclared]
    exact (hitems hfaults).define hsymbols (statics_define _ _ _ _) (by rw [slotOf?, hdef])

theorem bind_slotOf?_eq_none (h : ValueFree registry) (name : String) :
    (registry.lookup name).bind slotOf? = none := by
  cases hlookup : registry.lookup name with
  | none => rfl
  | some symbol =>
    have hvalue := h symbol (mem_of_find?_eq_some hlookup)
    rw [Option.bind_some, slotOf?]
    split
    · next hdef =>
      rw [hdef] at hvalue
      cases hvalue
    · rfl

/-- Without faults the global names that are variables are the static ones. -/
theorem resolves_declared (h : p.declared.faults = []) :
    p.declared.scope.Resolves p.staticVariables ∧
      ∀ (k : Nat) decl, p.statics[k]? = some decl →
        p.staticVariables.lookup decl.id.name = some (.static, k) := by
  have hfinds : p.declared.FindsStatics := findsStatics_declare h
  have hvars : p.declared.staticVariables = p.staticVariables := by
    rw [Declarations.staticVariables, statics_declared]
    rfl
  refine ⟨fun name => ?_, ?_⟩
  · rw [← hvars, ← hfinds.resolves name]
    have hlookup : p.declared.scope.lookup name =
        (findSymbol p.declared.scope.rootFrame.symbols name <|>
          p.declared.scope.builtins.lookup name) := by
      rw [Scope.lookup_eq, show p.declared.scope.inner = [] from inner_declare _ p]
      rfl
    rw [hlookup]
    cases findSymbol p.declared.scope.rootFrame.symbols name with
    | some symbol => rfl
    | none =>
      -- what the host provides is no variable
      have hbuiltins : p.declared.scope.builtins = (bindProgram p).1 :=
        (extends_declare _ p).builtins_eq.trans (extends_declareItems _ p).builtins_eq
      show (p.declared.scope.builtins.lookup name).bind slotOf? = none
      rw [hbuiltins]
      exact bind_slotOf?_eq_none (valueFree_bindProgram p) name
  · rw [← hvars, ← statics_declared]
    exact hfinds.found

end ContractScript
