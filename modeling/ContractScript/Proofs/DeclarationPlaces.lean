import ContractScript.Proofs.LocalStores

/-!
# Places of declarations

A local variable that is declared without a value gets a slot and no code. Its place is where the
code of the function is divided (`DeclaresAt`), and nothing in front of it stores to the slot.
-/

namespace ContractScript

/-! ## Constructs -/

/-- What can hold a declaration. -/
inductive Construct where
  | stmt (s : Stmt)
  | stmts (ss : List Stmt)
  | block (b : Block)

namespace Construct

/-- The code of a construct inside of loops and try statements. -/
def Code : Construct → Nesting → Context → List Piece → Context → Prop
  | .stmt s => fun n => StmtCode n s
  | .stmts ss => fun n => StmtsCode n ss
  | .block b => fun n => BlockCode n b

/-- A construct declares a local variable without a value, inside of so many of its loops. -/
inductive Declares (id : Ident) : Nat → Construct → Prop where
  | declare {ty : Ty} {isConst : Bool} {span : Span} :
    Declares id 0 (.stmt (.declare id ty none isConst span))
  | block {depth : Nat} {body : Block} :
    Declares id depth (.block body) → Declares id depth (.stmt (.block body))
  | braces {depth : Nat} {stmts : List Stmt} {span : Span} :
    Declares id depth (.stmts stmts) → Declares id depth (.block ⟨stmts, span⟩)
  | first {depth : Nat} {s : Stmt} {rest : List Stmt} :
    Declares id depth (.stmt s) → Declares id depth (.stmts (s :: rest))
  | later {depth : Nat} {s : Stmt} {rest : List Stmt} :
    Declares id depth (.stmts rest) → Declares id depth (.stmts (s :: rest))
  | thenOf {depth : Nat} {condition : Expr} {thenBranch : Stmt} {elseBranch : Option Stmt}
    {span : Span} : Declares id depth (.stmt thenBranch) →
    Declares id depth (.stmt (.if condition thenBranch elseBranch span))
  | elseOf {depth : Nat} {condition : Expr} {thenBranch elseBranch : Stmt} {span : Span} :
    Declares id depth (.stmt elseBranch) →
    Declares id depth (.stmt (.if condition thenBranch (some elseBranch) span))
  | while {depth : Nat} {condition : Expr} {body : Stmt} {span : Span} :
    Declares id depth (.stmt body) → Declares id (depth + 1) (.stmt (.while condition body span))
  | bodyOf {depth : Nat} {body : Block} {handler : Option CatchClause} {finalizer : Option Block}
    {span : Span} : Declares id depth (.block body) →
    Declares id depth (.stmt (.try body handler finalizer span))
  | handlerOf {depth : Nat} {body : Block} {param : Option Ident} {handler : Block}
    {finalizer : Option Block} {span span' : Span} : Declares id depth (.block handler) →
    Declares id depth (.stmt (.try body (some ⟨param, handler, span'⟩) finalizer span))
  | finalizerOf {depth : Nat} {body : Block} {handler : Option CatchClause} {finalizer : Block}
    {span : Span} : Declares id depth (.block finalizer) →
    Declares id depth (.stmt (.try body handler (some finalizer) span))

end Construct

/-- The code of a construct, divided where a local variable is declared without a value: the
declaration is inside of the loops and try statements of `m`, and `c` is what its lowering sees. -/
inductive DeclaresAt (id : Ident) (m : Nesting) (c : Context) :
    Nesting → Construct → Context → List Piece → List Piece → Context → Prop where
  | declare {ty : Ty} {isConst : Bool} {span : Span} :
    c.scope.isTaken id.name = false →
    DeclaresAt id m c m (.stmt (.declare id ty none isConst span)) c [] []
      (c.declareLocal id (ParamType.ofTy ty) (!isConst))
  | block {n : Nesting} {body : Block} {ctx ctx' : Context} {ps qs : List Piece} :
    DeclaresAt id m c n (.block body) ctx ps qs ctx' →
    DeclaresAt id m c n (.stmt (.block body)) ctx ps qs ctx'
  | braces {n : Nesting} {stmts : List Stmt} {span : Span} {ctx ctx' : Context}
    {ps qs : List Piece} :
    DeclaresAt id m c n (.stmts stmts) (ctx.enter "block") ps qs ctx' →
    DeclaresAt id m c n (.block ⟨stmts, span⟩) ctx (plain [.anchor] ++ ps) (qs ++ plain [.anchor])
      ctx'.leave
  | first {n : Nesting} {s : Stmt} {rest : List Stmt} {ctx ctx₁ ctx₂ : Context}
    {ps qs rs : List Piece} :
    DeclaresAt id m c n (.stmt s) ctx ps qs ctx₁ → StmtsCode n rest ctx₁ rs ctx₂ →
    DeclaresAt id m c n (.stmts (s :: rest)) ctx ps (qs ++ rs) ctx₂
  | later {n : Nesting} {s : Stmt} {rest : List Stmt} {ctx ctx₁ ctx₂ : Context}
    {ps qs rs : List Piece} :
    StmtCode n s ctx ps ctx₁ → DeclaresAt id m c n (.stmts rest) ctx₁ qs rs ctx₂ →
    DeclaresAt id m c n (.stmts (s :: rest)) ctx (ps ++ qs) rs ctx₂
  | ifThen {n : Nesting} {condition : Expr} {thenBranch : Stmt} {span : Span}
    {ctx ctx₁ ctx₂ : Context} {ps qs rs : List Piece} :
    ExprCode condition (ctx.withLabel (ctx.label + 1)) ps ctx₁ →
    DeclaresAt id m c n (.stmt thenBranch) ctx₁ qs rs ctx₂ →
    DeclaresAt id m c n (.stmt (.if condition thenBranch none span)) ctx
      (ps ++ plain [.jump .ifFalse ctx.label] ++ qs) (rs ++ plain [.label ctx.label]) ctx₂
  | thenOf {n : Nesting} {condition : Expr} {thenBranch elseBranch : Stmt} {span : Span}
    {ctx ctx₁ ctx₂ ctx₃ : Context} {ps qs rs us : List Piece} :
    ExprCode condition (ctx.withLabel (ctx.label + 1)) ps ctx₁ →
    DeclaresAt id m c n (.stmt thenBranch) ctx₁ qs rs ctx₂ →
    StmtCode n elseBranch (ctx₂.withLabel (ctx₂.label + 1)) us ctx₃ →
    DeclaresAt id m c n (.stmt (.if condition thenBranch (some elseBranch) span)) ctx
      (ps ++ plain [.jump .ifFalse ctx.label] ++ qs)
      (rs ++ plain [.jump .always ctx₂.label, .label ctx.label] ++ us ++ plain [.label ctx₂.label])
      ctx₃
  | elseOf {n : Nesting} {condition : Expr} {thenBranch elseBranch : Stmt} {span : Span}
    {ctx ctx₁ ctx₂ ctx₃ : Context} {ps qs rs us : List Piece} :
    ExprCode condition (ctx.withLabel (ctx.label + 1)) ps ctx₁ →
    StmtCode n thenBranch ctx₁ qs ctx₂ →
    DeclaresAt id m c n (.stmt elseBranch) (ctx₂.withLabel (ctx₂.label + 1)) rs us ctx₃ →
    DeclaresAt id m c n (.stmt (.if condition thenBranch (some elseBranch) span)) ctx
      (ps ++ plain [.jump .ifFalse ctx.label] ++ qs ++
        plain [.jump .always ctx₂.label, .label ctx.label] ++ rs)
      (us ++ plain [.label ctx₂.label]) ctx₃
  | while {n : Nesting} {condition : Expr} {body : Stmt} {span : Span} {ctx ctx₁ ctx₂ : Context}
    {ps qs rs : List Piece} :
    ExprCode condition (ctx.withLabel (ctx.label + 2)) ps ctx₁ →
    DeclaresAt id m c (n.enterLoop ctx.label (ctx.label + 1)) (.stmt body) ctx₁ qs rs ctx₂ →
    DeclaresAt id m c n (.stmt (.while condition body span)) ctx
      (plain [.label ctx.label] ++ ps ++ plain [.jump .ifFalse (ctx.label + 1)] ++ qs)
      (rs ++ plain [.jump .always ctx.label, .label (ctx.label + 1)]) ctx₂
  | bodyOf {n : Nesting} {body : Block} {handler : Option CatchClause} {finalizer : Option Block}
    {span : Span} {ctx ctx₁ ctx₂ ctx₃ : Context} {h f : Option Label} {next endLabel : Label}
    {ps qs rs us : List Piece} :
    partLabel handler.isSome ctx.label = (h, next) →
    partLabel finalizer.isSome next = (f, endLabel) →
    DeclaresAt id m c (n.within .body) (.block body) (ctx.withLabel (endLabel + 1)) ps qs ctx₁ →
    CatchCode (n.within .handler) h endLabel handler ctx₁ rs ctx₂ →
    FinallyCode (n.within .finalizer) f finalizer ctx₂ us ctx₃ →
    DeclaresAt id m c n (.stmt (.try body handler finalizer span)) ctx (plain [.try h f] ++ ps)
      (qs ++ plain [.endTry endLabel] ++ rs ++ us ++ plain [.label endLabel]) ctx₃
  | handlerOf {n : Nesting} {body : Block} {param : Option Ident} {handler : Block}
    {finalizer : Option Block} {span span' : Span} {ctx ctx₁ ctx₂ ctx₃ ctx₄ : Context} {l : Label}
    {f : Option Label} {next endLabel : Label} {ops : List Operation} {ps qs rs us : List Piece} :
    partLabel true ctx.label = (some l, next) →
    partLabel finalizer.isSome next = (f, endLabel) →
    BlockCode (n.within .body) body (ctx.withLabel (endLabel + 1)) ps ctx₁ →
    BindsException param (ctx₁.enter "catch") ops ctx₂ →
    DeclaresAt id m c (n.within .handler) (.block handler) ctx₂ qs rs ctx₃ →
    FinallyCode (n.within .finalizer) f finalizer ctx₃.leave us ctx₄ →
    DeclaresAt id m c n (.stmt (.try body (some ⟨param, handler, span'⟩) finalizer span)) ctx
      (plain [.try (some l) f] ++ ps ++ plain [.endTry endLabel] ++ (plain (.label l :: ops) ++ qs))
      (rs ++ plain [.endTry endLabel] ++ us ++ plain [.label endLabel]) ctx₄
  | finalizerOf {n : Nesting} {body : Block} {handler : Option CatchClause} {finalizer : Block}
    {span : Span} {ctx ctx₁ ctx₂ ctx₃ : Context} {h : Option Label} {l next endLabel : Label}
    {ps qs rs us : List Piece} :
    partLabel handler.isSome ctx.label = (h, next) →
    partLabel true next = (some l, endLabel) →
    BlockCode (n.within .body) body (ctx.withLabel (endLabel + 1)) ps ctx₁ →
    CatchCode (n.within .handler) h endLabel handler ctx₁ qs ctx₂ →
    DeclaresAt id m c (n.within .finalizer) (.block finalizer) ctx₂ rs us ctx₃ →
    DeclaresAt id m c n (.stmt (.try body handler (some finalizer) span)) ctx
      (plain [.try h (some l)] ++ ps ++ plain [.endTry endLabel] ++ qs ++ (plain [.label l] ++ rs))
      (us ++ plain [.simple .endFinally] ++ plain [.label endLabel]) ctx₃

namespace DeclaresAt

variable {id : Ident} {m n : Nesting} {c ctx ctx' : Context} {k : Construct} {ps qs : List Piece}

/-- `DeclaresAt` divides the code of the construct. -/
theorem code (h : DeclaresAt id m c n k ctx ps qs ctx') : k.Code n ctx (ps ++ qs) ctx' := by
  induction h with
  | declare htaken => exact .declare htaken
  | block _ ih => exact .block ih
  | braces _ ih => simpa [Construct.Code] using BlockCode.block ih
  | first _ hrest ih => simpa [Construct.Code] using StmtsCode.cons ih hrest
  | later hfirst _ ih => simpa [Construct.Code] using StmtsCode.cons hfirst ih
  | ifThen hcondition _ ih => simpa [Construct.Code] using StmtCode.ifThen hcondition ih
  | thenOf hcondition _ helse ih =>
    simpa [Construct.Code] using StmtCode.ifElse hcondition ih helse
  | elseOf hcondition hthen _ ih =>
    simpa [Construct.Code] using StmtCode.ifElse hcondition hthen ih
  | «while» hcondition _ ih => simpa [Construct.Code] using StmtCode.while hcondition ih
  | bodyOf hl hl' _ hhandler hfinalizer ih =>
    simpa [Construct.Code] using StmtCode.try hl hl' ih hhandler hfinalizer
  | @handlerOf n body param handler finalizer span span' _ _ _ _ _ _ _ _ _ _ _ _ _ _ hl hl' hbody
      hbinds _ hfinalizer ih =>
    have hcode : StmtCode n (.try body (some ⟨param, handler, span'⟩) finalizer span) _ _ _ :=
      .try hl hl' hbody (.some hbinds ih) hfinalizer
    simpa [Construct.Code] using hcode
  | @finalizerOf n body handler finalizer span _ _ _ _ _ _ _ _ _ _ _ _ hl hl' hbody hhandler _ ih =>
    have hcode : StmtCode n (.try body handler (some finalizer) span) _ _ _ :=
      .try hl hl' hbody hhandler (.some ih)
    simpa [Construct.Code] using hcode

/-- The loops around the construct are around the declaration too. -/
theorem loops_suffix (h : DeclaresAt id m c n k ctx ps qs ctx') : n.loops <:+ m.loops := by
  induction h with
  | declare _ => exact List.suffix_refl _
  | «while» _ _ ih => exact (List.suffix_cons _ _).trans ih
  | _ => assumption

end DeclaresAt

/-- Every declaration without a value has its place in the code, by `DeclaresAt`. -/
theorem Construct.Declares.declaresAt {id : Ident} {depth : Nat} {k : Construct}
    (h : k.Declares id depth) {n : Nesting} {ctx ctx' : Context} {ps : List Piece}
    (hcode : k.Code n ctx ps ctx') : ∃ m c qs rs, DeclaresAt id m c n k ctx qs rs ctx' ∧
      ps = qs ++ rs ∧ m.loops.length = n.loops.length + depth := by
  induction h generalizing n ctx ctx' ps with
  | declare =>
    cases hcode with
    | declare htaken => exact ⟨n, ctx, [], [], .declare htaken, rfl, rfl⟩
  | block _ ih =>
    cases hcode with
    | block hbody =>
      obtain ⟨m, c, qs, rs, hat, heq, hdepth⟩ := ih hbody
      exact ⟨m, c, qs, rs, .block hat, heq, hdepth⟩
  | braces _ ih =>
    cases hcode with
    | block hbody =>
      obtain ⟨m, c, qs, rs, hat, rfl, hdepth⟩ := ih hbody
      exact ⟨m, c, _, _, .braces hat, by simp, hdepth⟩
  | first _ ih =>
    cases hcode with
    | cons hfirst hrest =>
      obtain ⟨m, c, qs, rs, hat, rfl, hdepth⟩ := ih hfirst
      exact ⟨m, c, _, _, .first hat hrest, by simp, hdepth⟩
  | later _ ih =>
    cases hcode with
    | cons hfirst hrest =>
      obtain ⟨m, c, qs, rs, hat, rfl, hdepth⟩ := ih hrest
      exact ⟨m, c, _, _, .later hfirst hat, by simp, hdepth⟩
  | thenOf _ ih =>
    cases hcode with
    | ifThen hcondition hthen =>
      obtain ⟨m, c, qs, rs, hat, rfl, hdepth⟩ := ih hthen
      exact ⟨m, c, _, _, .ifThen hcondition hat, by simp, hdepth⟩
    | ifElse hcondition hthen helse =>
      obtain ⟨m, c, qs, rs, hat, rfl, hdepth⟩ := ih hthen
      exact ⟨m, c, _, _, .thenOf hcondition hat helse, by simp, hdepth⟩
  | elseOf _ ih =>
    cases hcode with
    | ifElse hcondition hthen helse =>
      obtain ⟨m, c, qs, rs, hat, rfl, hdepth⟩ := ih helse
      exact ⟨m, c, _, _, .elseOf hcondition hthen hat, by simp, hdepth⟩
  | «while» _ ih =>
    cases hcode with
    | «while» hcondition hbody =>
      obtain ⟨m, c, qs, rs, hat, rfl, hdepth⟩ := ih hbody
      refine ⟨m, c, _, _, .while hcondition hat, by simp, hdepth.trans ?_⟩
      exact Nat.succ_add_eq_add_succ _ _
  | bodyOf _ ih =>
    cases hcode with
    | «try» hl hl' hbody hhandler hfinalizer =>
      obtain ⟨m, c, qs, rs, hat, rfl, hdepth⟩ := ih hbody
      exact ⟨m, c, _, _, .bodyOf hl hl' hat hhandler hfinalizer, by simp, hdepth⟩
  | handlerOf _ ih =>
    cases hcode with
    | «try» hl hl' hbody hhandler hfinalizer =>
      cases hhandler with
      | some hbinds hhandler =>
        obtain ⟨m, c, qs, rs, hat, rfl, hdepth⟩ := ih hhandler
        exact ⟨m, c, _, _, .handlerOf hl hl' hbody hbinds hat hfinalizer, by simp, hdepth⟩
  | finalizerOf _ ih =>
    cases hcode with
    | «try» hl hl' hbody hhandler hfinalizer =>
      cases hfinalizer with
      | some hfinalizer =>
        obtain ⟨m, c, qs, rs, hat, rfl, hdepth⟩ := ih hfinalizer
        exact ⟨m, c, _, _, .finalizerOf hl hl' hbody hhandler hat, by simp, hdepth⟩

/-! ## What is stored before -/

variable {ctx ctx₁ c ctx' : Context} {ps qs : List Piece} {k : Construct} {n : Nesting}

/-- Between places where so many slots are taken, code stores only to those that are taken at a
point in between, and the next one is taken there. -/
structure StoresBefore (taken : Nat) (ps : List Piece) (c : Context) (total : Nat) : Prop where
  le_size : taken ≤ c.locals.size
  stores : StoresBelow c.locals.size ps
  size_lt : c.locals.size < total

/-- Code that `Stays` may stand before the point. -/
theorem Stays.before {total : Nat} (h : Stays ctx ps ctx₁)
    (h' : StoresBefore ctx₁.locals.size qs c total) :
    StoresBefore ctx.locals.size (ps ++ qs) c total where
  le_size := Nat.le_trans h.grows.locals_le h'.le_size
  stores := (h.stores.mono h'.le_size).append h'.stores
  size_lt := h'.size_lt

theorem Stays.behind {taken : Nat} (h : Stays ctx qs ctx₁)
    (h' : StoresBefore taken ps c ctx.locals.size) : StoresBefore taken ps c ctx₁.locals.size :=
  ⟨h'.le_size, h'.stores, Nat.lt_of_lt_of_le h'.size_lt h.grows.locals_le⟩

theorem Construct.Code.stays (h : k.Code n ctx ps ctx') (hctx : ctx.Bounded) :
    Stays ctx ps ctx' := by
  cases k with
  | stmt => exact piecewise_stays.stmt h hctx
  | stmts => exact piecewise_stays.stmts h hctx
  | block => exact piecewise_stays.block h hctx

/-- Nothing before a declaration stores to the slot of its variable, or to a later one. -/
theorem DeclaresAt.storesBefore {id : Ident} {m : Nesting}
    (h : DeclaresAt id m c n k ctx ps qs ctx') (hctx : ctx.Bounded) :
    StoresBefore ctx.locals.size ps c ctx'.locals.size := by
  induction h with
  | declare _ =>
    refine ⟨Nat.le_refl _, .of_slotCode rfl, ?_⟩
    exact Nat.lt_of_lt_of_eq (Nat.lt_succ_self _) (Array.size_push _).symm
  | block _ ih => exact ih hctx
  | braces _ ih => exact (Stays.ops hctx _ rfl).before (ih (hctx.enter "block"))
  | first hdeclares hrest ih =>
    exact (piecewise_stays.stmts hrest (hdeclares.code.stays hctx).bounded).behind (ih hctx)
  | later hfirst _ ih =>
    have hfirst' := piecewise_stays.stmt hfirst hctx
    exact hfirst'.before (ih hfirst'.bounded)
  | ifThen hcondition _ ih =>
    have hcondition' := piecewise_stays.labelled (piecewise_stays.expr hcondition) hctx
    exact (hcondition'.plain _ rfl).before (ih hcondition'.bounded)
  | thenOf hcondition hdeclares helse ih =>
    have hcondition' := piecewise_stays.labelled (piecewise_stays.expr hcondition) hctx
    have hthen' := hdeclares.code.stays hcondition'.bounded
    exact (piecewise_stays.stmt helse (hthen'.bounded.withLabel _)).behind
      ((hcondition'.plain _ rfl).before (ih hcondition'.bounded))
  | elseOf hcondition hthen _ ih =>
    have hcondition' := piecewise_stays.labelled (piecewise_stays.expr hcondition) hctx
    have hthen' := piecewise_stays.stmt hthen hcondition'.bounded
    exact (((hcondition'.plain _ rfl).trans hthen').plain _ rfl).before
      (ih (hthen'.bounded.withLabel _))
  | «while» hcondition _ ih =>
    have hcondition' := piecewise_stays.labelled (piecewise_stays.expr hcondition) hctx
    exact (((Stays.ops hctx _ rfl).trans hcondition').plain _ rfl).before (ih hcondition'.bounded)
  | bodyOf _ _ hdeclares hhandler hfinalizer ih =>
    have hbody' := hdeclares.code.stays (hctx.withLabel _)
    have hhandler' := piecewise_stays.handler hhandler hbody'.bounded
    exact (hhandler'.trans (piecewise_stays.finalizer hfinalizer hhandler'.bounded)).behind
      ((Stays.ops hctx _ rfl).before (ih (hctx.withLabel _)))
  | @handlerOf _ _ _ _ _ _ _ _ _ _ _ _ l _ _ _ _ _ _ _ _ _ _ hbody hbinds hdeclares hfinalizer ih =>
    have hbody' := piecewise_stays.labelled (piecewise_stays.block hbody) hctx
    -- the variable of the exception has its slot before anything in the handler
    have hbinds' := piecewise_stays.bindsException hbinds l (hbody'.bounded.enter "catch")
    have hinside := hbinds'.trans (hdeclares.code.stays hbinds'.bounded)
    have hhandler' := piecewise_stays.enclosed "catch" (fun _ => hinside) hbody'.bounded
    exact (piecewise_stays.finalizer hfinalizer hhandler'.bounded).behind
      ((((Stays.ops hctx _ rfl).trans hbody').plain _ rfl).before
        (hbinds'.before (ih hbinds'.bounded)))
  | finalizerOf _ _ hbody hhandler _ ih =>
    have hbody' := piecewise_stays.labelled (piecewise_stays.block hbody) hctx
    have hhandler' := piecewise_stays.handler hhandler hbody'.bounded
    refine ((((Stays.ops hctx _ rfl).trans hbody').plain _ rfl).trans hhandler').before ?_
    exact (Stays.ops hhandler'.bounded _ rfl).before (ih hhandler'.bounded)

end ContractScript
