import ContractScript.Proofs.Transfers

/-!
# Lowered functions keep their meaning

The code of a structured construct does what the construct does, whichever way it ends. So the code
of a function, as it is finished, returns what the function returns and leaves the static variables
as it does, and it does not return where the function does not.
-/

namespace ContractScript

open List

variable {V : Type} {I : Interpretation V} {g : Globals V} {extent : Extent}
  {program code : List Operation} {frames : List Frame} {run : Store V → Option (V × Store V)}
  {e target : Expr} {scope : Scope} {ctx ctx' ctx₁ ctx₂ : Context} {ps : List Piece}
  {kind : SlotKind} {index fuel : Nat} {decl : FunctionDecl}

/-! ## Expressions -/

/-- `integerOpcode?` gives the opcode that applies the operator. -/
theorem operation_integerOpcode {op : BinaryOp} {o : Opcode}
    (h : integerOpcode? op = some o) (x y : V) (stack : List V) (vars : Vars V) :
    I.operation (.simple o) (y :: x :: stack) vars = some (I.binary op x y :: stack, vars) := by
  cases op <;> cases h <;> rfl

/-- Parentheses have no meaning. -/
theorem eval_unparenthesized (e : Expr) (σ : Store V) :
    I.eval g e.unparenthesized σ = I.eval g e σ := by
  match e with
  | .paren inner _ => exact eval_unparenthesized inner σ
  | .literal _ _ _ | .ident _ _ _ | .binary _ _ _ _ _ | .unary _ _ _ _ | .assign _ _ _ _
  | .call _ _ _ _ | .member _ _ _ _ | .other _ _ => rfl

theorem eval_intLiteral {n : Int} (h : e.intLiteral? = some n) (σ : Store V) :
    I.eval g e σ = some (I.constant (.int n), σ) := by
  rw [← eval_unparenthesized]
  unfold Expr.intLiteral? at h
  split at h
  · next hliteral =>
    cases h
    rw [hliteral]
    rfl
  · cases h

theorem isStructured_unparenthesized (e : Expr) :
    e.unparenthesized.isStructured = e.isStructured := by
  match e with
  | .paren inner _ => exact isStructured_unparenthesized inner
  | .literal _ _ _ | .ident _ _ _ | .binary _ _ _ _ _ | .unary _ _ _ _ | .assign _ _ _ _
  | .call _ _ _ _ | .member _ _ _ _ | .other _ _ => rfl

/-- `operatorOps?` gives one opcode for an operator on integers. -/
theorem exists_integerOpcode {op : BinaryOp} {ty : Ty} {ops : List Operation}
    (h : operatorOps? op ty = some ops) (hty : ty.isInteger = true) :
    ∃ o, integerOpcode? op = some o ∧ ops = [.simple o] := by
  have hops : operatorOps? op ty = (integerOpcode? op).map fun o => [.simple o] := if_pos hty
  rw [hops] at h
  obtain ⟨o, ho, rfl⟩ := Option.map_eq_some_iff.mp h
  exact ⟨o, ho, rfl⟩

/-- `isNull` tests the value for null, or for the opposite. -/
theorem Computes.testNull (h : Computes I extent program frames true run code) (op : BinaryOp) :
    Computes I extent program frames true
      (fun σ => (run σ).bind fun (v, σ) => some (I.testNull op v, σ))
      (code ++ .simple .isNull :: (bif op == .notEqual then [.simple .not] else [])) := by
  have hnull := h.apply (.simple .isNull) rfl fun _ _ _ => rfl
  by_cases hop : op = .notEqual
  · subst hop
    have hnot := hnull.apply (.simple .not) rfl fun _ _ _ => rfl
    rw [append_assoc] at hnot
    refine hnot.congr fun σ => ?_
    cases run σ <;> rfl
  · have htest : ∀ v, I.testNull op v = I.isNull v := fun v => if_neg hop
    rw [beq_eq_false_iff_ne.mpr hop]
    refine hnull.congr fun σ => ?_
    simp only [htest]

/-- `UnaryOp.ops` apply an operator to the value. -/
theorem Computes.unary (h : Computes I extent program frames true run code) (op : UnaryOp) :
    Computes I extent program frames true
      (fun σ => (run σ).bind fun (v, σ) => some (I.applyUnary op v, σ)) (code ++ op.ops) := by
  cases op with
  | plus =>
    -- a plus is lowered to no operation at all
    rw [UnaryOp.ops, append_nil]
    refine h.congr fun σ => ?_
    cases run σ <;> rfl
  | not => exact h.apply _ rfl fun _ _ _ => rfl
  | neg => exact h.apply _ rfl fun _ _ _ => rfl
  | bitNot => exact h.apply _ rfl fun _ _ _ => rfl

/-- `assignPieces` do what an assignment does, whether the value is kept or not. -/
theorem computes_assign {op : Option BinaryOp} {value : Expr} {ops : List Operation}
    (hset : Setting I g extent program scope)
    (hassigned : scope.assigned? target = some (kind, index))
    (h : Computes I extent program scope.inner true (I.eval g value) (codeOf ps))
    (hcombines : Combines target.ty op ops) (hty : (op.isNone || target.ty.isInteger) = true)
    (keep : Bool) (span : Span) :
    Computes I extent program scope.inner keep (I.eval g (.assign op target value span))
      (codeOf (assignPieces op keep kind index ps ops)) := by
  obtain ⟨id, ty, idSpan, symbol, htarget, hlookup, hdef⟩ := Scope.exists_of_assigned? hassigned
  rw [assignPieces, codeOf_append, codeOf_append, codeOf_plain, codeOf_plain, ← append_assoc]
  cases op with
  | none =>
    cases hcombines
    rw [append_nil]
    exact (computes_store hset hlookup hdef keep h).congr
      (Interpretation.eval_assign htarget value span)
  | some op =>
    obtain ⟨o, ho, rfl⟩ := exists_integerOpcode hcombines hty
    have hresult := (computes_load hset hlookup hdef).apply₂ h rfl (operation_integerOpcode ho)
    rw [← append_assoc] at hresult
    refine (computes_store hset hlookup hdef keep hresult).congr fun σ => ?_
    rw [Interpretation.eval_assign_op htarget]
    cases σ.get? g id.name with
    | none => rfl
    | some a =>
      dsimp only [Option.map_some, Option.bind_some]
      cases I.eval g value σ <;> rfl

/-- The code of an expression `Computes` its `eval`. -/
theorem ExprCode.computes {e : Expr} {ctx ctx' : Context} {ps : List Piece}
    (h : ExprCode e ctx ps ctx') (he : e.isStructured = true) (hscope : ctx.scope = scope)
    (hset : Setting I g extent program scope) :
    Computes I extent program scope.inner true (I.eval g e) (codeOf ps) := by
  match h with
  | .literal => exact .push (isJump_push _) (operation_push _)
  | .variable hlookup hdef => exact computes_load hset (hscope ▸ hlookup) hdef
  | .constant hlookup hdef => exact computes_constant hset (hscope ▸ hlookup) hdef
  | .shortCircuit hcircuit hleft hright =>
    rw [Expr.isStructured, Bool.and_eq_true, Bool.and_eq_true] at he
    have hboth := (hleft.computes he.1.1 hscope hset).shortCircuit hset.labels
      (hright.computes he.1.2 (hleft.sameNames.scope_eq.trans hscope) hset)
    simp only [codeOf_append, codeOf_plain, cons_append, append_assoc, nil_append]
    refine (hboth _ _).congr fun σ => ?_
    rw [Interpretation.eval, if_pos hcircuit]
    rfl
  | .nullTest hcircuit hnull hoperand hcode =>
    rw [Expr.isStructured, Bool.and_eq_true, Bool.and_eq_true] at he
    rw [codeOf_append, codeOf_plain]
    refine ((hcode.computes ?_ hscope hset).testNull _).congr fun σ => ?_
    · rw [hoperand]
      split
      · exact he.1.1
      · exact he.1.2
    · rw [Interpretation.eval, hcircuit, if_neg Bool.false_ne_true, if_pos hnull, hoperand]
      split <;> rfl
  | .operator hcircuit hnull hleft hright hops =>
    rw [Expr.isStructured, Bool.and_eq_true, Bool.and_eq_true, hcircuit, hnull] at he
    obtain ⟨o, ho, rfl⟩ := exists_integerOpcode hops he.2
    have hboth := (hleft.computes he.1.1 hscope hset).apply₂
      (hright.computes he.1.2 (hleft.sameNames.scope_eq.trans hscope) hset) rfl
      (operation_integerOpcode ho)
    rw [codeOf_append, codeOf_append, codeOf_plain, append_assoc]
    refine hboth.congr fun σ => ?_
    rw [Interpretation.eval, hcircuit, hnull]
    rfl
  | .negated hliteral =>
    -- the literal is negated before the program runs
    refine (Computes.push rfl fun _ _ => rfl).congr fun σ => ?_
    rw [Interpretation.eval, eval_intLiteral hliteral]
    exact congrArg (fun v => some (v, σ)) (I.unary_neg _)
  | .unary _ hcode =>
    rw [codeOf_append, codeOf_plain]
    exact (hcode.computes he hscope hset).unary _
  | .assign hassigned hvalue hcombines =>
    rw [Expr.isStructured, Bool.and_eq_true] at he
    exact computes_assign hset (hscope ▸ hassigned) (hvalue.computes he.1 hscope hset) hcombines
      he.2 true _
  | .paren hinner => exact hinner.computes he hscope hset
  | .call _ _ _ _ | .property _ _ _ | .length _ _ _ _ => cases he

/-- `Computes` without a value left, for an expression that stands as a statement. -/
theorem DiscardedCode.computes (h : DiscardedCode e ctx ps ctx') (he : e.isStructured = true)
    (hdiscard : e.isDiscardable = true) (hset : Setting I g extent program ctx.scope) :
    Computes I extent program ctx.scope.inner false (I.eval g e) (codeOf ps) := by
  rw [← isStructured_unparenthesized] at he
  refine Computes.congr ?_ fun σ => (eval_unparenthesized e σ).symm
  unfold Expr.isDiscardable at hdiscard
  cases h with
  | assign hinner hassigned hvalue hcombines =>
    -- an assignment for its effect does not copy the value first
    rw [hinner, Expr.isStructured, Bool.and_eq_true] at he
    rw [hinner]
    exact computes_assign hset hassigned (hvalue.computes he.1 rfl hset) hcombines he.2 false _
  | call hinner _ _ _ _ =>
    rw [hinner] at he
    cases he
  | value heffect hvalue =>
    have hvoid : e.unparenthesized.ty.isVoid = false := by
      split at hdiscard
      · next hinner =>
        rw [hinner] at heffect
        cases heffect
      · exact (Bool.not_eq_true' _).mp hdiscard
    rw [hvoid, codeOf_append, codeOf_plain]
    exact (hvalue.computes he rfl hset).drop

/-! ## Slots and frames -/

/-- The number of slots of a kind that were taken so far; static slots are not taken here. -/
def Context.slotCount (ctx : Context) : SlotKind → Nat
  | .local => ctx.locals.size
  | .argument => ctx.params.size
  | .static => 0

/-- The variables in scope have slots of their own, among those that were taken so far. -/
structure Context.Allotted (ctx : Context) : Prop where
  nonempty : ctx.scope.inner ≠ []
  distinct : (slotsIn ctx.scope.inner).Nodup
  below : ∀ slot ∈ slotsIn ctx.scope.inner, slot.2 < ctx.slotCount slot.1

/-- Slots are only taken, and of the frames only the innermost one changes. -/
structure Context.Grows (ctx ctx' : Context) : Prop
    extends Scope.SameOutside ctx.scope ctx'.scope where
  allotted : ctx'.Allotted
  locals_le : ctx.locals.size ≤ ctx'.locals.size

theorem Context.Grows.trans (h : ctx.Grows ctx₁) (h' : ctx₁.Grows ctx₂) : ctx.Grows ctx₂ :=
  ⟨h.toSameOutside.trans h'.toSameOutside, h'.allotted, Nat.le_trans h.locals_le h'.locals_le⟩

/-- What keeps all names takes no slot. -/
theorem Context.SameNames.grows (hsame : ctx.SameNames ctx') (h : ctx.Allotted) :
    ctx.Grows ctx' := by
  obtain ⟨scope, params, locals, label, tokens⟩ := ctx'
  obtain ⟨rfl, rfl, rfl⟩ := hsame
  exact ⟨⟨rfl, rfl, rfl, h.nonempty⟩, ⟨h.nonempty, h.distinct, h.below⟩, Nat.le_refl _⟩

/-- A new variable takes the next slot of its kind, which belongs to no other variable. -/
theorem Context.Allotted.push {symbol : Symbol} {isMutable : Bool} (h : ctx.Allotted)
    (kind : SlotKind) (hdef : symbol.definition = .slot kind (ctx.slotCount kind) isMutable)
    (hscope : ctx'.scope = ctx.scope.push symbol)
    (hcount : ∀ k, ctx'.slotCount k = ctx.slotCount k + if k = kind then 1 else 0) :
    ctx.Grows ctx' := by
  have hle (k : SlotKind) : ctx.slotCount k ≤ ctx'.slotCount k :=
    (hcount k).symm ▸ Nat.le_add_right _ _
  obtain ⟨f, outer, hinner⟩ := exists_cons_of_ne_nil h.nonempty
  rw [Scope.push, hinner] at hscope
  have hslot : slotOf? symbol = some (kind, ctx.slotCount kind) := by rw [slotOf?, hdef]
  have hperm : (slotsIn ctx'.scope.inner).Perm
      ((kind, ctx.slotCount kind) :: slotsIn ctx.scope.inner) := by
    rw [hinner, hscope, slotsIn, slotsIn, flatMap_cons, flatMap_cons, filterMap_append,
      filterMap_cons_some hslot, append_assoc]
    exact perm_middle
  have hne : ctx'.scope.inner ≠ [] := hscope ▸ cons_ne_nil _ _
  refine ⟨⟨?_, ?_, ?_, hne⟩, ⟨hne, ?_, fun slot hmem => ?_⟩, hle .local⟩
  · rw [hscope]
  · rw [hscope]
  · rw [hscope, hinner]
    rfl
  · -- all slots in scope are below the count, so the new one is not among them
    rw [hperm.nodup_iff, nodup_cons]
    exact ⟨fun hmem => Nat.lt_irrefl _ (h.below _ hmem), h.distinct⟩
  · rcases mem_cons.mp (hperm.mem_iff.mp hmem) with rfl | hold
    · rw [hcount, if_pos rfl]
      exact Nat.lt_succ_self _
    · exact Nat.lt_of_lt_of_le (h.below slot hold) (hle slot.1)

theorem Context.Allotted.declareLocal (h : ctx.Allotted) (id : Ident) (ty : ParamType)
    (isMutable : Bool) : ctx.Grows (ctx.declareLocal id ty isMutable) := by
  refine h.push .local rfl rfl fun kind => ?_
  cases kind <;> simp [slotCount, Context.declareLocal]

theorem Context.Allotted.declareParam (h : ctx.Allotted) (name : String) (span : Span)
    (ty : ParamType) : ctx.Grows (ctx.declareParam name span ty) := by
  refine h.push .argument rfl rfl fun kind => ?_
  cases kind <;> simp [slotCount, Context.declareParam]

theorem Context.Allotted.enter (h : ctx.Allotted) (name : String) : (ctx.enter name).Allotted :=
  ⟨cons_ne_nil _ _, h.distinct, h.below⟩

/-- A function begins without variables. -/
theorem Context.Allotted.start (hinner : ctx.scope.inner = []) (name : String) :
    (ctx.enter name).Allotted := by
  have hslots : slotsIn (ctx.enter name).scope.inner = [] := by
    show slotsIn (_ :: ctx.scope.inner) = []
    rw [hinner]
    rfl
  exact ⟨cons_ne_nil _ _, hslots.symm ▸ nodup_nil, hslots.symm ▸ forall_mem_nil _⟩

theorem slotsIn_tail_sublist (frames : List Frame) :
    (slotsIn frames.tail).Sublist (slotsIn frames) := by
  cases frames with
  | nil => exact .refl _
  | cons f outer =>
    rw [slotsIn, slotsIn, flatMap_cons]
    exact sublist_append_right _ _

/-- What is declared in a frame is gone after it; its slots stay taken. -/
theorem Context.Grows.leave {name : String} (h : (ctx.enter name).Grows ctx')
    (hctx : ctx.Allotted) : ctx.Grows ctx'.leave := by
  have houtside := h.toSameOutside.leave hctx.nonempty
  have hsub := slotsIn_tail_sublist ctx'.scope.inner
  refine ⟨houtside, ⟨houtside.inner_ne, h.allotted.distinct.sublist hsub, fun slot hmem => ?_⟩,
    h.locals_le⟩
  exact h.allotted.below slot (hsub.subset hmem)

/-- All code keeps the variables in slots of their own: it only `Grows`. -/
theorem piecewise_grows : Piecewise fun ctx _ ctx' => ctx.Allotted → ctx.Grows ctx' where
  nil ctx h := (Context.SameNames.refl ctx).grows h
  append h h' hctx := (h hctx).trans (h' (h hctx).allotted)
  op {ctx _} _ h := (Context.SameNames.refl ctx).grows h
  use _ _ huses h := huses.sameNames.grows h
  leave ctx _ _ h := (Context.SameNames.refl ctx).grows h
  label ctx l h := (Context.SameNames.withLabel ctx l).grows h
  declareLocal _ id ty isMutable h := h.declareLocal id ty isMutable
  enclosed name h hctx := (h (hctx.enter name)).leave hctx

/-- What the code of a function may rely on where the code of a construct stands. -/
structure Situation (I : Interpretation V) (g : Globals V) (extent : Extent)
    (program : List Operation) (ctx ctx' : Context) : Prop where
  allotted : ctx.Allotted
  describes : Describes I g extent.statics ctx.scope
  labels : (labelsIn program).Nodup
  room : ctx'.locals.size ≤ extent.locals

/-- The same holds for a part of the construct. -/
theorem Situation.part (h : Situation I g extent program ctx ctx') (hbefore : ctx.Grows ctx₁)
    (hafter : ctx₂.locals.size ≤ ctx'.locals.size) : Situation I g extent program ctx₁ ctx₂ :=
  ⟨hbefore.allotted, h.describes.of_eq hbefore.rootFrame_eq hbefore.builtins_eq, h.labels,
    Nat.le_trans hafter h.room⟩

/-- A `Situation` is a `Setting` for expressions. -/
theorem Situation.setting (h : Situation I g extent program ctx ctx') :
    Setting I g extent program ctx.scope :=
  ⟨h.describes, h.allotted.distinct, h.labels⟩

/-! ## Statements -/

/-- A declaration fills the slot that it takes. -/
theorem performs_declare {n : Nesting} {value : Expr} {id : Ident} {ty : ParamType}
    {isMutable : Bool} (hvalue : ExprCode value ctx ps ctx₁) (hs : value.isStructured = true)
    (hfree : ctx₁.scope.isTaken id.name = false)
    (hat : Situation I g extent program ctx (ctx₁.declareLocal id ty isMutable)) :
    Performs I program fuel n (Agree extent ctx.scope.inner)
      (Agree extent (ctx₁.declareLocal id ty isMutable).scope.inner)
      (fun σ => do
        let (v, σ) ← defined (I.eval g value σ)
        let σ ← defined (σ.declare? id.name v)
        .ok (.next, σ))
      (codeOf ps ++ [.store .local ctx₁.locals.size]) := by
  have hsame := hvalue.sameNames
  have hcode := hvalue.computes hs rfl hat.setting
  -- the value is computed in the frame that the variable is added to
  obtain ⟨f, outer, hinner⟩ := exists_cons_of_ne_nil hat.allotted.nonempty
  have hscope : (ctx₁.declareLocal id ty isMutable).scope = ctx₁.scope.push _ := rfl
  rw [hsame.scope_eq, Scope.push, hinner] at hscope
  rw [hsame.scope_eq, Scope.isTaken, Scope.frame, hinner, Bool.or_eq_false_iff] at hfree
  rw [hinner] at hcode ⊢
  rw [hscope]
  refine .declare hcode (Option.isSome_eq_false_iff.mp hfree.1 |> Option.isNone_iff_eq_none.mp)
    ?_ ?_ rfl rfl
  · rw [← hinner, hsame.locals_eq]
    exact fun hmem => Nat.lt_irrefl _ (hat.allotted.below _ hmem)
  · refine Nat.lt_of_lt_of_le ?_ hat.room
    exact Nat.lt_of_lt_of_eq (Nat.lt_succ_self _) (Array.size_push _).symm

mutual

/-- The code of a statement `Performs` its `exec`. Only a declaration changes the names. -/
theorem StmtCode.performs {n : Nesting} {stmt : Stmt} {ctx ctx' : Context} {ps : List Piece}
    (h : StmtCode n stmt ctx ps ctx') (hs : stmt.isStructured = true)
    (hat : Situation I g extent program ctx ctx') :
    (stmt.isDeclaration = false → ctx'.scope.inner = ctx.scope.inner) ∧
      Performs I program fuel n (Agree extent ctx.scope.inner) (Agree extent ctx'.scope.inner)
        (I.exec g fuel stmt) (codeOf ps) := by
  match h with
  | .expr he =>
    rw [Stmt.isStructured, Bool.and_eq_true] at hs
    rw [he.sameNames.scope_eq]
    exact ⟨fun _ => rfl, .expr (he.computes hs.1 hs.2 hat.setting)⟩
  | .declareAs hvalue hfree =>
    rw [codeOf_append, codeOf_plain]
    exact ⟨nofun, performs_declare hvalue hs hfree hat⟩
  | .return hexit =>
    exact ⟨fun _ => rfl, .exit hexit rfl (fun _ => rfl) fun hlanded => hlanded.returns⟩
  | .returnAs hvalue hexit =>
    rw [hvalue.sameNames.scope_eq, codeOf_append]
    exact ⟨fun _ => rfl, .exitWith hexit (hvalue.computes hs rfl hat.setting)⟩
  | .break hexit =>
    obtain ⟨loop, hloop, hexit⟩ := exists_of_breakExit hexit
    refine ⟨fun _ => rfl, .exit hexit rfl (fun post => ?_) fun hlanded => ?_⟩
    · rw [landing, hloop]
      rfl
    · exact (hlanded.loops loop (mem_of_head? hloop)).1
  | .continue hexit =>
    obtain ⟨loop, hloop, hexit⟩ := exists_of_continueExit hexit
    refine ⟨fun _ => rfl, .exit hexit rfl (fun post => ?_) fun hlanded => ?_⟩
    · rw [landing, hloop]
      rfl
    · exact (hlanded.loops loop (mem_of_head? hloop)).2
  | .block hbody =>
    obtain ⟨hinner, hperforms⟩ := hbody.performs hs hat
    exact ⟨fun _ => hinner, hperforms⟩
  | .ifThen hcondition hthen =>
    rw [Stmt.isStructured, Bool.and_true, Bool.and_eq_true, Bool.and_eq_true,
      Bool.not_eq_true'] at hs
    obtain ⟨⟨htest, hbranch⟩, hdeclares⟩ := hs
    have hsame := (Context.SameNames.withLabel ctx _).trans hcondition.sameNames
    obtain ⟨hinner, hperforms⟩ := hthen.performs hbranch
      (hat.part (hsame.grows hat.allotted) (Nat.le_refl _))
    rw [hinner hdeclares, hsame.scope_eq] at hperforms ⊢
    refine ⟨fun _ => rfl, ?_⟩
    simp only [codeOf_append, codeOf_plain, append_assoc, cons_append, nil_append]
    exact .when hat.labels (hcondition.computes htest rfl hat.setting) hperforms
  | .ifElse hcondition hthen helse =>
    rw [Stmt.isStructured] at hs
    simp only [Bool.and_eq_true, Bool.not_eq_true'] at hs
    obtain ⟨⟨⟨htest, hbranch⟩, hdeclares⟩, hbranch', hdeclares'⟩ := hs
    have hsame := (Context.SameNames.withLabel ctx _).trans hcondition.sameNames
    have hbefore := hsame.grows hat.allotted
    have hgrows := piecewise_grows.stmt hthen hbefore.allotted
    have hskip (l : Label) := (Context.SameNames.withLabel _ l).grows hgrows.allotted
    have hle := (piecewise_grows.stmt helse (hskip _).allotted).locals_le
    obtain ⟨hinner, hperforms⟩ := hthen.performs hbranch (hat.part hbefore hle)
    obtain ⟨hinner', hperforms'⟩ := helse.performs hbranch'
      (hat.part ((hbefore.trans hgrows).trans (hskip _)) (Nat.le_refl _))
    -- neither branch declares a variable in place, so all three see the same frames
    replace hinner := (hinner hdeclares).trans (congrArg Scope.inner hsame.scope_eq)
    replace hinner' := (hinner' hdeclares').trans hinner
    rw [hinner, hsame.scope_eq] at hperforms
    rw [hinner'] at hperforms' ⊢
    dsimp only [Context.withLabel] at hperforms'
    rw [hinner] at hperforms'
    refine ⟨fun _ => rfl, ?_⟩
    simp only [codeOf_append, codeOf_plain, append_assoc, cons_append, nil_append]
    exact .branch hat.labels (hcondition.computes htest rfl hat.setting) hperforms hperforms'
  | .while hcondition hbody =>
    rw [Stmt.isStructured, Bool.and_eq_true, Bool.and_eq_true, Bool.not_eq_true'] at hs
    obtain ⟨⟨htest, hloop⟩, hdeclares⟩ := hs
    have hsame := (Context.SameNames.withLabel ctx _).trans hcondition.sameNames
    obtain ⟨hinner, hperforms⟩ := hbody.performs hloop
      (hat.part (hsame.grows hat.allotted) (Nat.le_refl _))
    rw [hinner hdeclares, hsame.scope_eq] at hperforms ⊢
    refine ⟨fun _ => rfl, ?_⟩
    simp only [codeOf_append, codeOf_plain, append_assoc, cons_append, nil_append]
    exact .loop hat.labels (hcondition.computes htest rfl hat.setting) hperforms
  | .declare _ | .throw _ | .try _ _ _ _ _ => cases hs

theorem StmtsCode.performs {n : Nesting} {ss : List Stmt} {ctx ctx' : Context} {ps : List Piece}
    (h : StmtsCode n ss ctx ps ctx') (hs : Stmt.allStructured ss = true)
    (hat : Situation I g extent program ctx ctx') :
    Performs I program fuel n (Agree extent ctx.scope.inner)
      (fun σ => Agree extent ctx.scope.inner.tail σ.leave) (I.execAll g fuel ss) (codeOf ps) := by
  match h with
  | .nil => exact fun _ post _ σ vars hagree => ⟨post, vars, rfl, hagree.leave, .refl _⟩
  | .cons hfirst hrest =>
    rw [Stmt.allStructured, Bool.and_eq_true] at hs
    have hgrows := piecewise_grows.stmt hfirst hat.allotted
    have hle := (piecewise_grows.stmts hrest hgrows.allotted).locals_le
    have hone := (hfirst.performs hs.1 ⟨hat.allotted, hat.describes, hat.labels,
      Nat.le_trans hle hat.room⟩).2
    have hall := hrest.performs hs.2 (hat.part hgrows (Nat.le_refl _))
    rw [hgrows.tail_eq] at hall
    rw [codeOf_append]
    refine hone.seq hall fun σ vars hagree => ?_
    rw [← hgrows.tail_eq]
    exact hagree.leave

theorem BlockCode.performs {n : Nesting} {b : Block} {ctx ctx' : Context} {ps : List Piece}
    (h : BlockCode n b ctx ps ctx') (hs : b.isStructured = true)
    (hat : Situation I g extent program ctx ctx') :
    ctx'.scope.inner = ctx.scope.inner ∧
      Performs I program fuel n (Agree extent ctx.scope.inner) (Agree extent ctx'.scope.inner)
        (I.execBlock g fuel b) (codeOf ps) := by
  match h with
  | .block hbody =>
    have hallotted := hat.allotted.enter "block"
    have hinner := (piecewise_grows.stmts hbody hallotted).tail_eq
    have hperforms := hbody.performs hs ⟨hallotted, hat.describes, hat.labels, hat.room⟩
    refine ⟨hinner, ?_⟩
    rw [codeOf_append, codeOf_append, codeOf_plain]
    show Performs _ _ _ _ _ (Agree extent (List.tail _)) _ _
    rw [hinner]
    exact hperforms.block

end

/-! ## Functions -/

/-- The slots at the start of a function. -/
def slotValues (locals args statics : List V) : Vars V
  | .local => locals
  | .argument => args
  | .static => statics

namespace Interpretation

/-- An operation that is no label may stand before the code. -/
theorem Steps.cons {op : Operation} (hop : op.placedLabel? = none) {n : Nat} {c c' : Config V}
    (h : I.Steps code n c c') : I.Steps (op :: code) n c c' := by
  have hlabel : ∀ l, afterLabel l (op :: code) = afterLabel l code := fun l => by
    refine if_neg ?_
    rintro rfl
    cases hop
  have hstep : ∀ c, I.step (op :: code) c = I.step code c := fun c => by
    unfold step
    simp only [hlabel]
  induction h with
  | refl c => exact .refl c
  | head hfirst _ ih => exact .head ((hstep _).trans hfirst) ih

/-- The slots are opened before the body runs. -/
theorem Steps.opening {d : Draft} {body : List Operation} {n : Nat} {args : List V}
    (hargs : args.length = d.params.size) (statics : List V)
    {c : Config V}
    (h : I.Steps body n
      ⟨body, [], slotValues (List.replicate d.locals.size (I.constant .null)) args statics⟩ c) :
    ∃ m, n ≤ m ∧ I.Steps (openingCode d ++ body) m
      ⟨openingCode d ++ body, [], slotValues [] args statics⟩ c := by
  unfold openingCode
  split
  · next hempty =>
    -- without slots nothing is opened
    rw [Bool.and_eq_true, Array.isEmpty_iff, Array.isEmpty_iff] at hempty
    rw [hempty.2] at h
    exact ⟨n, Nat.le_refl n, h⟩
  · have hvars : (fun kind => if kind = .local then
          List.replicate d.locals.size (I.constant .null) else slotValues [] args statics kind) =
        slotValues (List.replicate d.locals.size (I.constant .null)) args statics :=
      funext fun kind => by cases kind <;> rfl
    have hop : I.operation (.initSlots d.locals.size d.params.size) []
        (slotValues [] args statics) = some ([], _) := (if_pos hargs).trans (by rw [hvars])
    refine ⟨n + 1, Nat.le_succ n, .head ?_ (h.cons rfl)⟩
    refine (step_operation I _ rfl _ _ _).trans ?_
    rw [hop]
    rfl

end Interpretation

/-- What the machine does where a function ends, or has no end yet. -/
def Answers (I : Interpretation V) (code : List Operation) (fuel : Nat) (c : Config V) :
    Run (Option V × List V) → Prop
  | .error .undefined => False
  | .error .outOfFuel => I.RunsFor code fuel c
  | .ok (value, statics) => I.Returns code c value statics

/-- The code of a body, with what `finish` adds, `Answers` as the body ends. -/
theorem answers_of_performs {run : Store V → Run (Signal V × Store V)}
    (hprogram : program = code ++ [Operation.label Draft.returnTarget, .return])
    (hlabels : (labelsIn program).Nodup)
    (h : Performs I program fuel {} (Agree extent frames) (Agree extent frames) run code)
    {σ : Store V} {vars : Vars V} (hagree : Agree extent frames σ vars) :
    Answers I program fuel ⟨program, [], vars⟩ (do
      let (signal, σ) ← run σ
      match signal with
      | .next => .ok (none, σ.statics)
      | .return v => .ok (v, σ.statics)
      | .break | .continue => .error .undefined) := by
  subst hprogram
  have hreturn : afterLabel Draft.returnTarget
      (code ++ [Operation.label Draft.returnTarget, .return]) = some [.return] :=
    afterLabel_of_suffix hlabels (suffix_append code _)
  have hlanded : Landed (code ++ [Operation.label Draft.returnTarget, .return]) {} :=
    ⟨rfl, forall_mem_nil _, Option.isSome_of_eq_some hreturn⟩
  have harrives := h hlanded _ (suffix_refl _) σ vars hagree
  generalize run σ = outcome at harrives ⊢
  match outcome, harrives with
  | .error .outOfFuel, hruns => exact hruns
  | .ok (.next, σ'), ⟨rest, vars', hland, hagree', hruns⟩ =>
    cases hland
    refine ⟨[], vars', hruns.trans (.of_marker _ rfl [.return] [] vars'), ?_⟩
    exact hagree'.statics.symm
  | .ok (.return v, σ'), ⟨rest, vars', hland, hagree', hruns⟩ =>
    cases hreturn.symm.trans hland
    exact ⟨[], vars', hruns, hagree'.statics.symm⟩
  -- outside of all loops there is no label to leave to
  | .ok (.break, σ'), ⟨rest, vars', hland, hagree', hruns⟩ => cases hland
  | .ok (.continue, σ'), ⟨rest, vars', hland, hagree', hruns⟩ => cases hland

/-- The machine is deterministic, so it returns only what the function returns. -/
theorem exists_iff_returns {c : Config V}
    {run : Nat → Run (Option V × List V)} (h : ∀ fuel, Answers I code fuel c (run fuel))
    (value : Option V) (statics : List V) :
    (∃ fuel, run fuel = .ok (value, statics)) ↔ I.Returns code c value statics := by
  constructor
  · rintro ⟨fuel, hfuel⟩
    have hanswers := h fuel
    rw [hfuel] at hanswers
    exact hanswers
  · rintro ⟨rest, vars, ⟨n, hsteps⟩, hstatics⟩
    -- with more fuel than the machine takes steps the function has come to its end
    have hanswers := h (n + 1)
    refine ⟨n + 1, ?_⟩
    generalize run (n + 1) = outcome at hanswers ⊢
    match outcome, hanswers with
    | .error .outOfFuel, ⟨m, c', hle, hmore⟩ =>
      have hm : m ≤ n := hsteps.le_of_halted (Interpretation.step_return rest _ vars) hmore
      exact absurd (Nat.le_trans hle hm) (Nat.not_succ_le_self n)
    | .ok (value', statics'), ⟨rest', vars', hruns, hstatics'⟩ =>
      have heq := Interpretation.RunsTo.eq_of_halted ⟨n, hsteps⟩
        (Interpretation.step_return rest _ vars) hruns (Interpretation.step_return rest' _ vars')
      obtain ⟨-, hvalue, rfl⟩ := Config.mk.inj heq
      have hvalue' : value = value' := by
        have hhead := congrArg List.head? hvalue
        rwa [Option.head?_toList, Option.head?_toList] at hhead
      rw [hvalue', ← hstatics, hstatics']

/-- `elide` keeps what is answered. -/
theorem Answers.elide {c : Config V} {outcome : Run (Option V × List V)}
    (hnodup : (labelsIn code).Nodup) (hc : c.rest <:+ code) (h : Answers I code fuel c outcome) :
    Answers I (ContractScript.elide code) fuel c.elide outcome := by
  match outcome, h with
  | .error .outOfFuel, h => exact Interpretation.RunsFor.elide hnodup hc h
  | .ok (_, _), h => exact Interpretation.Returns.elide hnodup hc h

theorem Answers.opening {d : Draft} {body : List Operation} {args statics : List V}
    (hargs : args.length = d.params.size) {outcome : Run (Option V × List V)}
    (h : Answers I body fuel
      ⟨body, [], slotValues (List.replicate d.locals.size (I.constant .null)) args statics⟩
      outcome) :
    Answers I (openingCode d ++ body) fuel
      ⟨openingCode d ++ body, [], slotValues [] args statics⟩ outcome := by
  match outcome, h with
  | .error .outOfFuel, ⟨n, c, hle, hsteps⟩ =>
    obtain ⟨m, hle', hsteps'⟩ := hsteps.opening hargs statics
    exact ⟨m, c, Nat.le_trans hle hle', hsteps'⟩
  | .ok (_, _), ⟨rest, vars, ⟨n, hsteps⟩, hstatics⟩ =>
    obtain ⟨m, -, hsteps'⟩ := hsteps.opening hargs statics
    exact ⟨rest, vars, ⟨m, hsteps'⟩, hstatics⟩

/-- The slots of parameters hold the arguments, in order. -/
theorem ParamsIn.holds {params : List Param} {ctx ctx' : Context} (h : ParamsIn params ctx ctx') :
    ∀ {f : Frame} {outer : List Frame}, ctx.scope.inner = f :: outer → ∃ symbols,
      ctx'.scope.inner = { f with symbols := f.symbols ++ symbols } :: outer ∧
      ∀ (vars : Vars V) (before args : List V), vars .argument = before ++ args →
        before.length = ctx.params.size → args.length = params.length →
        List.Forall₂ (Holds vars) symbols ((params.map (·.id.name)).zip args) := by
  induction h with
  | nil => exact fun hinner => ⟨[], by rw [append_nil, hinner], fun _ _ _ _ _ _ => .nil⟩
  | @cons param rest ctx ctx' _ _ ih =>
    intro f outer hinner
    let symbol : Symbol :=
      ⟨param.id.name, ctx.scope.frame.id, param.span, .slot .argument ctx.params.size true⟩
    have hpush : (ctx.scope.push symbol).inner =
        { f with symbols := f.symbols ++ [symbol] } :: outer := by
      rw [Scope.push, hinner]
    obtain ⟨symbols, hsymbols, hholds⟩ := ih hpush
    refine ⟨symbol :: symbols, ?_, fun vars before args hargs hbefore hlength => ?_⟩
    · rw [hsymbols]
      dsimp only
      rw [append_assoc]
      rfl
    · cases args with
      | nil => cases hlength
      | cons v args =>
        have hvalue : (vars .argument)[ctx.params.size]? = some v := by
          rw [hargs, ← hbefore, getElem?_append_right (Nat.le_refl _), Nat.sub_self]
          rfl
        refine .cons ⟨rfl, .argument, _, true, rfl, by decide, hvalue⟩ ?_
        refine hholds vars (before ++ [v]) args ?_ ?_ (Nat.succ.inj hlength)
        · rw [hargs, append_assoc]
          rfl
        · rw [length_append, hbefore]
          exact (Array.size_push _).symm

/-- The code of a body, with its label and return operation, `Answers` what the function does. -/
theorem Answers.of_functionCode {tokens : TokenTable} {body : Block}
    (h : FunctionCode decl ⟨scope, #[], #[], 1, tokens⟩ ps ctx') (hinner : scope.inner = [])
    (hbody : decl.body = some body) (hstructured : body.isStructured = true)
    {args statics : List V} (hargs : args.length = decl.params.length)
    (hg : Describes I g statics.length scope)
    (hlabels : (labelsIn (codeOf ps ++ [Operation.label Draft.returnTarget, .return])).Nodup)
    (fuel : Nat) :
    Answers I (codeOf ps ++ [Operation.label Draft.returnTarget, .return]) fuel
      ⟨codeOf ps ++ [Operation.label Draft.returnTarget, .return], [],
        slotValues (List.replicate ctx'.locals.size (I.constant .null)) args statics⟩
      (I.invoke g fuel decl args statics) := by
  obtain ⟨ctx₁, ctx₂, hparams, hblock, rfl⟩ := h.exists_blockCode hbody
  have hgrows := piecewise_grows.params (fun _ name span ty h => h.declareParam name span ty)
    hparams (.start hinner _)
  have hat : Situation I g ⟨ctx₂.locals.size, statics.length⟩
      (codeOf ps ++ [Operation.label Draft.returnTarget, .return]) ctx₁ ctx₂ :=
    ⟨hgrows.allotted, hg.of_eq hgrows.rootFrame_eq hgrows.builtins_eq, hlabels, Nat.le_refl _⟩
  obtain ⟨hsame, hperforms⟩ := hblock.performs hstructured hat
  obtain ⟨symbols, hsymbols, hholds⟩ := hparams.holds (V := V) rfl
  rw [hsame] at hperforms
  rw [Interpretation.invoke, hbody]
  refine answers_of_performs rfl hlabels hperforms ⟨?_, rfl, length_replicate, rfl⟩
  -- the parameters are the only variables where the body starts
  rw [hsymbols]
  show FramesHold _ (_ :: scope.inner) _
  rw [hinner]
  exact .cons (hholds _ [] args rfl rfl hargs) .nil

/-- The code of a structured function `Returns` what `invoke` returns, for all arguments and static
variables, and leaves the static variables as the function does; and it does not return where the
function does not. -/
theorem lowered_function_preserves_meaning (I : Interpretation V) (p : Program)
    (routine : Routine) (decl : FunctionDecl) (args statics : List V)
    (hroutine : routine ∈ (lowerProgram (declare (bindProgram p).1 p)).routines)
    (hdecl : p.functions[routine.id]? = some decl) (hstructured : decl.isStructured = true)
    (hargs : args.length = decl.params.length) (hstatics : statics.length = p.statics.length) :
    let code := routine.ops.map Op.operation
    let start : Config V := ⟨code, [], slotValues [] args statics⟩
    (∀ value statics', (∃ fuel, I.invoke (I.globals p) fuel decl args statics =
        .ok (value, statics')) ↔ I.Returns code start value statics') ∧
    ∀ fuel, I.invoke (I.globals p) fuel decl args statics ≠ .error .undefined ∧
      (I.invoke (I.globals p) fuel decl args statics = .error .outOfFuel →
        I.RunsFor code fuel start) := by
  intro code start
  obtain ⟨scope, tokens, s', hsame, hlower⟩ := exists_lowerFunction hroutine hdecl
  obtain ⟨body, hbody, hblock⟩ := (Option.any_eq_true _ _).mp hstructured
  have hdescribes : Describes I (I.globals p) statics.length scope := by
    rw [hstatics]
    exact (describes_declare I p).of_eq hsame.rootFrame_eq hsame.builtins_eq
  have hinner := hsame.inner_eq.trans (inner_declare _ p)
  obtain ⟨finished, hfinish, hlowered, rfl⟩ := lowerFunction_eq_ok hlower
  obtain ⟨ps, hps, hcode⟩ := lowerBody_code hlowered
  have hinert (piece : Piece) (hpiece : piece ∈ ps) : piece.IsInert :=
    isInert_of_accounted
      (hps.accounted (inner_declare _ p) (over_of_sameGlobals hsame) piece hpiece)
  have hlabels := nodup_labelsIn_program (hps.fresh.congr (labelsIn_codeOf hinert))
  have hcount : args.length = s'.draft.params.size :=
    (hargs.trans (Nat.zero_add _).symm).trans hps.params_size.symm
  have hanswers (fuel : Nat) :
      Answers I code fuel start (I.invoke (I.globals p) fuel decl args statics) := by
    have hbodyCode := Answers.of_functionCode hps hinner hbody hblock hargs hdescribes hlabels fuel
    have hfinished := (hbodyCode.elide hlabels (suffix_refl _)).opening hcount
    rwa [← hcode, ← (operations_of_finish hfinish).2] at hfinished
  refine ⟨exists_iff_returns hanswers, fun fuel => ⟨fun hundefined => ?_, fun houtOfFuel => ?_⟩⟩
  · have hfuel := hanswers fuel
    rw [hundefined] at hfuel
    exact hfuel
  · have hfuel := hanswers fuel
    rw [houtOfFuel] at hfuel
    exact hfuel

/-! ## Two functions -/

/-- Integers, with zero for false and for null. Operators that are not used here yield zero. -/
def integers : Interpretation Int where
  constant
    | .int n => n
    | .bool b => if b then 1 else 0
    | .bytes _ | .null => 0
  unary
    | .not, v => if v = 0 then 1 else 0
    | .neg, v => -v
    | .bitNot, v => -v - 1
    | .plus, v => v
  binary
    | .add, a, b => a + b
    | .sub, a, b => a - b
    | .equal, a, b => if a = b then 1 else 0
    | .greater, a, b => if b < a then 1 else 0
    | _, _, _ => 0
  isNull v := if v = 0 then 1 else 0
  isTrue v := v ≠ 0
  unary_neg _ := rfl

/-- Adds the numbers up to `n`, but not two, to the static variable `total`. -/
def summing : FunctionDecl :=
  let var (name : String) : Expr := .ident ⟨name, {}⟩ .integer {}
  let int (n : Int) : Expr := .literal (.int n) .integer {}
  let skips : Expr := .binary .logicalOr (.binary .equal (var "n") (int 2) .boolean {})
    (.binary .greater (var "total") (int 100) .boolean {}) .boolean {}
  let decrease : Stmt := .expr (.assign (some .sub) (var "n") (int 1) {}) {}
  let add : Stmt := .expr (.assign none (var "total")
    (.binary .add (var "total") (var "n") .integer {}) {}) {}
  let skip : Stmt := .block ⟨[decrease, .continue {}], {}⟩
  { id := ⟨"summing", {}⟩
    params := [⟨⟨"n", {}⟩, .integer, {}⟩]
    returnType := .integer
    body := some ⟨[
      .while (.binary .greater (var "n") (int 0) .boolean {})
        (.block ⟨[.if skips skip none {}, add, decrease], {}⟩) {},
      .return (some (var "total")) {}], {}⟩
    isExport := true
    isSafe := false
    tags := []
    span := {} }

def summingProgram : Program :=
  ⟨[], [.static ⟨⟨"total", {}⟩, .integer, none, {}⟩, .function summing]⟩

theorem lowered_function_preserves_meaning_summing :
    ∃ routine ∈ (lowerProgram (declare (bindProgram summingProgram).1 summingProgram)).routines,
      summingProgram.functions[routine.id]? = some summing ∧ summing.isStructured = true ∧
      integers.Returns (routine.ops.map Op.operation)
        ⟨routine.ops.map Op.operation, [], slotValues [] [4] [0]⟩ (some 8) [8] := by
  have hids : (lowerProgram (declare (bindProgram summingProgram).1 summingProgram)).routines.map
      Routine.id = [0, 1] := by decide +kernel
  obtain ⟨routine, hroutine, hid⟩ := mem_map.mp (hids ▸ mem_cons_self)
  have hdecl : summingProgram.functions[routine.id]? = some summing := by
    rw [hid]
    rfl
  have hmeaning := lowered_function_preserves_meaning integers summingProgram routine summing
    [4] [0] hroutine hdecl rfl rfl rfl
  exact ⟨routine, hroutine, hdecl, rfl, (hmeaning.1 (some 8) [8]).mp ⟨10, rfl⟩⟩

/-- A function of one statement: a number whose type says that it is no value. -/
def valueless : FunctionDecl where
  id := ⟨"valueless", {}⟩
  params := []
  returnType := .void
  body := some ⟨[.expr (.literal (.int 1) .void {}) {}], {}⟩
  isExport := true
  isSafe := false
  tags := []
  span := {}

/-- What has no value by its type is not dropped, and so the number is returned. -/
theorem void_literal_is_returned :
    ∃ routine ∈ (lowerProgram (declare (bindProgram ⟨[], [.function valueless]⟩).1
        ⟨[], [.function valueless]⟩)).routines,
      Program.functions ⟨[], [.function valueless]⟩ = [valueless] ∧ routine.id = 0 ∧
      integers.invoke (integers.globals ⟨[], [.function valueless]⟩) 0 valueless [] [] =
        .ok (none, []) ∧
      integers.Returns (routine.ops.map Op.operation)
        ⟨routine.ops.map Op.operation, [], slotValues [] [] []⟩ (some 1) [] ∧
      ¬ integers.Returns (routine.ops.map Op.operation)
        ⟨routine.ops.map Op.operation, [], slotValues [] [] []⟩ none [] := by
  have hlowered : (lowerProgram (declare (bindProgram ⟨[], [.function valueless]⟩).1
      ⟨[], [.function valueless]⟩)).routines.map
        (fun r => (r.id, r.ops.map Op.operation)) =
      [(0, [.anchor, .pushInt 1, .anchor, .label 0, .return])] := by decide +kernel
  obtain ⟨routine, hroutines, hcode⟩ := map_eq_singleton_iff.mp hlowered
  obtain ⟨hid, hops⟩ := Prod.mk.inj hcode
  have hruns : integers.RunsTo [.anchor, .pushInt 1, .anchor, .label 0, .return]
      ⟨[.anchor, .pushInt 1, .anchor, .label 0, .return], [], slotValues [] [] []⟩
      ⟨[.return], [1], slotValues [] [] []⟩ :=
    ⟨4, .head rfl (.head rfl (.head rfl (.head rfl (.refl _))))⟩
  refine ⟨routine, hroutines ▸ mem_cons_self, rfl, hid, rfl, ?_⟩
  rw [hops]
  refine ⟨⟨[], _, hruns, rfl⟩, ?_⟩
  rintro ⟨rest, vars, hruns', -⟩
  cases hruns.eq_of_halted rfl hruns' rfl

end ContractScript
