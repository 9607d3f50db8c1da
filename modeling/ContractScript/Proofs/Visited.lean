import Mathlib.Logic.Relation
import ContractScript.Proofs.LoweredProgram

/-!
# Statements inside of a statement

Lowering a statement lowers the statements in it (`Stmt.Part`), each in the state that the steps
before it leave (`Visits`). What holds all the while is said about these states: they are reached by
steps that a relation holds of, and by what is opened on the way (`LeadsInto`).
-/

namespace ContractScript

open List

variable {s t s' : LowerState} {i : Nat} {stmt r : Stmt} {path : List Nat}

open Lower

/-! ## Parts of statements -/

namespace Lower

/-- Open a scope inside of the current one. -/
def openScope (name : String) : Lower Unit :=
  modify fun s => { s with scope := s.scope.enter name }

end Lower

/-- A `Stmt` directly inside of another: its position there, and the steps that come before it. The
parts of a try statement are blocks. -/
inductive Stmt.Part : Nat → Stmt → Lower Unit → Stmt → Prop where
  | block {before after : List Stmt} {stmt : Stmt} {span : Span} :
    Part before.length (.block ⟨before ++ stmt :: after, span⟩)
      (do
        emitAt .anchor span.first
        openScope "block"
        lowerStmts before)
      stmt
  | thenBranch {condition : Expr} {thenBranch : Stmt} {elseBranch : Option Stmt} {span : Span} :
    Part 0 (.if condition thenBranch elseBranch span)
      (do
        let elseLabel ← newLabel
        lowerCondition condition elseLabel)
      thenBranch
  | elseBranch {condition : Expr} {thenBranch elseBranch : Stmt} {span : Span} :
    Part 1 (.if condition thenBranch (some elseBranch) span)
      (do
        let elseLabel ← newLabel
        lowerCondition condition elseLabel
        lowerStmt thenBranch
        let endLabel ← newLabel
        emit (.jump .always endLabel)
        place elseLabel)
      elseBranch
  | loopBody {condition : Expr} {body : Stmt} {span : Span} :
    Part 0 (.while condition body span)
      (do
        let continueLabel ← newLabel
        let breakLabel ← newLabel
        place continueLabel
        lowerCondition condition breakLabel
        nest (·.enterLoop continueLabel breakLabel))
      body
  | tryBody {body : Block} {handler : Option CatchClause} {finalizer : Option Block} {span : Span} :
    Part 0 (.try body handler finalizer span)
      (do
        let handlerLabel ← labelFor (handler.map lowerHandler)
        let finalizerLabel ← labelFor (finalizer.map lowerBlock)
        let _ ← newLabel
        emitAt (.try handlerLabel finalizerLabel) span
        nest (·.enterTry))
      (.block body)
  | handler {body : Block} {param : Option Ident} {block : Block} {clauseSpan : Span}
    {finalizer : Option Block} {span : Span} :
    Part 1 (.try body (some ⟨param, block, clauseSpan⟩) finalizer span)
      (do
        let handlerLabel ← newLabel
        let finalizerLabel ← labelFor (finalizer.map lowerBlock)
        let endLabel ← newLabel
        emitAt (.try (some handlerLabel) finalizerLabel) span
        nest (·.enterTry)
        lowerBlock body
        emit (.endTry endLabel)
        place handlerLabel
        nest (·.setPhase .handler)
        openScope "catch"
        bindException param)
      (.block block)
  | finalizer {body : Block} {handler : Option CatchClause} {block : Block} {span : Span} :
    Part 2 (.try body handler (some block) span)
      (do
        let handlerLabel ← labelFor (handler.map lowerHandler)
        let finalizerLabel ← newLabel
        let endLabel ← newLabel
        emitAt (.try handlerLabel (some finalizerLabel)) span
        nest (·.enterTry)
        lowerBlock body
        emit (.endTry endLabel)
        emitPart .handler (.endTry endLabel) handlerLabel (handler.map lowerHandler)
        place finalizerLabel
        nest (·.setPhase .finalizer))
      (.block block)

/-- A `Stmt` at a path inside of another. -/
inductive Stmt.Contains : List Nat → Stmt → Stmt → Prop where
  | here {stmt : Stmt} : Contains [] stmt stmt
  | inside {i : Nat} {path : List Nat} {stmt part r : Stmt} {before : Lower Unit} :
    stmt.Part i before part → Contains path part r → Contains (i :: path) stmt r

/-- Lowering a `Stmt` in a state comes to the statement at a path inside of it, and to the state
that it is lowered in. -/
inductive Visits : List Nat → Stmt → LowerState → Stmt → LowerState → Prop where
  | here {stmt : Stmt} {s : LowerState} : Visits [] stmt s stmt s
  | inside {i : Nat} {path : List Nat} {stmt part r : Stmt} {before : Lower Unit}
    {s t u : LowerState} :
    stmt.Part i before part → before s = .ok () t → Visits path part t r u →
    Visits (i :: path) stmt s r u

/-! ## What is opened on the way -/

/-- Something that later steps are inside of is opened. -/
inductive Opens : LowerState → LowerState → Prop where
  | scope (s : LowerState) (name : String) : Opens s { s with scope := s.scope.enter name }
  | loop (s : LowerState) (continueLabel breakLabel : Label) :
    Opens s (s.nest (·.enterLoop continueLabel breakLabel))
  | region (s : LowerState) : Opens s (s.nest (·.enterTry))
  | phase (s : LowerState) (phase : TryPhase) : Opens s (s.nest (·.setPhase phase))

/-- From one state to another by steps that a relation holds of, and by what is opened. -/
def LeadsInto (R : LowerState → LowerState → Prop) : LowerState → LowerState → Prop :=
  Relation.ReflTransGen fun s t => R s t ∨ Opens s t

section LeadsInto

variable {R : LowerState → LowerState → Prop} {E : Diagnostic → Prop}

theorem LeadsInto.of_rel (h : R s t) : LeadsInto R s t :=
  .single (.inl h)

theorem LeadsInto.of_opens (h : Opens s t) : LeadsInto R s t :=
  .single (.inr h)

/-- Steps of expressions are among those of `LeadsInto`. -/
theorem Lower.ExprLaws.leadsInto (h : ExprLaws R E) : ExprLaws (LeadsInto R) E where
  refl _ := .refl
  trans := .trans
  emit s operation := .of_rel (h.emit s operation)
  newLabel s := .of_rel (h.newLabel s)
  token s token := .of_rel (h.token s token)
  symbol := h.symbol
  lowering := h.lowering
  tooLarge := h.tooLarge

theorem Lower.Keeps.leadsInto {step : Lower Unit} (h : Keeps R E step) :
    Keeps (LeadsInto R) E step :=
  h.mono .of_rel

theorem keeps_openScope (name : String) : Keeps (LeadsInto R) E (openScope name) :=
  keeps_of_ok fun s => ⟨(), _, rfl, .of_opens (.scope s name)⟩

theorem keeps_enterLoop (continueLabel breakLabel : Label) :
    Keeps (LeadsInto R) E (nest (·.enterLoop continueLabel breakLabel)) :=
  keeps_of_ok fun s => ⟨(), _, rfl, .of_opens (.loop s continueLabel breakLabel)⟩

theorem keeps_enterTry : Keeps (LeadsInto R) E (nest (·.enterTry)) :=
  keeps_of_ok fun s => ⟨(), _, rfl, .of_opens (.region s)⟩

theorem keeps_enterPhase (phase : TryPhase) : Keeps (LeadsInto R) E (nest (·.setPhase phase)) :=
  keeps_of_ok fun s => ⟨(), _, rfl, .of_opens (.phase s phase)⟩

/-- What comes before a part of a statement is made of steps, and opens what the part is in. -/
theorem Stmt.Part.keeps (h : StmtLaws R E) {part : Stmt} {before : Lower Unit}
    (hpart : stmt.Part i before part) : Keeps (LeadsInto R) E before := by
  have hw := h.toExprLaws.leadsInto
  have hcondition (condition : Expr) (l : Label) :
      Keeps (LeadsInto R) E (lowerCondition condition l) :=
    (lowerCondition_keeps h condition l).leadsInto
  have hbody (body : Block) : Keeps (LeadsInto R) E (lowerBlock body) :=
    (lowerBlock_keeps h body).leadsInto
  have htry (operation : Operation) (span : Span) : Keeps (LeadsInto R) E (emitAt operation span) :=
    (keeps_emitAt h operation span).leadsInto
  have hhandler (clause : Option CatchClause) (body : Lower Unit)
      (hbody : body ∈ clause.map lowerHandler) : Keeps (LeadsInto R) E body := by
    obtain ⟨c, -, rfl⟩ := Option.map_eq_some_iff.mp hbody
    exact (lowerHandler_keeps h c).leadsInto
  cases hpart with
  | block =>
    exact (htry _ _).bind hw fun _ => (keeps_openScope _).bind hw fun _ =>
      (lowerStmts_keeps h _).leadsInto
  | thenBranch => exact (keeps_newLabel hw).bind hw fun l => hcondition _ l
  | elseBranch =>
    exact (keeps_newLabel hw).bind hw fun l => (hcondition _ l).bind hw fun _ =>
      (lowerStmt_keeps h _).leadsInto.bind hw fun _ => (keeps_newLabel hw).bind hw fun _ =>
      (keeps_emit hw _).bind hw fun _ => keeps_emit hw _
  | loopBody =>
    exact (keeps_newLabel hw).bind hw fun _ => (keeps_newLabel hw).bind hw fun _ =>
      (keeps_emit hw _).bind hw fun _ => (hcondition _ _).bind hw fun _ => keeps_enterLoop _ _
  | tryBody =>
    exact (labelFor_keeps hw _).bind hw fun _ => (labelFor_keeps hw _).bind hw fun _ =>
      (keeps_newLabel hw).bind hw fun _ => (htry _ _).bind hw fun _ => keeps_enterTry
  | handler =>
    exact (keeps_newLabel hw).bind hw fun _ => (labelFor_keeps hw _).bind hw fun _ =>
      (keeps_newLabel hw).bind hw fun _ => (htry _ _).bind hw fun _ =>
      keeps_enterTry.bind hw fun _ => (hbody _).bind hw fun _ =>
      (keeps_emit hw _).bind hw fun _ => (keeps_emit hw _).bind hw fun _ =>
      (keeps_enterPhase _).bind hw fun _ => (keeps_openScope _).bind hw fun _ =>
      (bindException_keeps h _).leadsInto
  | finalizer =>
    exact (labelFor_keeps hw _).bind hw fun _ => (keeps_newLabel hw).bind hw fun _ =>
      (keeps_newLabel hw).bind hw fun _ => (htry _ _).bind hw fun _ =>
      keeps_enterTry.bind hw fun _ => (hbody _).bind hw fun _ => (keeps_emit hw _).bind hw fun _ =>
      (emitPart_keeps hw (keeps_enterPhase _) _ _ (hhandler _)).bind hw fun _ =>
      (keeps_emit hw _).bind hw fun _ => keeps_enterPhase _

end LeadsInto

variable {R : LowerState → LowerState → Prop} {E : Diagnostic → Prop}

/-- What is visited is led into (`LeadsInto`). -/
theorem Visits.leadsInto (h : StmtLaws R E) (hvisit : Visits path stmt s r t) :
    LeadsInto R s t := by
  induction hvisit with
  | here => exact .refl
  | inside hpart hbefore _ ih => exact .trans ((hpart.keeps h _).1 _ _ hbefore) ih

/-- What steps preserve, and what is opened preserves, holds wherever lowering comes. -/
theorem Visits.preserves (h : StmtLaws R E) {P : LowerState → Prop}
    (hsteps : ∀ {s t}, R s t → P s → P t) (hopens : ∀ {s t}, Opens s t → P s → P t)
    (hvisit : Visits path stmt s r t) (hs : P s) : P t := by
  have hleads := hvisit.leadsInto h
  clear hvisit
  induction hleads with
  | refl => exact hs
  | tail _ hstep ih =>
    rcases hstep with hrel | hopen
    · exact hsteps hrel ih
    · exact hopens hopen ih

/-! ## What lowering a part leaves -/

/-- Operations and local variables are added, and none is lost. -/
structure Extends (s s' : LowerState) : Prop where
  ops : s.draft.ops.toList <+: s'.draft.ops.toList
  locals : s.draft.locals.toList <+: s'.draft.locals.toList

theorem Extends.trans {s'' : LowerState} (h : Extends s s') (h' : Extends s' s'') : Extends s s'' :=
  ⟨h.ops.trans h'.ops, h.locals.trans h'.locals⟩

/-- All steps of lowering add operations and variables (`Extends`). -/
theorem stmtLaws_extends : StmtLaws Extends (fun _ => True) where
  refl _ := ⟨prefix_rfl, prefix_rfl⟩
  trans := .trans
  emit _ _ := ⟨⟨[_], Array.toList_push.symm⟩, prefix_rfl⟩
  newLabel _ := ⟨prefix_rfl, prefix_rfl⟩
  token _ _ := ⟨prefix_rfl, prefix_rfl⟩
  symbol _ := trivial
  lowering _ := trivial
  tooLarge _ _ _ _ _ := trivial
  emitAt _ _ _ := ⟨⟨[_], Array.toList_push.symm⟩, prefix_rfl⟩
  marked {s s'} span h := by
    obtain ⟨ops, hops⟩ := h.ops
    exact ⟨⟨_, (Draft.ops_mark span hops.symm).symm⟩, h.locals⟩
  declared _ _ _ _ := ⟨prefix_rfl, ⟨[_], Array.toList_push.symm⟩⟩
  enclosed _ h := ⟨h.ops, h.locals⟩
  looped _ _ h := ⟨h.ops, h.locals⟩
  outside h := ⟨h.ops, h.locals⟩

/-- While `whole` runs, `part` runs after `before`, and what it adds is not lost. If `whole`
succeeds, so do the two. -/
structure Calls (whole before part : Lower Unit) : Prop where
  kept : ∀ {s t}, before s = .ok () t → Extends (finalState (part t)) (finalState (whole s))
  succeeds : ∀ {s s'}, whole s = .ok () s' → ∃ t t', before s = .ok () t ∧ part t = .ok () t'

namespace Calls

variable {whole before part : Lower Unit}

/-- A step calls itself, after nothing. -/
theorem self (part : Lower Unit) : Calls part (pure ()) part where
  kept h := by
    cases h
    exact stmtLaws_extends.refl _
  succeeds {s s'} h := ⟨s, s', rfl, h⟩

/-- What comes after a part only adds to it. -/
theorem andThen (h : Calls whole before part) {rest : Lower Unit}
    (hrest : Keeps Extends (fun _ => True) rest) : Calls (do whole; rest) before part where
  kept {s t} hbefore := by
    have hkept := h.kept hbefore
    cases hs : whole s with
    | ok _ s' =>
      rw [hs] at hkept
      rw [bind_of_ok hs]
      exact hkept.trans (hrest.finalState s')
    | error e s' =>
      rw [hs] at hkept
      rw [bind_of_error hs]
      exact hkept
  succeeds hs := by
    obtain ⟨_, _, hs, -⟩ := exists_of_bind hs
    exact h.succeeds hs

/-- What comes before a part goes in front of what is there already. -/
theorem after {α : Type} (step : Lower α) {whole before : α → Lower Unit}
    (h : ∀ a, Calls (whole a) (before a) part) : Calls (step >>= whole) (step >>= before) part where
  kept hbefore := by
    obtain ⟨a, s', hs, hbefore⟩ := exists_of_bind hbefore
    rw [bind_of_ok hs]
    exact (h a).kept hbefore
  succeeds hwhole := by
    obtain ⟨a, s', hs, hwhole⟩ := exists_of_bind hwhole
    obtain ⟨t, t', hbefore, hpart⟩ := (h a).succeeds hwhole
    exact ⟨t, t', (bind_of_ok hs).trans hbefore, hpart⟩

/-- A part that comes first comes right after the step in front of it. -/
theorem next (step : Lower Unit) (h : Calls whole (pure ()) part) :
    Calls (do step; whole) step part where
  kept hstep := by
    rw [bind_of_ok hstep]
    exact h.kept rfl
  succeeds hwhole := by
    obtain ⟨_, t, hstep, hwhole⟩ := exists_of_bind hwhole
    obtain ⟨_, t', hbefore, hpart⟩ := h.succeeds hwhole
    cases hbefore
    exact ⟨t, t', hstep, hpart⟩

/-- Inside of a bracket a part comes after the entry. -/
theorem bracket (h : Calls whole before part) {enter leave : LowerState → LowerState}
    (hleave : ∀ s, Extends s (leave s)) :
    Calls (Lower.bracket enter leave whole) (do modify enter; before) part where
  kept {s t} hbefore := by
    have hkept := h.kept (show before (enter s) = .ok () t from hbefore)
    cases hs : whole (enter s) with
    | ok _ s' =>
      rw [hs] at hkept
      rw [bracket_of_ok hs]
      exact hkept.trans (hleave s')
    | error e s' =>
      rw [hs] at hkept
      rw [bracket_of_error hs]
      exact hkept.trans (hleave s')
  succeeds hs := by
    obtain ⟨_, hs, -⟩ := exists_of_bracket hs
    exact h.succeeds hs

/-- Inside of a bracket a part that comes first comes right after the entry. -/
theorem entered (h : Calls whole (pure ()) part) {enter leave : LowerState → LowerState}
    (hleave : ∀ s, Extends s (leave s)) :
    Calls (Lower.bracket enter leave whole) (modify enter) part :=
  h.bracket hleave

/-- The block of a handler. -/
theorem handlerBlock (param : Option Ident) (block : Block) (span : Span) :
    Calls (lowerHandler ⟨param, block, span⟩) (do openScope "catch"; bindException param)
      (lowerBlock block) :=
  ((self (lowerBlock block)).next (bindException param)).bracket fun _ =>
    ⟨prefix_rfl, prefix_rfl⟩

/-- A statement among others. -/
theorem among (before after : List Stmt) (stmt : Stmt) :
    Calls (lowerStmts (before ++ stmt :: after)) (lowerStmts before) (lowerStmt stmt) := by
  induction before with
  | nil => exact (self (lowerStmt stmt)).andThen (lowerStmts_keeps stmtLaws_extends after)
  | cons first before ih => exact .after (lowerStmt first) fun _ => ih

end Calls

theorem lowerStmt_try (body : Block) (handler : Option CatchClause) (finalizer : Option Block)
    (span : Span) : lowerStmt (.try body handler finalizer span) =
      emitTry span (lowerBlock body) (handler.map lowerHandler) (finalizer.map lowerBlock) := by
  cases handler <;> cases finalizer <;> rfl

theorem labelFor_some_bind {α : Type} (part : Lower Unit) (f : Option Label → Lower α) :
    (labelFor (some part) >>= f) = (do let l ← newLabel; f (some l)) :=
  rfl

/-- `lowerStmt` lowers the parts of a statement, each after the steps that come before it. -/
theorem Stmt.Part.calls {part : Stmt} {before : Lower Unit} (h : stmt.Part i before part) :
    Calls (lowerStmt stmt) before (lowerStmt part) := by
  have hl := stmtLaws_extends
  have hself := Calls.self (lowerStmt part)
  have hleave (f : Nesting → Nesting) (s : LowerState) : Extends s (s.nest f) :=
    ⟨prefix_rfl, prefix_rfl⟩
  have hclose (s : LowerState) : Extends s { s with scope := s.scope.leave } :=
    ⟨prefix_rfl, prefix_rfl⟩
  have hemit (operation : Operation) : Keeps Extends (fun _ => True) (emit operation) :=
    keeps_emit hl operation
  have hphase (phase : TryPhase) : Keeps Extends (fun _ => True) (nest (·.setPhase phase)) :=
    keeps_of_ok fun s => ⟨(), _, rfl, hleave _ s⟩
  have hhandler (exit : Operation) (l : Option Label) (handler : Option CatchClause) :
      Keeps Extends (fun _ => True) (emitPart .handler exit l (handler.map lowerHandler)) := by
    refine emitPart_keeps hl (hphase _) exit l fun body hbody => ?_
    obtain ⟨clause, -, rfl⟩ := Option.map_eq_some_iff.mp hbody
    exact lowerHandler_keeps hl clause
  have hfinalizer (exit : Operation) (l : Option Label) (finalizer : Option Block) :
      Keeps Extends (fun _ => True) (emitPart .finalizer exit l (finalizer.map lowerBlock)) := by
    refine emitPart_keeps hl (hphase _) exit l fun body hbody => ?_
    obtain ⟨block, -, rfl⟩ := Option.map_eq_some_iff.mp hbody
    exact lowerBlock_keeps hl block
  cases h with
  | block =>
    exact .after _ fun _ => ((Calls.among _ _ _).bracket hclose).andThen (keeps_emitAt hl _ _)
  | @thenBranch _ _ elseBranch _ =>
    rw [lowerStmt]
    refine .after _ fun elseLabel => .next _ (hself.andThen ?_)
    cases elseBranch with
    | none => exact hemit _
    | some branch =>
      exact (keeps_newLabel hl).bind hl fun _ => (hemit _).bind hl fun _ =>
        (hemit _).bind hl fun _ => (lowerStmt_keeps hl branch).bind hl fun _ => hemit _
  | elseBranch =>
    rw [lowerStmt]
    exact .after _ fun elseLabel => .after _ fun _ => .after _ fun _ => .after _ fun endLabel =>
      .after _ fun _ => .next _ (hself.andThen (hemit _))
  | loopBody =>
    exact .after _ fun continueLabel => .after _ fun breakLabel => .after _ fun _ =>
      .after _ fun _ => (hself.entered (hleave (·.exitLoop))).andThen
        ((hemit _).bind hl fun _ => hemit _)
  | tryBody =>
    rw [lowerStmt_try]
    exact .after _ fun handlerLabel => .after _ fun finalizerLabel => .after _ fun endLabel =>
      .after _ fun _ => ((hself.andThen ((hemit _).bind hl fun _ =>
        (hhandler _ _ _).bind hl fun _ => hfinalizer _ _ _)).entered
          (hleave (·.exitTry))).andThen (hemit _)
  | handler =>
    rw [lowerStmt_try, emitTry, Option.map_some, labelFor_some_bind]
    refine .after _ fun handlerLabel => .after _ fun finalizerLabel => .after _ fun endLabel =>
      .after _ fun _ => (Calls.bracket (.after _ fun _ => .after _ fun _ => ?_)
        (hleave (·.exitTry))).andThen (hemit _)
    refine .andThen (.after _ fun _ => .after _ fun _ => ?_) (hfinalizer _ _ _)
    exact (Calls.handlerBlock _ _ _).andThen (hemit _)
  | @finalizer body handler block span =>
    rw [lowerStmt_try, emitTry, Option.map_some]
    simp only [labelFor_some_bind]
    refine .after _ fun handlerLabel => .after _ fun finalizerLabel => .after _ fun endLabel =>
      .after _ fun _ => (Calls.bracket (.after _ fun _ => .after _ fun _ => .after _ fun _ => ?_)
        (hleave (·.exitTry))).andThen (hemit _)
    exact .after _ fun _ => .next _ (hself.andThen (hemit _))

/-- What lowering a statement inside of another adds is there in the end. -/
theorem Visits.extends (h : Visits path stmt s r t) :
    Extends (finalState (lowerStmt r t)) (finalState (lowerStmt stmt s)) := by
  induction h with
  | here => exact stmtLaws_extends.refl _
  | inside hpart hbefore _ ih => exact ih.trans (hpart.calls.kept hbefore)

/-- Of a statement that is lowered, every statement in it is visited (`Visits`) and lowered. -/
theorem exists_visits (h : stmt.Contains path r) (hs : lowerStmt stmt s = .ok () s') :
    ∃ t t', Visits path stmt s r t ∧ lowerStmt r t = .ok () t' ∧ Extends t' s' := by
  induction h generalizing s s' with
  | here => exact ⟨s, s', .here, hs, stmtLaws_extends.refl s'⟩
  | inside hpart _ ih =>
    obtain ⟨t, t', hbefore, ht⟩ := hpart.calls.succeeds hs
    obtain ⟨u, u', hvisit, hu, hextends⟩ := ih ht
    have hkept := hpart.calls.kept hbefore
    rw [ht, hs] at hkept
    exact ⟨u, u', .inside hpart hbefore hvisit, hu, hextends.trans hkept⟩

end ContractScript
