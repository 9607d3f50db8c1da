import ContractScript.Proofs.Visited

/-!
# Names and slots after a statement

What a block or a handler declares is known in a scope of its own, which is closed again however
lowering ends. Only a declaration that is itself the statement, or a branch or a loop body of it,
stays in the scope around the statement. Slots are another matter: they are taken from the function
and stay taken.
-/

namespace ContractScript

open Lower

/-! ## Frames -/

/-- Whether a `Stmt` declares a variable in the scope where it stands: it is a declaration, or a
branch or a loop body of it does. -/
def Stmt.declaresInPlace (stmt : Stmt) : Bool :=
  match stmt with
  | .declare _ _ _ _ _ => true
  | .if _ thenBranch none _ => thenBranch.declaresInPlace
  | .if _ thenBranch (some elseBranch) _ =>
    thenBranch.declaresInPlace || elseBranch.declaresInPlace
  | .while _ body _ => body.declaresInPlace
  | _ => false
termination_by structural stmt

/-- The frames of the scope are the same before and after. -/
def KeepsScope (s s' : LowerState) : Prop :=
  SameGlobals s.scope s'.scope

/-- Nothing but declarations changes a frame. -/
theorem frameLaws_keepsScope : FrameLaws KeepsScope (fun _ => True) where
  refl _ := ⟨rfl, rfl, rfl⟩
  trans := .trans
  emit _ _ := ⟨rfl, rfl, rfl⟩
  newLabel _ := ⟨rfl, rfl, rfl⟩
  token _ _ := ⟨rfl, rfl, rfl⟩
  symbol _ := trivial
  lowering _ := trivial
  tooLarge _ _ _ _ _ := trivial
  emitAt _ _ _ := ⟨rfl, rfl, rfl⟩
  marked _ h := ⟨h.builtins_eq, h.rootFrame_eq, h.inner_eq⟩
  enclosed _ h := ⟨h.builtins_eq, h.rootFrame_eq, congrArg List.tail h.inner_eq⟩
  looped _ _ h := ⟨h.builtins_eq, h.rootFrame_eq, h.inner_eq⟩
  outside h := ⟨h.builtins_eq, h.rootFrame_eq, h.inner_eq⟩

/-- What declares in the innermost frame only leaves no trace outside of a frame of its own. -/
theorem Lower.Keeps.inOwnScope {body : Lower Unit} (h : Keeps KeepsGlobals (fun _ => True) body)
    (name : String) : Keeps KeepsScope (fun _ => True) (Lower.inScope name body) :=
  h.bracket fun _ _ hkeeps =>
    ⟨hkeeps.builtins_eq, hkeeps.rootFrame_eq (List.cons_ne_nil _ _), hkeeps.tail_eq⟩

/-- `lowerBlock` closes its scope again. -/
theorem lowerBlock_keepsScope (b : Block) : Keeps KeepsScope (fun _ => True) (lowerBlock b) := by
  obtain ⟨ss, span⟩ := b
  have hl := frameLaws_keepsScope
  have hbody := (lowerStmts_keeps lawful_keepsGlobals.stmtLaws ss).inOwnScope "block"
  exact (keeps_emitAt hl _ _).bind hl fun _ => hbody.bind hl fun _ => keeps_emitAt hl _ _

theorem lowerHandler_keepsScope (c : CatchClause) :
    Keeps KeepsScope (fun _ => True) (lowerHandler c) := by
  obtain ⟨param, body, span⟩ := c
  have hl := lawful_keepsGlobals.stmtLaws
  have hbody : Keeps KeepsGlobals (fun _ => True) (do bindException param; lowerBlock body) :=
    (bindException_keeps hl param).bind hl fun _ => lowerBlock_keeps hl body
  exact hbody.inOwnScope "catch"

/-- `lowerStmt` leaves the scope as it was unless the statement declares something where it stands.
-/
theorem lowerStmt_keepsScope (stmt : Stmt) (h : stmt.declaresInPlace = false) :
    Keeps KeepsScope (fun _ => True) (lowerStmt stmt) := by
  have hl := frameLaws_keepsScope
  match stmt with
  | .expr e _ => exact (lowerDiscarded_keeps hl e).markFrom hl _
  | .declare _ _ _ _ _ => cases h
  | .return _ _ => exact (lowerReturn_keeps hl _ _).markFrom hl _
  | .throw value _ =>
    exact ((lowerExpr_keeps hl value).bind hl fun _ => keeps_emit hl _).markFrom hl _
  | .break _ => exact (emitExit_keeps hl _ _ _).markFrom hl _
  | .continue _ => exact (emitExit_keeps hl _ _ _).markFrom hl _
  | .block body => exact lowerBlock_keepsScope body
  | .if condition thenBranch none _ =>
    have hthen := lowerStmt_keepsScope thenBranch h
    exact (keeps_newLabel hl).bind hl fun elseLabel =>
      (lowerCondition_keeps hl _ _).bind hl fun _ => hthen.bind hl fun _ => keeps_emit hl _
  | .if condition thenBranch (some elseBranch) _ =>
    obtain ⟨hthen, helse⟩ := Bool.or_eq_false_iff.mp h
    have hthen := lowerStmt_keepsScope thenBranch hthen
    have helse := lowerStmt_keepsScope elseBranch helse
    exact (keeps_newLabel hl).bind hl fun elseLabel =>
      (lowerCondition_keeps hl _ _).bind hl fun _ => hthen.bind hl fun _ =>
      (keeps_newLabel hl).bind hl fun _ => (keeps_emit hl _).bind hl fun _ =>
      (keeps_emit hl _).bind hl fun _ => helse.bind hl fun _ => keeps_emit hl _
  | .while condition body _ =>
    have hbody := lowerStmt_keepsScope body h
    exact (keeps_newLabel hl).bind hl fun continueLabel =>
      (keeps_newLabel hl).bind hl fun breakLabel => (keeps_emit hl _).bind hl fun _ =>
      (lowerCondition_keeps hl _ _).bind hl fun _ =>
      (hbody.inLoop hl continueLabel breakLabel).bind hl fun _ =>
      (keeps_emit hl _).bind hl fun _ => keeps_emit hl _
  | .try body handler finalizer _ =>
    rw [lowerStmt_try]
    refine emitTry_keeps hl _ (lowerBlock_keepsScope body) (fun part hpart => ?_)
      (fun part hpart => ?_)
    · obtain ⟨clause, -, rfl⟩ := Option.map_eq_some_iff.mp hpart
      exact lowerHandler_keepsScope clause
    · obtain ⟨block, -, rfl⟩ := Option.map_eq_some_iff.mp hpart
      exact lowerBlock_keepsScope block
  | .other _ _ => exact keeps_fail hl _

theorem SameGlobals.lookup_eq {scope scope' : Scope} (h : SameGlobals scope scope')
    (name : String) : scope'.lookup name = scope.lookup name := by
  rw [Scope.lookup, Scope.lookup, h.inner_eq, h.rootFrame_eq, h.builtins_eq]

/-! ## Slots -/

/-- A `Draft` after one of the things that can be done to it. -/
inductive Draft.Step (d : Draft) : Draft → Prop where
  | addParam (slot : Slot) : Step d (d.addParam slot).2
  | addLocal (slot : Slot) : Step d (d.addLocal slot).2
  | emit (operation : Operation) : Step d (d.emit operation)
  | emitAt (operation : Operation) (span : Span) : Step d (d.emitAt operation span)
  | setLocation (index : Nat) (span : Span) : Step d (d.setLocation index span)
  | mark (start : Nat) (span : Span) : Step d (d.mark start span)
  | newLabel : Step d d.newLabel.2
  | nest (f : Nesting → Nesting) : Step d (d.nest f)

/-- A `Draft` after any of the things that can be done to it. -/
def Draft.Later : Draft → Draft → Prop :=
  Relation.ReflTransGen Draft.Step

/-- Slots that are taken stay taken. -/
theorem Draft.Later.locals {d d' : Draft} (h : d.Later d') :
    d.locals.toList <+: d'.locals.toList := by
  induction h with
  | refl => exact List.prefix_rfl
  | tail _ hstep ih =>
    refine ih.trans ?_
    cases hstep with
    | addLocal slot => exact ⟨[slot], Array.toList_push.symm⟩
    | _ => exact List.prefix_rfl

/-- Lowering does to a draft only what `Draft.Step` lists. -/
theorem stmtLaws_later : StmtLaws (fun s s' => s.draft.Later s'.draft) (fun _ => True) where
  refl _ := .refl
  trans := .trans
  emit _ operation := .single (.emit operation)
  newLabel _ := .single .newLabel
  token _ _ := .refl
  symbol _ := trivial
  lowering _ := trivial
  tooLarge _ _ _ _ _ := trivial
  emitAt _ operation span := .single (.emitAt operation span)
  marked span h := h.tail (.mark _ span)
  declared _ id ty _ := .single (.addLocal ⟨id.name, ty⟩)
  enclosed _ h := h
  looped continueLabel breakLabel h :=
    .head (.nest (·.enterLoop continueLabel breakLabel)) (.tail h (.nest (·.exitLoop)))
  outside {s _} h := .head (.nest fun _ => s.draft.nesting) (.tail h (.nest (·.exitTry)))

/-- A statement inside of another sees the draft `Later`. -/
theorem Visits.later {path : List Nat} {stmt r : Stmt} {s t : LowerState}
    (h : Visits path stmt s r t) : s.draft.Later t.draft := by
  refine h.preserves (P := (s.draft.Later ·.draft)) stmtLaws_later
    (fun hstep hu => hu.trans hstep) (fun hopens hu => hu.trans ?_) .refl
  cases hopens with
  | scope name => exact .refl
  | loop continueLabel breakLabel => exact .single (.nest (·.enterLoop continueLabel breakLabel))
  | region => exact .single (.nest (·.enterTry))
  | phase phase => exact .single (.nest (·.setPhase phase))

/-! ## Both -/

/-- However `lowerStmt` ends, a statement without `declaresInPlace` leaves all frames of the
scope as they were, so every name means what it meant before. The slots that were taken on the way
are among those of the function in the end, and whatever is done to the draft `Later`, lowering more
statements included, a new slot is none of them. -/
theorem lowering_is_hygienic (stmt : Stmt) (s s' : LowerState)
    (hstmt : stmt.declaresInPlace = false) (hend : finalState (lowerStmt stmt s) = s') :
    SameGlobals s.scope s'.scope ∧
    (∀ name, s'.scope.lookup name = s.scope.lookup name) ∧
    (∀ path r t, Visits path stmt s r t →
      s.draft.locals.toList <+: t.draft.locals.toList ∧
      t.draft.locals.toList <+: s'.draft.locals.toList) ∧
    (∀ d, s'.draft.Later d → s'.draft.locals.toList <+: d.locals.toList ∧
      ∀ slot, s'.draft.locals.size ≤ (d.addLocal slot).1) ∧
    ∀ next t, s'.draft.Later t.draft →
      s'.draft.Later (finalState (lowerStmt next t)).draft ∧
      ∀ path r u, Visits path next t r u → s'.draft.Later u.draft := by
  subst hend
  have hscope := (lowerStmt_keepsScope stmt hstmt).finalState s
  have hlater (next : Stmt) (t : LowerState) :
      t.draft.Later (finalState (lowerStmt next t)).draft :=
    (lowerStmt_keeps stmtLaws_later next).finalState t
  refine ⟨hscope, hscope.lookup_eq, fun path r t hvisit => ⟨hvisit.later.locals, ?_⟩,
    fun d hd => ⟨hd.locals, fun slot => hd.locals.length_le⟩,
    fun next t ht => ⟨ht.trans (hlater next t), fun path r u hvisit => ht.trans hvisit.later⟩⟩
  exact (hlater r t).locals.trans hvisit.extends.locals

/-- A variable of the function. -/
def outerSymbol : Symbol := ⟨"x", 2, {}, .slot .local 0 true⟩

/-- The body of a function that has declared a variable. -/
def declaringState : LowerState where
  draft := { id := 0, name := "test", locals := #[⟨"x", .integer⟩] }
  scope :=
    { builtins := {}
      rootFrame := ⟨1, "root", []⟩
      inner := [⟨2, "test", [outerSymbol]⟩]
      nextId := 3 }
  tokens := .empty

def declaration (name : String) : Stmt :=
  .declare ⟨name, {}⟩ .integer (some (.literal (.int 1) .integer {})) false {}

/-- A try statement that declares the variable again, and others in its handler, where lowering it
fails. -/
def shadowedBlock : Stmt :=
  .try ⟨[declaration "x"], {}⟩
    (some ⟨some ⟨"e", {}⟩, ⟨[declaration "y", .other "switch" {}], {}⟩, {}⟩) none {}

theorem lowering_is_hygienic_shadowedBlock :
    shadowedBlock.declaresInPlace = false ∧
    ∃ s', lowerStmt shadowedBlock declaringState =
        .error (.lowering (.unsupported "switch" {})) s' ∧
      s'.draft.locals.toList.map Slot.name = ["x", "x", "e", "y"] ∧
      SameGlobals declaringState.scope s'.scope ∧
      s'.scope.lookup "x" = some outerSymbol ∧
      s'.scope.lookup "y" = none ∧
      ∀ d, s'.draft.Later d → ∀ slot, 4 ≤ (d.addLocal slot).1 := by
  obtain ⟨hscope, hlookup, -, hslots, -⟩ :=
    lowering_is_hygienic shadowedBlock declaringState _ rfl rfl
  have hnames : (finalState (lowerStmt shadowedBlock declaringState)).draft.locals.toList.map
      Slot.name = ["x", "x", "e", "y"] := by decide +kernel
  have hsize := congrArg List.length hnames
  rw [List.length_map, Array.length_toList] at hsize
  refine ⟨rfl, _, ?_, hnames, hscope, (hlookup "x").trans rfl, (hlookup "y").trans rfl,
    fun d hd slot => Nat.le_trans (Nat.le_of_eq hsize.symm) ((hslots d hd).2 slot)⟩
  rfl

end ContractScript
