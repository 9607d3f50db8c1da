import ContractScript.Proofs.SameExecutions
import ContractScript.Proofs.SequencePoints
import ContractScript.Proofs.Visited

/-!
# Where statements start

A statement marks the first operation that it was lowered to with its place (`Stmt.point?`,
`Pointed`). Expressions start with an instruction: what they use has operations, and none of them is
a marker or a jump. So no marker takes the place of a statement, and only an exit can start with a
jump that is left out later.
-/

namespace ContractScript

open List

variable {op : Operation} {j offset : Nat} {e : Expr} {body : Lower Unit} {stmt r : Stmt}
  {path : List Nat}

open Lower

/-! ## First operations -/

/-- Whether an `Operation` is an instruction that is never left out. -/
def Operation.isKept : Operation → Bool
  | .label _ | .anchor | .jump .always _ => false
  | _ => true

theorem Operation.isMarker_of_isKept (h : op.isKept = true) : op.isMarker = false := by
  cases op with
  | label | anchor => cases h
  | _ => rfl

theorem Operation.isKept_of_isStraight (h : op.isStraight = true) : op.isKept = true := by
  cases op <;> first | rfl | cases h

theorem isKept_push (c : Constant) : c.push.isKept = true := by
  cases c <;> rfl

/-- An operation that is `Needless` is not `isKept`. -/
theorem Needless.isKept_eq_false {code : List Operation} (h : Needless code j)
    (hj : code[j]? = some op) : op.isKept = false := by
  obtain ⟨l, markers, behind, hdrop, -⟩ := h
  have hhead := congrArg List.head? hdrop
  rw [head?_drop, hj] at hhead
  cases hhead
  rfl

/-- Pieces of a `Program` start with an instruction that is never left out, if what they call is
what names stand for. -/
def StartsKept (p : Program) (ps : List Piece) : Prop :=
  (∀ piece ∈ ps, piece.Accounted p.declared.scope) →
    ∃ op, (codeOf ps).head? = some op ∧ op.isKept = true

section StartsKept

variable {p : Program} {ps : List Piece}

theorem StartsKept.append (h : StartsKept p ps) (qs : List Piece) : StartsKept p (ps ++ qs) := by
  intro hpieces
  obtain ⟨op, hop, hkept⟩ := h (forall_mem_append.mp hpieces).1
  refine ⟨op, ?_, hkept⟩
  rw [codeOf_append, head?_append, hop, Option.some_or]

theorem startsKept_plain (h : op.isKept = true) (ops : List Operation) :
    StartsKept p (plain (op :: ops)) :=
  fun _ => ⟨op, rfl, h⟩

/-- Whatever is used `StartsKept`: it has operations, and none of them branches. -/
theorem startsKept_use (symbol : Symbol) (argCount : Nat) (isWanted : Bool)
    (ops : List Operation) : StartsKept p [.use symbol argCount isWanted ops] := by
  intro hpieces
  obtain ⟨⟨e, hcallee⟩, -, ctx, ctx', huses⟩ := hpieces _ mem_cons_self
  -- whatever is no function of the program is provided, with its operations
  have hbound : (∀ id paramCount returns, symbol.definition ≠ .function id paramCount returns) →
      Bound symbol.definition := fun hfunction =>
    (allBound_bindProgram p).symbols symbol (provided_of_callee? hcallee huses.isUsable hfunction)
  rw [codeOf_cons, codeOf_nil, append_nil, Piece.ops]
  generalize symbol.definition = definition at huses hbound
  cases huses with
  | function => exact ⟨_, rfl, rfl⟩
  | @host call =>
    have hhost := hbound fun _ _ _ hdef => by cases hdef
    obtain ⟨op, rest, hops⟩ := exists_cons_of_ne_nil hhost.ops_ne_nil
    rw [hops]
    refine ⟨op, rfl, Operation.isKept_of_isStraight (hhost.provided op ?_)⟩
    rw [hops]
    exact mem_cons_self
  | method _ => exact ⟨_, rfl, rfl⟩
  | event => exact ⟨_, rfl, rfl⟩

theorem StartsKept.assign (h : StartsKept p ps) (op : Option BinaryOp) (keep : Bool)
    (kind : SlotKind) (index : Nat) (ops : List Operation) :
    StartsKept p (assignPieces op keep kind index ps ops) := by
  cases op with
  | none => exact h.append _
  | some op => exact (startsKept_plain rfl []).append _ |>.append _

mutual

/-- The code of an expression `StartsKept`. -/
theorem ExprCode.startsKept {e : Expr} {ctx ctx' : Context} {ps : List Piece}
    (h : ExprCode e ctx ps ctx') : StartsKept p ps := by
  match h with
  | .literal => exact startsKept_plain (isKept_push _) []
  | .variable _ _ => exact startsKept_plain rfl []
  | .constant _ _ => exact startsKept_plain (isKept_push _) []
  | .shortCircuit _ hleft _ => exact ((hleft.startsKept.append _).append _).append _
  | .nullTest _ _ _ hoperand => exact hoperand.startsKept.append _
  | .operator _ _ hleft _ _ => exact (hleft.startsKept.append _).append _
  | .negated _ => exact startsKept_plain rfl []
  | .unary _ hoperand => exact hoperand.startsKept.append _
  | .assign _ hvalue _ => exact hvalue.startsKept.assign _ _ _ _ _
  | .call _ _ hargs _ =>
    -- without arguments the call itself comes first
    rcases hargs.startsKept with rfl | hfirst
    · exact startsKept_use _ _ _ _
    · exact hfirst.append _
  | .property _ _ _ => exact startsKept_use _ _ _ _
  | .length _ _ _ hobject => exact hobject.startsKept.append _
  | .paren hinner => exact hinner.startsKept

theorem ArgsCode.startsKept {args : List Expr} {ctx ctx' : Context} {ps : List Piece}
    (h : ArgsCode args ctx ps ctx') : ps = [] ∨ StartsKept p ps := by
  match h with
  | .nil => exact .inl rfl
  | .cons hrest harg =>
    rcases hrest.startsKept with rfl | hfirst
    · exact .inr harg.startsKept
    · exact .inr (hfirst.append _)

end

theorem DiscardedCode.startsKept {ctx ctx' : Context} (h : DiscardedCode e ctx ps ctx') :
    StartsKept p ps := by
  cases h with
  | assign _ _ hvalue _ => exact hvalue.startsKept.assign _ _ _ _ _
  | call _ _ _ hargs _ =>
    rcases hargs.startsKept (p := p) with rfl | hfirst
    · exact (startsKept_use _ _ _ _).append _
    · exact (hfirst.append _).append _
  | value _ hvalue => exact hvalue.startsKept.append _

end StartsKept

/-! ## Marks -/

variable {s s' : LowerState}

/-- An operation is the first that is added. -/
def Begins (op : Op) (s s' : LowerState) : Prop :=
  s.draft.ops.toList ++ [op] <+: s'.draft.ops.toList

theorem Begins.extend {op : Op} {s'' : LowerState} (h : Begins op s s')
    (hextends : Extends s' s'') : Begins op s s'' :=
  h.trans hextends.ops

theorem Begins.getElem? {op : Op} (h : Begins op s s') :
    s'.draft.ops.toList[s.draft.ops.size]? = some op := by
  obtain ⟨rest, heq⟩ := h
  rw [← heq, append_assoc, getElem?_append_right (Nat.le_of_eq Array.length_toList),
    Array.length_toList, Nat.sub_self]
  rfl

/-- Operations without a place of their own are added. -/
def AddsUnplaced (s s' : LowerState) : Prop :=
  ∃ ops, s'.draft.ops.toList = s.draft.ops.toList ++ ops ∧ ∀ op ∈ ops, op.location = none

/-- Expressions give no places to operations (`AddsUnplaced`). -/
theorem exprLaws_addsUnplaced : ExprLaws AddsUnplaced (fun _ => True) where
  refl _ := ⟨[], (append_nil _).symm, forall_mem_nil _⟩
  trans := by
    rintro s s' s'' ⟨ops, hops, hnone⟩ ⟨ops', hops', hnone'⟩
    exact ⟨ops ++ ops', by rw [hops', hops, append_assoc],
      forall_mem_append.mpr ⟨hnone, hnone'⟩⟩
  emit _ _ := ⟨[_], Array.toList_push, forall_mem_singleton.mpr rfl⟩
  newLabel _ := ⟨[], (append_nil _).symm, forall_mem_nil _⟩
  token _ _ := ⟨[], (append_nil _).symm, forall_mem_nil _⟩
  symbol _ := trivial
  lowering _ := trivial
  tooLarge _ _ _ _ _ := trivial

/-- The first operation of pieces that are added, if it has no place yet. -/
theorem AddsUnplaced.begins (h : AddsUnplaced s s') {ps : List Piece} (hwrites : Writes s s' ps)
    (hop : (codeOf ps).head? = some op) : Begins ⟨op, none⟩ s s' := by
  obtain ⟨ops, hops, hnone⟩ := h
  -- what is added is the code of the pieces, so the two have the same first operation
  have hcode : ops.map Op.operation = codeOf ps := by
    have hcode := hwrites.code_eq
    rw [Draft.code, Draft.code, hops, map_append] at hcode
    exact append_cancel_left hcode
  rw [← hcode, head?_map] at hop
  obtain ⟨⟨operation, location⟩, hfirst, rfl⟩ := Option.map_eq_some_iff.mp hop
  obtain ⟨rest, rfl⟩ := head?_eq_some_iff.mp hfirst
  cases hnone _ mem_cons_self
  exact ⟨rest, by rw [hops, append_assoc]; rfl⟩

/-- The `Operation` at an index has a place and is no marker, and it is never left out unless it is
all that a statement has. -/
structure Pointed (isBare : Bool) (d : Draft) (j : Nat) (op : Operation) (span : Span) : Prop where
  op_eq : d.ops.toList[j]? = some ⟨op, some span⟩
  isMarker : op.isMarker = false
  isKept : isBare = false → op.isKept = true

/-- What comes later leaves a `Pointed` operation as it is. -/
theorem Pointed.extend {isBare : Bool} {span : Span} (h : Pointed isBare s.draft j op span)
    (hextends : Extends s s') : Pointed isBare s'.draft j op span where
  op_eq := by
    obtain ⟨rest, heq⟩ := hextends.ops
    rw [← heq, getElem?_append_left (List.getElem?_eq_some_iff.mp h.op_eq).1, h.op_eq]
  isMarker := h.isMarker
  isKept := h.isKept

section Pointed

variable {p : Program} {isBare : Bool} {s s' : LowerState} {span : Span}

/-- An operation without a place that is never left out is the first that is added. -/
def BeginsKept (s s' : LowerState) : Prop :=
  ∃ op, op.isKept = true ∧ Begins ⟨op, none⟩ s s'

/-- `lowerExpr` first adds an operation that is never left out. -/
theorem lowerExpr_beginsKept (h : lowerExpr e s = .ok () s')
    (hover : p.declared.scope.Over s.scope) : BeginsKept s s' := by
  obtain ⟨ps, hcode, hwrites⟩ := lowerExpr_code e h
  have hpieces := ((piecewise_accounted (inner_declare _ p)).expr hcode hover).2
  obtain ⟨op, hop, hkept⟩ := hcode.startsKept hpieces
  have hadds := (lowerExpr_keeps exprLaws_addsUnplaced e s).1 () s' h
  exact ⟨op, hkept, hadds.begins hwrites hop⟩

/-- `lowerDiscarded` does so too. -/
theorem lowerDiscarded_beginsKept (h : lowerDiscarded e s = .ok () s')
    (hover : p.declared.scope.Over s.scope) : BeginsKept s s' := by
  obtain ⟨ps, hcode, hwrites⟩ := lowerDiscarded_code h
  have hpieces := ((piecewise_accounted (inner_declare _ p)).discarded hcode hover).2
  obtain ⟨op, hop, hkept⟩ := hcode.startsKept hpieces
  have hadds := (lowerDiscarded_keeps exprLaws_addsUnplaced e s).1 () s' h
  exact ⟨op, hkept, hadds.begins hwrites hop⟩

/-- An expression, with something after it. -/
theorem lowerExpr_bind_beginsKept {e : Expr} {rest : Lower Unit}
    (hrest : Keeps Extends (fun _ => True) rest)
    (h : (do lowerExpr e; rest : Lower Unit) s = .ok () s')
    (hover : p.declared.scope.Over s.scope) : BeginsKept s s' := by
  obtain ⟨_, s₁, hexpr, hlast⟩ := exists_of_bind h
  obtain ⟨op, hkept, hbegins⟩ := lowerExpr_beginsKept hexpr hover
  exact ⟨op, hkept, hbegins.extend ((hrest s₁).1 () s' hlast)⟩

/-- `markFrom` marks the first operation that was added. -/
theorem markFrom_begins (h : markFrom span body s = .ok () s') :
    ∃ s₁, body s = .ok () s₁ ∧ ∀ op, Begins ⟨op, none⟩ s s₁ → Begins ⟨op, some span⟩ s s' := by
  obtain ⟨s₁, hbody, rfl⟩ := exists_of_markFrom h
  refine ⟨s₁, hbody, ?_⟩
  rintro op ⟨rest, heq⟩
  rw [append_assoc] at heq
  refine ⟨rest, ?_⟩
  rw [append_assoc]
  exact (Draft.ops_mark span heq.symm).symm

/-- A statement that `markFrom` marks is `Pointed` at its first operation. -/
theorem markFrom_pointed (h : markFrom span body s = .ok () s')
    (hbody : ∀ s₁, body s = .ok () s₁ → BeginsKept s s₁) :
    ∃ op, Pointed isBare s'.draft s.draft.ops.size op span := by
  obtain ⟨s₁, hs₁, hmark⟩ := markFrom_begins h
  obtain ⟨op, hkept, hbegins⟩ := hbody s₁ hs₁
  exact ⟨op, (hmark op hbegins).getElem?, Operation.isMarker_of_isKept hkept, fun _ => hkept⟩

/-- An exit is one operation, which may be a jump. -/
theorem emitExit_pointed {exit : Nesting → Except ExitError Exit} {keyword : String}
    (h : markFrom span (emitExit exit keyword span) s = .ok () s') :
    ∃ op, Pointed true s'.draft s.draft.ops.size op span := by
  obtain ⟨s₁, hs₁, hmark⟩ := markFrom_begins h
  obtain ⟨e, -, rfl⟩ := exists_of_emitExit hs₁
  have hbegins : Begins ⟨e.operation, none⟩ s { s with draft := s.draft.emit e.operation } :=
    ⟨[], (append_nil _).trans Array.toList_push.symm⟩
  refine ⟨e.operation, (hmark _ hbegins).getElem?, ?_, fun hbare => by cases hbare⟩
  cases e <;> rfl

/-- `lowerCondition` starts at the place of the condition. -/
theorem lowerCondition_pointed {condition : Expr} {target : Label}
    (h : lowerCondition condition target s = .ok () s') (hover : p.declared.scope.Over s.scope) :
    ∃ op, Pointed isBare s'.draft s.draft.ops.size op condition.span := by
  obtain ⟨_, s₁, hmarked, hjump⟩ := exists_of_bind h
  have hfirst : ∃ op, Pointed isBare s₁.draft s.draft.ops.size op condition.span :=
    markFrom_pointed hmarked fun s₂ hs₂ => lowerExpr_beginsKept hs₂ hover
  obtain ⟨op, hop⟩ := hfirst
  have hextends := (keeps_emit stmtLaws_extends.toExprLaws _ s₁).1 () s' hjump
  exact ⟨op, hop.extend hextends⟩

end Pointed

/-! ## Statements -/

/-- Where a `Stmt` starts for a debugger: its own place, or that of its condition, with the number
of operations that come before. A statement that only groups others has no place. -/
def Stmt.point? : Stmt → Option (Nat × Span)
  | .expr _ span | .declare _ _ (some _) _ span | .return _ span | .throw _ span | .break span
  | .continue span => some (0, span)
  | .if condition _ _ _ => some (0, condition.span)
  | .while condition _ _ => some (1, condition.span)
  | .declare _ _ none _ _ | .block _ | .try _ _ _ _ | .other _ _ => none

/-- Whether a `Stmt` only leads elsewhere. -/
def Stmt.isBareExit : Stmt → Bool
  | .break _ | .continue _ | .return none _ => true
  | _ => false

/-- What comes before a part of a statement is there in the end. -/
theorem Stmt.Part.extends {i : Nat} {part : Stmt} {before : Lower Unit}
    (hpart : stmt.Part i before part) {s s' : LowerState} (h : lowerStmt stmt s = .ok () s') :
    ∃ t, before s = .ok () t ∧ Extends t s' := by
  obtain ⟨t, t', hbefore, hlowered⟩ := hpart.calls.succeeds h
  have hkept := hpart.calls.kept hbefore
  rw [hlowered, h] at hkept
  have hself := (lowerStmt_keeps stmtLaws_extends part t).1 () t' hlowered
  exact ⟨t, hbefore, hself.trans hkept⟩

theorem lowerReturn_none (span : Span) : lowerReturn none span =
    emitExit (·.returnExit Draft.returnTarget) "return" span :=
  rfl

/-- The operation that a statement starts with for a debugger, where `point?` says. -/
theorem lowerStmt_pointed {p : Program} {span : Span} {s s' : LowerState}
    (h : lowerStmt stmt s = .ok () s') (hover : p.declared.scope.Over s.scope)
    (hpoint : stmt.point? = some (offset, span)) :
    ∃ op, Pointed stmt.isBareExit s'.draft (s.draft.ops.size + offset) op span := by
  have hl := stmtLaws_extends
  cases stmt with
  | expr e _ =>
    cases hpoint
    exact markFrom_pointed h fun s₁ hs₁ => lowerDiscarded_beginsKept hs₁ hover
  | declare id ty init isConst _ =>
    cases init with
    | none => cases hpoint
    | some value =>
      cases hpoint
      have hrest (next : Nat → Operation) : Keeps Extends (fun _ => True) (do
          let index ← defineLocal id (ParamType.ofTy ty) (!isConst)
          emit (next index)) :=
        (keeps_defineLocal hl id _ _).bind hl fun _ => keeps_emit hl _
      exact markFrom_pointed h fun s₁ hs₁ => lowerExpr_bind_beginsKept (hrest _) hs₁ hover
  | «return» value _ =>
    cases hpoint
    cases value with
    | none =>
      rw [lowerStmt, lowerReturn_none] at h
      exact emitExit_pointed h
    | some v =>
      exact markFrom_pointed h fun s₁ hs₁ =>
        lowerExpr_bind_beginsKept (emitExit_keeps hl _ _ _) hs₁ hover
  | throw value _ =>
    cases hpoint
    exact markFrom_pointed h fun s₁ hs₁ => lowerExpr_bind_beginsKept (keeps_emit hl _) hs₁ hover
  | «break» _ =>
    cases hpoint
    exact emitExit_pointed h
  | «continue» _ =>
    cases hpoint
    exact emitExit_pointed h
  | «if» condition thenBranch elseBranch _ =>
    cases hpoint
    obtain ⟨t, hbefore, hextends⟩ := Stmt.Part.thenBranch.extends h
    obtain ⟨_, s₁, hlabel, hcondition⟩ := exists_of_bind hbefore
    cases hlabel
    obtain ⟨op, hop⟩ := lowerCondition_pointed hcondition hover
    exact ⟨op, hop.extend hextends⟩
  | «while» condition body _ =>
    cases hpoint
    obtain ⟨t, hbefore, hextends⟩ := Stmt.Part.loopBody.extends h
    replace hbefore := next_of_bind rfl hbefore
    replace hbefore := next_of_bind rfl hbefore
    obtain ⟨_, s₁, hplace, hbefore⟩ := exists_of_bind hbefore
    have hscope : s₁.scope = s.scope := by
      cases hplace
      rfl
    -- the label of the loop comes before its condition
    have hsize : s₁.draft.ops.size = s.draft.ops.size + 1 := by
      cases hplace
      exact Array.size_push _
    obtain ⟨_, s₂, hcondition, hnest⟩ := exists_of_bind hbefore
    cases hnest
    obtain ⟨op, hop⟩ := lowerCondition_pointed hcondition (hscope ▸ hover)
    rw [hsize] at hop
    exact ⟨op, hop.extend ⟨hextends.ops, hextends.locals⟩⟩
  | _ => cases hpoint

/-! ## Scopes on the way -/

/-- Inside of functions only variables are declared. -/
theorem stmtLaws_over (global : Scope) :
    StmtLaws (fun s s' => global.Over s.scope → global.Over s'.scope) (fun _ => True) where
  refl _ := id
  trans h h' hs := h' (h hs)
  emit _ _ := id
  newLabel _ := id
  token _ _ := id
  symbol _ := trivial
  lowering _ := trivial
  tooLarge _ _ _ _ _ := trivial
  emitAt _ _ _ := id
  marked _ h := h
  declared _ _ _ _ hs := hs.push rfl
  enclosed name h hs := (h (hs.enter name)).leave
  looped _ _ h := h
  outside h := h

/-- All statements inside of one are lowered `Over` the same global scope. -/
theorem Visits.over {global : Scope} {s t : LowerState} (h : Visits path stmt s r t)
    (hs : global.Over s.scope) : global.Over t.scope := by
  refine h.preserves (P := (global.Over ·.scope)) (stmtLaws_over global) id ?_ hs
  intro u v hopens hu
  cases hopens with
  | scope name => exact hu.enter name
  | _ => exact hu

/-- Every statement inside of one that is lowered is `Pointed` at an operation. -/
theorem exists_pointed {p : Program} {s s' : LowerState} (h : lowerStmt stmt s = .ok () s')
    (hover : p.declared.scope.Over s.scope) (hcontains : stmt.Contains path r) {span : Span}
    (hpoint : r.point? = some (offset, span)) : ∃ t op, Visits path stmt s r t ∧
      Pointed r.isBareExit s'.draft (t.draft.ops.size + offset) op span := by
  obtain ⟨t, t', hvisits, hlowered, hextends⟩ := exists_visits hcontains h
  obtain ⟨op, hop⟩ := lowerStmt_pointed hlowered (hvisits.over hover) hpoint
  exact ⟨t, op, hvisits, hop.extend hextends⟩

end ContractScript
