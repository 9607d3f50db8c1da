import Mathlib.Data.List.Find
import ContractScript.Proofs.LabelDiscipline

/-!
# Labels that failing steps leave open

What was lowered before a fault stays in the draft. Most of it is harmless: operations place the
labels that they branch to. Only a short-circuit operator jumps to a label that comes after what may
fail, so only it can be left without the place that it jumps to.
-/

namespace ContractScript

open List

variable {placed : List Label} {done : Label} {op : Operation} {symbol : Symbol}

open Lower

/-! ## Branches that lead nowhere -/

/-- An operation that branches to a `Label` which is not among those placed, and that label. -/
def unplaced? (placed : List Label) (op : Op) : Option (Op × Label) :=
  (op.operation.targets.find? fun l => !placed.contains l).map fun l => (op, l)

theorem danglingTarget?_eq (ops : List Op) :
    danglingTarget? ops = ops.findSome? (unplaced? (labelsIn (ops.map Op.operation))) := by
  rw [← placedLabels_eq_labelsIn]
  rfl

theorem unplaced?_eq_none_iff {op : Op} :
    unplaced? placed op = none ↔ ∀ l ∈ op.operation.targets, l ∈ placed := by
  simp [unplaced?]

/-- Only the labels that operations branch to matter. -/
theorem findSome?_unplaced?_congr {placed placed' : List Label} : ∀ {ops : List Op},
    (∀ op ∈ ops.map Op.operation, ∀ l ∈ op.targets, l ∈ placed ↔ l ∈ placed') →
    ops.findSome? (unplaced? placed) = ops.findSome? (unplaced? placed')
  | [], _ => rfl
  | op :: ops, h => by
    obtain ⟨hop, hops⟩ := forall_mem_cons.mp h
    have hsame : unplaced? placed op = unplaced? placed' op := by
      have hfind : (op.operation.targets.find? fun l => !placed.contains l) =
          op.operation.targets.find? fun l => !placed'.contains l :=
        find?_congr fun l hl => by simp only [contains_eq_mem, hop l hl]
      rw [unplaced?, unplaced?, hfind]
    rw [findSome?_cons, findSome?_cons, hsame, findSome?_unplaced?_congr hops]

/-- `danglingTarget?` of two parts that do not branch to each other's labels. -/
theorem danglingTarget?_append {ops ops' : List Op}
    (h : ∀ op ∈ ops.map Op.operation, ∀ l ∈ op.targets, l ∉ labelsIn (ops'.map Op.operation))
    (h' : ∀ op ∈ ops'.map Op.operation, ∀ l ∈ op.targets, l ∉ labelsIn (ops.map Op.operation)) :
    danglingTarget? (ops ++ ops') = (danglingTarget? ops).or (danglingTarget? ops') := by
  rw [danglingTarget?_eq, danglingTarget?_eq, danglingTarget?_eq, findSome?_append,
    map_append, labelsIn_append]
  congr 1
  · refine findSome?_unplaced?_congr fun op hop l hl => ?_
    simp [h op hop l hl]
  · refine findSome?_unplaced?_congr fun op hop l hl => ?_
    simp [h' op hop l hl]

theorem danglingTarget?_eq_none_iff {ops : List Op} : danglingTarget? ops = none ↔
    ∀ op ∈ ops.map Op.operation, ∀ l ∈ op.targets, l ∈ labelsIn (ops.map Op.operation) := by
  rw [danglingTarget?_eq, findSome?_eq_none_iff, forall_mem_map]
  exact forall₂_congr fun op _ => unplaced?_eq_none_iff

/-- A needless jump leads to a label that is placed. -/
theorem findSome?_elideJumps {placed : List Label} : ∀ {ops : List Op},
    labelsIn (ops.map Op.operation) ⊆ placed →
    (elideJumps ops).findSome? (unplaced? placed) = ops.findSome? (unplaced? placed)
  | [], _ => rfl
  | op :: ops, h => by
    rw [map_cons, labelsIn_cons] at h
    have ih := findSome?_elideJumps (append_subset.mp h).2
    rw [elideJumps, isFallthrough_eq, findSome?_cons]
    split
    · next hfalls =>
      obtain ⟨l, markers, behind, hop, hrest, -⟩ := exists_of_fallsThrough hfalls
      have hnone : unplaced? placed op = none := by
        rw [unplaced?_eq_none_iff, hop]
        refine forall_mem_singleton.mpr (h (mem_append_right _ ?_))
        rw [hrest, mem_labelsIn]
        exact mem_append_right _ mem_cons_self
      rw [hnone]
      exact ih
    · rw [findSome?_cons, ih]

/-- `elideJumps` changes no `danglingTarget?`. -/
theorem danglingTarget?_elideJumps (ops : List Op) :
    danglingTarget? (elideJumps ops) = danglingTarget? ops := by
  rw [danglingTarget?_eq, danglingTarget?_eq, map_elideJumps, labelsIn_elide]
  exact findSome?_elideJumps (List.Subset.refl _)

/-! ## What a failing step leaves behind -/

/-- Operations place `Label`s of a range and branch to such labels, and the first of these branches
whose label is not placed, if there is one, has no place in the source. -/
structure Leftover (lo hi : Nat) (o : Option Label) (ops : List Op) : Prop where
  le : lo ≤ hi
  labels : ∀ l : Nat, l ∈ labelsIn (ops.map Op.operation) → lo ≤ l ∧ l < hi
  targets : ∀ op ∈ ops.map Op.operation, ∀ l : Nat, l ∈ op.targets → lo ≤ l ∧ l < hi
  dangling : (danglingTarget? ops).map (fun x => (x.1.location, x.2)) = o.map fun l => (none, l)

namespace Leftover

variable {lo mid hi : Nat} {o o' : Option Label} {ops ops' : List Op}

/-- Operations that are no transfers leave nothing over. -/
theorem inert (h : ∀ op ∈ ops.map Op.operation, op.isInert = true) (lo : Nat) :
    Leftover lo lo none ops := by
  have htargets : ∀ op ∈ ops.map Op.operation, ∀ l ∈ op.targets, False := by
    intro op hop l hl
    have := h op hop
    cases op with
    | jump | «try» | endTry | label | «return» => cases this
    | _ => cases hl
  refine ⟨Nat.le_refl lo, ?_, fun op hop l hl => (htargets op hop l hl).elim, ?_⟩
  · rw [labelsIn_of_isInert h]
    exact forall_mem_nil _
  · rw [danglingTarget?_eq_none_iff.mpr fun op hop l hl => (htargets op hop l hl).elim]
    rfl

/-- What is left over of two parts is left over of the first, or else of the second. -/
theorem append (h : Leftover lo mid o ops) (h' : Leftover mid hi o' ops') :
    Leftover lo hi (o.or o') (ops ++ ops') := by
  have hle := h.le
  have hle' := h'.le
  refine ⟨Nat.le_trans hle hle', ?_, ?_, ?_⟩
  · rw [map_append, labelsIn_append, forall_mem_append]
    refine ⟨fun l hl => ?_, fun l hl => ?_⟩
    · have := h.labels l hl
      omega
    · have := h'.labels l hl
      omega
  · rw [map_append, forall_mem_append]
    refine ⟨fun op hop l hl => ?_, fun op hop l hl => ?_⟩
    · have := h.targets op hop l hl
      omega
    · have := h'.targets op hop l hl
      omega
  · rw [danglingTarget?_append, Option.map_or, h.dangling, h'.dangling, Option.map_or]
    · intro op hop l hl hmem
      have := h.targets op hop l hl
      have := h'.labels l hmem
      omega
    · intro op hop l hl hmem
      have := h'.targets op hop l hl
      have := h.labels l hmem
      omega

/-- Where nothing is left open, places in the source do not matter. -/
theorem relocate (h : Leftover lo hi none ops)
    (heq : ops'.map Op.operation = ops.map Op.operation) : Leftover lo hi none ops' := by
  refine ⟨h.le, heq ▸ h.labels, heq ▸ h.targets, ?_⟩
  have hnone := Option.map_eq_none_iff.mp h.dangling
  rw [danglingTarget?_eq_none_iff, ← heq, ← danglingTarget?_eq_none_iff] at hnone
  rw [hnone]
  rfl

end Leftover

/-- The operations between the operands of a short-circuit operator. -/
def guardOps (op : BinaryOp) (done : Label) : List Op :=
  (Operation.simple .dup :: (decideCode op done ++ [Operation.simple .drop])).map fun operation =>
    ⟨operation, none⟩

/-- They jump once, to the end of the operator. -/
theorem exists_guardOps (op : BinaryOp) (done : Label) :
    ∃ (opcodes : List Opcode) (kind : JumpKind), guardOps op done =
      opcodes.map (fun o => ⟨.simple o, none⟩) ++
        [⟨.jump kind done, none⟩, ⟨.simple .drop, none⟩] := by
  cases op with
  | logicalAnd => exact ⟨[.dup], .ifFalse, rfl⟩
  | logicalOr => exact ⟨[.dup], .ifTrue, rfl⟩
  | _ => exact ⟨[.dup, .isNull], .ifFalse, rfl⟩

theorem targets_guardOps {op : BinaryOp} :
    ∀ o ∈ (guardOps op done).map Op.operation, ∀ l ∈ o.targets, l = done := by
  obtain ⟨opcodes, kind, heq⟩ := exists_guardOps op done
  rw [heq, map_append, map_map, forall_mem_append, forall_mem_map]
  refine ⟨nofun, ?_⟩
  simp [Operation.targets]

theorem labelsIn_guardOps (op : BinaryOp) (done : Label) :
    labelsIn ((guardOps op done).map Op.operation) = [] := by
  obtain ⟨opcodes, kind, heq⟩ := exists_guardOps op done
  simp [heq, labelsIn, Operation.placedLabel?]

theorem findSome?_guardOps (op : BinaryOp) (h : done ∉ placed) : ∃ jump : Op, jump.location = none ∧
      (guardOps op done).findSome? (unplaced? placed) = some (jump, done) := by
  obtain ⟨opcodes, kind, heq⟩ := exists_guardOps op done
  refine ⟨⟨.jump kind done, none⟩, rfl, ?_⟩
  have hopcodes : (opcodes.map fun o => (⟨.simple o, none⟩ : Op)).findSome? (unplaced? placed) =
      none := by
    simp [unplaced?, Operation.targets]
  rw [heq, findSome?_append, hopcodes]
  simp [unplaced?, Operation.targets, h]

namespace Leftover

variable {hi : Nat} {l : Label} {o : Option Label} {ops : List Op}

/-- Without the end of the operator, the jump to it leads nowhere, and it comes first. -/
theorem guarded (op : BinaryOp) (h : Leftover (l + 1) hi o ops) :
    Leftover l hi (some l) (guardOps op l ++ ops) := by
  have hle := h.le
  have hplaced : l ∉ labelsIn (ops.map Op.operation) := by
    intro hl
    have := h.labels l hl
    omega
  refine ⟨by omega, ?_, ?_, ?_⟩
  · rw [map_append, labelsIn_append, labelsIn_guardOps]
    intro l' hl'
    have := h.labels l' hl'
    omega
  · rw [map_append, forall_mem_append]
    refine ⟨fun o ho l' hl' => ?_, fun o ho l' hl' => ?_⟩
    · cases targets_guardOps o ho l' hl'
      omega
    · have := h.targets o ho l' hl'
      omega
  · obtain ⟨jump, hlocation, hfind⟩ := findSome?_guardOps op hplaced
    rw [danglingTarget?_eq, map_append, labelsIn_append, labelsIn_guardOps, nil_append,
      findSome?_append, hfind]
    exact congrArg (fun location => some (location, l)) hlocation

/-- With it, every jump leads somewhere. -/
theorem shortCircuit (op : BinaryOp) (h : Leftover (l + 1) hi none ops) :
    Leftover l hi none (guardOps op l ++ ops ++ [⟨.label l, none⟩]) := by
  have hguarded := h.guarded op
  have hle := h.le
  have hops := danglingTarget?_eq_none_iff.mp (Option.map_eq_none_iff.mp h.dangling)
  refine ⟨hguarded.le, ?_, ?_, ?_⟩
  · rw [map_append, labelsIn_append, forall_mem_append]
    refine ⟨hguarded.labels, forall_mem_singleton.mpr ⟨Nat.le_refl l, ?_⟩⟩
    exact hle
  · rw [map_append, forall_mem_append]
    refine ⟨hguarded.targets, ?_⟩
    simp [Operation.targets]
  · rw [Option.map_none, Option.map_eq_none_iff, danglingTarget?_eq_none_iff]
    simp only [map_append, labelsIn_append, forall_mem_append]
    refine ⟨⟨fun o ho l' hl' => ?_, fun o ho l' hl' => ?_⟩, ?_⟩
    · cases targets_guardOps o ho l' hl'
      exact mem_append_right _ mem_cons_self
    · exact mem_append_left _ (mem_append_right _ (hops o ho l' hl'))
    · simp [Operation.targets]

end Leftover

/-! ## Steps -/

/-- Operations are added to a draft, and the first branch that leads nowhere, if there is one, leads
to a `Label`. -/
structure LeavesBehind (s t : LowerState) (o : Option Label) (ops : List Op) : Prop extends
    Leftover s.draft.labelCount t.draft.labelCount o ops where
  ops_eq : t.draft.ops.toList = s.draft.ops.toList ++ ops
  scope_eq : t.scope = s.scope
  name_eq : t.draft.name = s.draft.name

namespace LeavesBehind

variable {s t u : LowerState} {o o' : Option Label} {ops ops' : List Op}

theorem refl (s : LowerState) : LeavesBehind s s none [] :=
  ⟨.inert (forall_mem_nil _) _, (append_nil _).symm, rfl, rfl⟩

theorem trans (h : LeavesBehind s t o ops) (h' : LeavesBehind t u o' ops') :
    LeavesBehind s u (o.or o') (ops ++ ops') :=
  ⟨h.toLeftover.append h'.toLeftover, by rw [h'.ops_eq, h.ops_eq, append_assoc],
    h'.scope_eq.trans h.scope_eq, h'.name_eq.trans h.name_eq⟩

theorem emit (h : op.isInert = true) (s : LowerState) :
    LeavesBehind s { s with draft := s.draft.emit op } none [⟨op, none⟩] := by
  refine ⟨.inert ?_ _, Array.toList_push, rfl, rfl⟩
  exact forall_mem_singleton.mpr h

end LeavesBehind

namespace Lower

variable {p : Program} {α β : Type}

/-- What two steps in a row leave open. -/
def openAfter (step : Lower α) (first : LowerState → Option Label)
    (next : α → LowerState → Option Label) (s : LowerState) : Option Label :=
  match step s with
  | .ok a s' => next a s'
  | .error _ _ => first s

/-- From every state of a `Program`, a step leaves open what it is said to, and nothing where it
succeeds. -/
def LeavesOpen (p : Program) (step : Lower α) (o : LowerState → Option Label) : Prop :=
  ∀ s, SameGlobals p.declared.scope s.scope → (∀ a t, step s = .ok a t → o s = none) ∧
    ∃ ops, LeavesBehind s (finalState (step s)) (o s) ops

/-- A step that leaves nothing open, also where it fails. -/
abbrev Tidy (p : Program) (step : Lower α) : Prop :=
  LeavesOpen p step fun _ => none

theorem tidy_of_finalState {step : Lower α} (h : ∀ s, finalState (step s) = s) : Tidy p step :=
  fun s _ => ⟨fun _ _ _ => rfl, [], (h s).symm ▸ .refl s⟩

theorem tidy_pure (a : α) : Tidy p (pure a : Lower α) :=
  tidy_of_finalState fun _ => rfl

theorem tidy_throw (e : Diagnostic) : Tidy p (throw e : Lower α) :=
  tidy_of_finalState fun _ => rfl

theorem tidy_get : Tidy p (get : Lower LowerState) :=
  tidy_of_finalState fun _ => rfl

/-- `emit` leaves nothing open unless the operation is a transfer. -/
theorem tidy_emit (h : op.isInert = true) : Tidy p (emit op) :=
  fun s _ => ⟨fun _ _ _ => rfl, _, .emit h s⟩

namespace LeavesOpen

variable {step : Lower α} {next : α → Lower β} {o : LowerState → Option Label}

variable (h : LeavesOpen p step o)
include h

/-- What `LeavesOpen` a label first decides; what comes second may rely on how the first step ended.
-/
theorem bind {o' : α → LowerState → Option Label}
    (h' : ∀ a, (∃ s t, SameGlobals p.declared.scope s.scope ∧ step s = .ok a t) →
      LeavesOpen p (next a) (o' a)) :
    LeavesOpen p (step >>= next) (openAfter step o o') := by
  intro s hscope
  obtain ⟨hok, ops, hbehind⟩ := h s hscope
  unfold openAfter
  cases hs : step s with
  | ok a t =>
    rw [hs, hok a t hs] at hbehind
    obtain ⟨hok', ops', hbehind'⟩ := h' a ⟨s, t, hscope, hs⟩ t (hbehind.scope_eq ▸ hscope)
    rw [bind_of_ok hs]
    exact ⟨hok', _, hbehind.trans hbehind'⟩
  | error e t =>
    rw [hs] at hbehind
    rw [bind_of_error hs]
    exact ⟨nofun, ops, hbehind⟩

theorem congr {o' : LowerState → Option Label}
    (heq : ∀ s, SameGlobals p.declared.scope s.scope → o' s = o s) : LeavesOpen p step o' := by
  intro s hscope
  rw [heq s hscope]
  exact h s hscope

/-- What comes second leaves nothing open. -/
theorem andThen
    (h' : ∀ a, (∃ s t, SameGlobals p.declared.scope s.scope ∧ step s = .ok a t) → Tidy p (next a)) :
    LeavesOpen p (step >>= next) o := by
  refine (h.bind h').congr fun s hscope => ?_
  unfold openAfter
  cases hs : step s with
  | ok a t => exact (h s hscope).1 a t hs
  | error e t => rfl

end LeavesOpen

theorem tidy_emitAll : ∀ {ops : List Operation}, (∀ op ∈ ops, op.isInert = true) →
    Tidy p (emitAll ops)
  | [], _ => tidy_pure ()
  | _ :: _, h =>
    (tidy_emit (h _ mem_cons_self)).andThen fun _ _ =>
      tidy_emitAll fun op hop => h op (mem_cons_of_mem _ hop)

theorem tidy_ofSymbol (x : Except SymbolError α) : Tidy p (ofSymbol x) := by
  cases x with
  | ok a => exact tidy_pure a
  | error e => exact tidy_throw _

theorem tidy_resolve (name : String) (span : Span) : Tidy p (resolve name span) :=
  tidy_get.andThen fun _ _ => tidy_ofSymbol _

/-- A step that fails at once leaves nothing open, whatever would follow. -/
theorem tidy_fail_bind (e : LoweringError) (next : α → Lower β) :
    Tidy p ((fail e : Lower α) >>= next) :=
  tidy_of_finalState fun _ => rfl

end Lower

/-! ## Expressions -/

section Expressions

variable {p : Program} {o : LowerState → Option Label}

/-- `emitOperator` fails before it emits. -/
theorem tidy_emitOperator (op : BinaryOp) (ty : Ty) (span : Span) :
    Tidy p (emitOperator op ty span) := by
  unfold emitOperator
  split
  · next hops =>
    exact tidy_emitAll fun o ho => Operation.isInert_of_isBasic (isBasic_operatorOps hops o ho)
  · exact tidy_throw _

theorem tidy_emitIdent (id : Ident) (span : Span) : Tidy p (emitIdent id span) := by
  refine (tidy_resolve _ _).andThen fun symbol _ => ?_
  split
  · exact tidy_emit rfl
  · exact tidy_emit (Operation.isInert_of_isBasic (isBasic_push _))
  · exact tidy_throw _

theorem tidy_memberOf? (object : Expr) (member : Ident) : Tidy p (memberOf? object member) := by
  unfold memberOf?
  split
  · refine tidy_get.andThen fun s _ => ?_
    split
    · split
      · exact tidy_pure _
      · exact tidy_throw _
    · exact tidy_pure _
  · exact tidy_pure _

theorem tidy_assignedSlot (target : Expr) (span : Span) : Tidy p (assignedSlot target span) := by
  unfold assignedSlot
  split
  · refine (tidy_resolve _ _).andThen fun symbol _ => ?_
    split
    · exact tidy_pure _
    all_goals exact tidy_throw _
  · exact tidy_throw _

theorem tidy_resolveCallee (callee : Expr) (span : Span) : Tidy p (resolveCallee callee span) := by
  unfold resolveCallee
  dsimp only
  split
  · exact tidy_resolve _ _
  · refine (tidy_memberOf? _ _).andThen fun found _ => ?_
    split
    · exact tidy_pure _
    · exact tidy_throw _
  · exact tidy_throw _

/-- `emitToken` fails before it emits. -/
theorem tidy_emitToken (ref : MethodRef) (span : Span) : Tidy p (emitToken ref span) := by
  have htoken : Tidy p (token ref span) := by
    intro s hscope
    refine ⟨fun _ _ _ => rfl, [], ?_⟩
    unfold token
    split <;> exact ⟨.inert (forall_mem_nil _) _, (append_nil _).symm, rfl, rfl⟩
  exact htoken.andThen fun _ _ => tidy_emit rfl

/-- What a program calls of the host has no transfers. -/
theorem isInert_hostOps {scope : Scope} (hscope : SameGlobals p.declared.scope scope) {e : Expr}
    {call : HostCall} (hcallee : scope.callee? e = some symbol)
    (hdef : symbol.definition = .host call) : ∀ op ∈ call.ops, op.isInert = true := by
  have hglobal := (over_of_sameGlobals hscope).callee? (inner_declare _ p) hcallee
    (by rw [hdef]; rfl)
  have hprovided := provided_of_callee? hglobal (by rw [hdef]; rfl) (by rw [hdef]; nofun)
  have hstraight := (allProvided_bindProgram p).symbols symbol hprovided
  rw [hdef] at hstraight
  exact fun op hop => Operation.isInert_of_isStraight (hstraight op hop)

/-- `emitInvocation` leaves nothing open, as what the host provides has no transfers. -/
theorem tidy_emitInvocation {callee : Expr}
    (h : ∃ scope, SameGlobals p.declared.scope scope ∧ scope.callee? callee = some symbol)
    (argCount : Nat) (span : Span) : Tidy p (emitInvocation symbol callee argCount span) := by
  obtain ⟨scope, hscope, hcallee⟩ := h
  unfold emitInvocation
  split
  · exact (tidy_emit rfl).andThen fun _ _ => tidy_pure _
  · next hdef =>
    exact (tidy_emitAll (isInert_hostOps hscope hcallee hdef)).andThen fun _ _ => tidy_pure _
  · exact (tidy_emitToken _ _).andThen fun _ _ => tidy_pure _
  · refine (tidy_emitAll ?_).andThen fun _ _ => tidy_pure _
    simp [Operation.isInert]
  · exact tidy_throw _

/-- The `Label` that the right operand of a short-circuit operator leaves open: where it fails, the
end of the operator is never placed. -/
def openGuard (op : BinaryOp) (right : Lower Unit) (s : LowerState) : Option Label :=
  match emitShortCircuit op right s with
  | .ok _ _ => none
  | .error _ _ => some s.draft.labelCount

/-- Up to the right operand, `emitShortCircuit` does not fail. -/
theorem exists_emitShortCircuit (op : BinaryOp) (right : Lower Unit) (s : LowerState) :
    ∃ t, emitShortCircuit op right s = (do right; place s.draft.labelCount : Lower Unit) t ∧
      t.draft.ops.toList = s.draft.ops.toList ++ guardOps op s.draft.labelCount ∧
      t.draft.labelCount = s.draft.labelCount + 1 ∧ t.scope = s.scope ∧
      t.draft.name = s.draft.name := by
  have hemit (d : Draft) (operation : Operation) :
      (d.emit operation).ops.toList = d.ops.toList ++ [⟨operation, none⟩] := Array.toList_push
  cases op <;>
    exact ⟨_, rfl, by simp only [hemit, append_assoc]; rfl, rfl, rfl, rfl⟩

/-- Where the right operand fails, the end of the operator is left open. -/
theorem leavesOpen_emitShortCircuit (op : BinaryOp) {right : Lower Unit}
    (h : LeavesOpen p right o) : LeavesOpen p (emitShortCircuit op right) (openGuard op right) := by
  intro s hscope
  obtain ⟨t, heq, hops, hcount, hscope', hname⟩ := exists_emitShortCircuit op right s
  obtain ⟨hok, ops, hbehind⟩ := h t (hscope' ▸ hscope)
  unfold openGuard
  rw [heq]
  cases hright : right t with
  | ok a u =>
    rw [hright, hok a u hright] at hbehind
    rw [bind_of_ok hright]
    have hleftover : Leftover (s.draft.labelCount + 1) u.draft.labelCount none ops :=
      hcount ▸ hbehind.toLeftover
    refine ⟨fun _ _ _ => rfl, _, hleftover.shortCircuit op, ?_, hbehind.scope_eq.trans hscope',
      hbehind.name_eq.trans hname⟩
    have hops' : u.draft.ops.toList = t.draft.ops.toList ++ ops := hbehind.ops_eq
    show (u.draft.ops.push ⟨.label s.draft.labelCount, none⟩).toList = _
    rw [Array.toList_push, hops', hops, append_assoc, append_assoc, append_assoc]
  | error e u =>
    rw [hright] at hbehind
    rw [bind_of_error hright]
    have hleftover : Leftover (s.draft.labelCount + 1) u.draft.labelCount (o t) ops :=
      hcount ▸ hbehind.toLeftover
    refine ⟨nofun, _, hleftover.guarded op, ?_, hbehind.scope_eq.trans hscope',
      hbehind.name_eq.trans hname⟩
    have hops' : u.draft.ops.toList = t.draft.ops.toList ++ ops := hbehind.ops_eq
    exact hops'.trans (by rw [hops, append_assoc])

/-- What an assignment leaves open: its target is resolved before its value is lowered. -/
def openAssign (op : Option BinaryOp) (target : Expr) (span : Span)
    (value : LowerState → Option Label) : LowerState → Option Label :=
  openAfter (assignedSlot target span) (fun _ => none) fun slot s =>
    match op with
    | none => value s
    | some op =>
      if op.isShortCircuit then none
      else value { s with draft := s.draft.emit (.load slot.1 slot.2) }

/-- `emitAssign` leaves open what the value leaves open. -/
theorem leavesOpen_emitAssign (op : Option BinaryOp) (target : Expr) (span : Span) (keep : Bool)
    {value : Lower Unit} (h : LeavesOpen p value o) :
    LeavesOpen p (emitAssign op target span keep value) (openAssign op target span o) := by
  have hstore : ∀ kind index, Tidy p (do
      if keep then emitOpcode .dup
      emit (.store kind index)) := by
    intro kind index
    cases keep with
    | true => exact (tidy_emit rfl).andThen fun _ _ => tidy_emit rfl
    | false => exact tidy_emit rfl
  refine (tidy_assignedSlot target span).bind fun slot _ => ?_
  obtain ⟨kind, index⟩ := slot
  cases op with
  | none => exact h.andThen fun _ _ => hstore kind index
  | some op =>
    dsimp only
    split
    · exact tidy_fail_bind _ _
    · exact (tidy_emit rfl).bind fun _ _ => h.andThen fun _ _ =>
        (tidy_emitOperator _ _ _).andThen fun _ _ => hstore kind index

/-- What a call leaves open: its callee is resolved before its arguments are lowered. -/
def openCall (callee : Expr) (argCount : Nat) (span : Span) (args : LowerState → Option Label) :
    LowerState → Option Label :=
  openAfter (resolveCallee callee span) (fun _ => none) fun symbol s =>
    if symbol.definition.paramCount? = some argCount then args s else none

/-- `emitCall` leaves open what the arguments leave open. -/
theorem leavesOpen_emitCall (callee : Expr) (argCount : Nat) (span : Span) {args : Lower Unit}
    (h : LeavesOpen p args o) :
    LeavesOpen p (emitCall callee argCount span args) (openCall callee argCount span o) := by
  refine (tidy_resolveCallee callee span).bind fun symbol hsymbol => ?_
  obtain ⟨s, t, hscope, hok⟩ := hsymbol
  have hinvoke : Tidy p (emitInvocation symbol callee argCount span) :=
    tidy_emitInvocation ⟨s.scope, hscope, (resolveCallee_eq_ok hok).2⟩ _ _
  split
  · next hcount => exact (tidy_fail_bind _ _).congr fun _ _ => by simp [hcount]
  · next expected hcount =>
    split
    · next hne => exact (tidy_fail_bind _ _).congr fun _ _ => by simp [hcount, hne]
    · next heq => exact (h.andThen fun _ _ => hinvoke).congr fun _ _ => by simp_all

/-- What the access of a member leaves open: only the length of a value looks at the value. -/
def openMember (object : Expr) (member : Ident) (value : LowerState → Option Label) :
    LowerState → Option Label :=
  openAfter (memberOf? object member) (fun _ => none) fun found s =>
    if found.isNone ∧ member.name = "length" ∧ object.ty.hasLength then value s else none

/-- `emitMember` looks at the object for its length only. -/
theorem leavesOpen_emitMember (objectExpr : Expr) (member : Ident) (span : Span)
    {object : Lower Unit} (h : LeavesOpen p object o) :
    LeavesOpen p (emitMember objectExpr member span object) (openMember objectExpr member o) := by
  refine (tidy_memberOf? objectExpr member).bind fun found hfound => ?_
  obtain ⟨s, t, hscope, hok⟩ := hfound
  cases found with
  | some symbol =>
    obtain ⟨e, hcallee⟩ := exists_callee?_of_member (memberOf?_eq_ok hok).2
    refine LeavesOpen.congr (o := fun _ => none) ?_ fun _ _ => by simp
    dsimp only
    split
    · next hdef =>
      split
      · exact tidy_emitAll (isInert_hostOps hscope hcallee hdef)
      · exact tidy_throw _
    · split
      · exact tidy_emitToken _ _
      · exact tidy_throw _
    · exact tidy_throw _
  | none =>
    dsimp only
    split
    · next hlength =>
      exact (h.andThen fun _ _ => tidy_emit rfl).congr fun _ _ => by simp [hlength]
    · next hlength => exact (tidy_throw _).congr fun _ _ => by simp [hlength]

mutual

/-- The `Label` that an expression leaves open where it fails: that of the outermost short-circuit
operator whose right operand fails. -/
def openLabel? (e : Expr) : LowerState → Option Label :=
  match e with
  | .binary op left right _ _ =>
    if op.isShortCircuit then
      openAfter (lowerExpr left) (openLabel? left) fun _ => openGuard op (lowerExpr right)
    else if op.testsNull left right then
      if right.isNullLiteral then openLabel? left else openLabel? right
    else openAfter (lowerExpr left) (openLabel? left) fun _ => openLabel? right
  | .unary op operand _ _ =>
    if op = .neg ∧ operand.intLiteral?.isSome then fun _ => none else openLabel? operand
  | .assign op target value span => openAssign op target span (openLabel? value)
  | .call callee args _ span => openCall callee args.length span (openArgs? args)
  | .member object member _ _ => openMember object member (openLabel? object)
  | .paren inner _ => openLabel? inner
  | .literal _ _ _ | .ident _ _ _ | .other _ _ => fun _ => none
termination_by structural e

/-- The `Label` that arguments leave open where one fails. -/
def openArgs? (args : List Expr) : LowerState → Option Label :=
  match args with
  | [] => fun _ => none
  | arg :: rest => openAfter (lowerArgs rest) (openArgs? rest) fun _ => openLabel? arg
termination_by structural args

end

mutual

/-- `openLabel?` is the label that `lowerExpr` leaves open. -/
theorem lowerExpr_leavesOpen (e : Expr) : LeavesOpen p (lowerExpr e) (openLabel? e) := by
  match e with
  | .literal _ _ _ => exact tidy_emit (Operation.isInert_of_isBasic (isBasic_push _))
  | .ident _ _ _ => exact tidy_emitIdent _ _
  | .binary op left right _ _ =>
    have hleft := lowerExpr_leavesOpen left
    have hright := lowerExpr_leavesOpen right
    rw [lowerExpr, openLabel?, ← BinaryOp.testsNull]
    split
    · exact hleft.bind fun _ _ => leavesOpen_emitShortCircuit op hright
    · split
      · -- a comparison with the null literal lowers the other side only
        have htest : Tidy p (do
            emitOpcode .isNull
            if op == .notEqual then emitOpcode .not) := by
          refine (tidy_emit rfl).andThen fun _ _ => ?_
          split
          · exact tidy_emit rfl
          · exact tidy_pure _
        dsimp only
        split
        · exact hleft.andThen fun _ _ => htest
        · exact hright.andThen fun _ _ => htest
      · exact hleft.bind fun _ _ => hright.andThen fun _ _ => tidy_emitOperator _ _ _
  | .unary op operand _ _ =>
    have hoperand := lowerExpr_leavesOpen operand
    rw [lowerExpr.eq_def, openLabel?.eq_def]
    dsimp only
    split
    · next hliteral =>
      rw [if_pos ⟨rfl, by rw [hliteral]; rfl⟩]
      exact tidy_emit rfl
    · next hliteral =>
      rw [if_neg fun h => hliteral _ h.1 (Option.some_get h.2).symm]
      exact hoperand.andThen fun _ _ =>
        tidy_emitAll fun o ho => Operation.isInert_of_isBasic (isBasic_unaryOps _ o ho)
  | .assign _ _ value _ => exact leavesOpen_emitAssign _ _ _ _ (lowerExpr_leavesOpen value)
  | .call _ args _ _ =>
    exact (leavesOpen_emitCall _ _ _ (lowerArgs_leavesOpen args)).andThen fun _ _ => tidy_pure _
  | .member object _ _ _ => exact leavesOpen_emitMember _ _ _ (lowerExpr_leavesOpen object)
  | .paren inner _ => exact lowerExpr_leavesOpen inner
  | .other _ _ => exact tidy_throw _

theorem lowerArgs_leavesOpen (args : List Expr) :
    LeavesOpen p (lowerArgs args) (openArgs? args) := by
  match args with
  | [] => exact tidy_pure ()
  | arg :: rest => exact (lowerArgs_leavesOpen rest).bind fun _ _ => lowerExpr_leavesOpen arg

end

end Expressions

/-! ## Expressions without short-circuit operators -/

mutual

/-- Whether a short-circuit operator stands in an `Expr`. -/
def Expr.isGuarded (e : Expr) : Bool :=
  match e with
  | .binary op left right _ _ => op.isShortCircuit || left.isGuarded || right.isGuarded
  | .unary _ operand _ _ => operand.isGuarded
  | .assign _ _ value _ => value.isGuarded
  | .call _ args _ _ => anyGuarded args
  | .member object _ _ _ => object.isGuarded
  | .paren inner _ => inner.isGuarded
  | .literal _ _ _ | .ident _ _ _ | .other _ _ => false
termination_by structural e

/-- Whether one stands in some argument. -/
def anyGuarded (args : List Expr) : Bool :=
  match args with
  | [] => false
  | arg :: rest => arg.isGuarded || anyGuarded rest
termination_by structural args

end

theorem Lower.openAfter_none {α : Type} (step : Lower α) :
    openAfter step (fun _ => none) (fun _ _ => none) = fun _ => none := by
  funext s
  unfold openAfter
  split <;> rfl

mutual

/-- Without a short-circuit operator `openLabel?` is none. -/
theorem openLabel?_of_unguarded (e : Expr) (h : e.isGuarded = false) :
    openLabel? e = fun _ => none := by
  match e with
  | .literal _ _ _ => rfl
  | .ident _ _ _ => rfl
  | .other _ _ => rfl
  | .binary op left right _ _ =>
    simp only [Expr.isGuarded, Bool.or_eq_false_iff] at h
    obtain ⟨⟨hop, hleft⟩, hright⟩ := h
    rw [openLabel?, openLabel?_of_unguarded left hleft, openLabel?_of_unguarded right hright, hop,
      openAfter_none]
    simp
  | .unary _ operand _ _ =>
    rw [openLabel?, openLabel?_of_unguarded operand h, ite_self]
  | .assign op _ value _ =>
    rw [openLabel?, openLabel?_of_unguarded value h, openAssign]
    cases op <;> simp [openAfter_none]
  | .call _ args _ _ =>
    rw [openLabel?, openArgs?_of_unguarded args h, openCall]
    simp only [ite_self, openAfter_none]
  | .member object _ _ _ =>
    rw [openLabel?, openLabel?_of_unguarded object h, openMember]
    simp only [ite_self, openAfter_none]
  | .paren inner _ => exact openLabel?_of_unguarded inner h

theorem openArgs?_of_unguarded (args : List Expr) (h : anyGuarded args = false) :
    openArgs? args = fun _ => none := by
  match args with
  | [] => rfl
  | arg :: rest =>
    rw [anyGuarded, Bool.or_eq_false_iff] at h
    rw [openArgs?, openLabel?_of_unguarded arg h.1, openArgs?_of_unguarded rest h.2,
      openAfter_none]

end

end ContractScript
