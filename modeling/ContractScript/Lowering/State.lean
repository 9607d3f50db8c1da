import ContractScript.Routine.Draft
import ContractScript.Symbol.Scope

/-!
# The state of lowering

Lowering reads names from a scope, appends operations to a draft and takes tokens from the table
that all functions share. `Lower` threads the three. It keeps what was done before a fault, so
that what is lowered next, and the report, see it.

- `Lower.emit`, `Lower.place`, `Lower.newLabel`, `Lower.markFrom`: the draft.
- `Lower.resolve`, `Lower.defineLocal`, `Lower.defineParam`: the scope.
- `Lower.token`: the token table.
- `Lower.bracket`: enter something, and leave it again on both ways out.
-/

namespace ContractScript

/-- What lowering works on. -/
structure LowerState where
  draft : Draft
  scope : Scope
  tokens : TokenTable
deriving Inhabited

/-- A step of lowering: it may fail, and what it did before it failed stays done. -/
abbrev Lower := EStateM Diagnostic LowerState

namespace Lower

variable {α : Type}

/-! ## Faults -/

/-- Fail with a fault of a statement or an expression. -/
def fail (e : LoweringError) : Lower α :=
  throw (.lowering e)

/-- What scopes answer, as a step. -/
def ofSymbol : Except SymbolError α → Lower α
  | .ok a => pure a
  | .error e => throw (.symbol e)

/-- Enter something for the time of a step, and leave it whether the step fails or not. -/
def bracket (enter leave : LowerState → LowerState) (body : Lower α) : Lower α := fun s =>
  match body (enter s) with
  | .ok a s => .ok a (leave s)
  | .error e s => .error e (leave s)

/-! ## The draft -/

/-- Change the `Draft`. -/
def onDraft (f : Draft → Draft) : Lower Unit :=
  modify fun s => { s with draft := f s.draft }

/-- Append an `Operation`. -/
def emit (operation : Operation) : Lower Unit :=
  onDraft (·.emit operation)

/-- Append an `Operation` at a place of the source. -/
def emitAt (operation : Operation) (span : Span) : Lower Unit :=
  onDraft (·.emitAt operation span)

/-- Append an `Opcode` without operand. -/
def emitOpcode (op : Opcode) : Lower Unit :=
  emit (.simple op)

/-- Append `Operation`s in order. -/
def emitAll : List Operation → Lower Unit
  | [] => pure ()
  | op :: ops => do
    emit op
    emitAll ops

/-- A new `Label`. -/
def newLabel : Lower Label := fun s =>
  let (l, draft) := s.draft.newLabel
  .ok l { s with draft := draft }

/-- Place a `Label` here. -/
def place (l : Label) : Lower Unit :=
  onDraft (·.place l)

/-- The number of operations so far. -/
@[noinline] def position : Lower Nat := fun s =>
  .ok s.draft.ops.size s

/-- What a step appends belongs to a place: its first operation is marked with it, unless the
step fails. -/
def markFrom (span : Span) (body : Lower Unit) : Lower Unit := do
  let start ← position
  body
  onDraft (·.mark start span)

/-- Change the enclosing loops and try statements. -/
def nest (f : Nesting → Nesting) : Lower Unit :=
  onDraft (·.nest f)

/-- Run a step inside of a loop. -/
def inLoop (continueLabel breakLabel : Label) (body : Lower α) : Lower α :=
  bracket (fun s => { s with draft := s.draft.nest (·.enterLoop continueLabel breakLabel) })
    (fun s => { s with draft := s.draft.nest (·.exitLoop) }) body

/-- Run a step inside of a try statement. -/
def inTry (body : Lower α) : Lower α :=
  bracket (fun s => { s with draft := s.draft.nest (·.enterTry) })
    (fun s => { s with draft := s.draft.nest (·.exitTry) }) body

/-! ## The scope -/

/-- Run a step in a new scope inside of the current one. -/
def inScope (name : String) (body : Lower α) : Lower α :=
  bracket (fun s => { s with scope := s.scope.enter name })
    (fun s => { s with scope := s.scope.leave }) body

/-- The `Symbol` of a name that must be defined. -/
def resolve (name : String) (span : Span) : Lower Symbol := do
  ofSymbol ((← get).scope.resolve name span)

/-- Define a variable in a slot that `take` takes from the draft. It is taken only if the name is
free. -/
def defineSlot (name : String) (span : Span) (kind : SlotKind) (isMutable : Bool)
    (take : Draft → Nat × Draft) : Lower Unit := fun s =>
  let make : Draft → Definition × Draft := fun d =>
    let (index, d) := take d
    (.slot kind index isMutable, d)
  let (result, scope, draft) := s.scope.define name span make s.draft
  let s := { s with scope := scope, draft := draft }
  match result with
  | .ok _ => .ok () s
  | .error e => .error (.symbol e) s

/-- `defineSlot` takes a slot exactly if the name is free. -/
theorem defineSlot_eq (name : String) (span : Span) (kind : SlotKind) (isMutable : Bool)
    (take : Draft → Nat × Draft) (s : LowerState) :
    defineSlot name span kind isMutable take s =
      if s.scope.isTaken name then .error (.symbol (.duplicate name span)) s
      else .ok () { s with
        draft := (take s.draft).2
        scope := s.scope.push
          ⟨name, s.scope.frame.id, span, .slot kind (take s.draft).1 isMutable⟩ } := by
  unfold defineSlot Scope.define
  cases s.scope.isTaken name <;> rfl

/-- Define a parameter, in a slot of its own. -/
def defineParam (name : String) (span : Span) (ty : ParamType) : Lower Unit :=
  defineSlot name span .argument true (·.addParam ⟨name, ty⟩)

/-- Define a local variable in a new slot, and the index of the slot. -/
def defineLocal (id : Ident) (ty : ParamType) (isMutable : Bool) : Lower Nat := do
  let index := (← get).draft.locals.size
  defineSlot id.name id.span .local isMutable (·.addLocal ⟨id.name, ty⟩)
  return index

/-! ## The token table -/

/-- The index of the token of a method, which is added on its first use. -/
def token (ref : MethodRef) (span : Span) : Lower Nat := fun s =>
  match s.tokens.add ref.token with
  | (some index, tokens) => .ok index { s with tokens := tokens }
  | (none, _) =>
    .error (.encoding (.operandTooLarge s.draft.name "method token table" TokenTable.capacity
      (TokenTable.capacity - 1) (some span))) s

end Lower

end ContractScript
