import ContractScript.Diagnostic
import ContractScript.Routine.Nesting

/-!
# Functions under construction

A `Draft` collects the operations of one function, hands out labels and slots, and keeps the
enclosing loops and try statements. Every `return` leads to one label, which `finish` places
before the only return operation.

- `Draft.emit`, `Draft.place`, `Draft.newLabel`, `Draft.addParam`, `Draft.addLocal`.
- `Draft.mark`: the operations emitted since a position belong to a statement.
- `elideJumps`: jumps over nothing but markers are dropped.
- `Draft.finish`: the final routine.
-/

namespace ContractScript

/-- A function under construction. -/
structure Draft where
  id : FunctionId
  name : String
  ops : Array Op := #[]
  params : Array Slot := #[]
  locals : Array Slot := #[]
  /-- Labels handed out so far; the first is the return target. -/
  labelCount : Nat := 1
  nesting : Nesting := {}
deriving Repr, Inhabited

/-- Whether an `Operation` is an unconditional jump with only markers between itself and its label.
-/
def isFallthrough (operation : Operation) (rest : List Op) : Bool :=
  match operation with
  | .jump .always target =>
    (rest.takeWhile (·.operation.isMarker)).any (·.operation == .label target)
  | _ => false

/-- Drop the jumps that only lead to where control goes anyway. -/
def elideJumps : List Op → List Op
  | [] => []
  | op :: rest =>
    if isFallthrough op.operation rest then elideJumps rest else op :: elideJumps rest

/-- The `Label`s that operations place. -/
def placedLabels (ops : List Op) : List Label :=
  ops.filterMap fun op =>
    match op.operation with
    | .label l => some l
    | _ => none

/-- The first operation that branches to a `Label` nobody placed, and that label. -/
def danglingTarget? (ops : List Op) : Option (Op × Label) :=
  let placed := placedLabels ops
  ops.findSome? fun op =>
    (op.operation.targets.find? fun l => !placed.contains l).map fun l => (op, l)

namespace Draft

/-- The label that every `return` leads to. -/
def returnTarget : Label := 0

/-- Declare the next parameter, and its index. -/
def addParam (d : Draft) (slot : Slot) : Nat × Draft :=
  (d.params.size, { d with params := d.params.push slot })

/-- Take a new local `Slot`, and its index. Slots are never used again. -/
def addLocal (d : Draft) (slot : Slot) : Nat × Draft :=
  (d.locals.size, { d with locals := d.locals.push slot })

/-- Append an `Operation` that has no place of its own. -/
def emit (d : Draft) (operation : Operation) : Draft :=
  { d with ops := d.ops.push ⟨operation, none⟩ }

/-- Append an `Operation` at a place of the source. -/
def emitAt (d : Draft) (operation : Operation) (span : Span) : Draft :=
  { d with ops := d.ops.push ⟨operation, some span⟩ }

/-- Put the operation at an index at a place of the source. -/
def setLocation (d : Draft) (index : Nat) (span : Span) : Draft :=
  { d with ops := d.ops.modify index fun op => { op with location := some span } }

/-- The operations from `start` on belong to a statement: the first of them gets its place,
unless it has one. -/
def mark (d : Draft) (start : Nat) (span : Span) : Draft :=
  { d with ops := d.ops.modify start fun op => { op with location := op.location.or (some span) } }

/-- A new `Label`. -/
def newLabel (d : Draft) : Label × Draft :=
  (d.labelCount, { d with labelCount := d.labelCount + 1 })

/-- Place a `Label` here. -/
def place (d : Draft) (l : Label) : Draft :=
  d.emit (.label l)

/-- Change the enclosing loops and try statements. -/
def nest (d : Draft) (f : Nesting → Nesting) : Draft :=
  { d with nesting := f d.nesting }

/-- The final `Routine`: the return target is placed before the return operation, needless jumps go,
and a function with slots opens them first. Every label that is branched to must be placed. -/
def finish (d : Draft) : Except EncodingError Routine :=
  let body := elideJumps (((d.place returnTarget).emit .return).ops.toList)
  let ops :=
    if d.params.isEmpty && d.locals.isEmpty then body
    else ⟨.initSlots d.locals.size d.params.size, none⟩ :: body
  match danglingTarget? ops with
  | some (op, l) =>
    .error (.invalidTarget d.name ("branch to label " ++ Text.decimalNat l) op.location)
  | none =>
    .ok {
      id := d.id
      name := d.name
      ops := ops
      params := d.params.toList
      locals := d.locals.toList }

end Draft

end ContractScript
