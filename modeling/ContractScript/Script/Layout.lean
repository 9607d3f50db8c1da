import ContractScript.Diagnostic
import ContractScript.Routine.Operation

/-!
# Sizes and addresses

Functions are laid out back to back, in order. Each operation takes the address after the one
before it; a label stands for the address of what follows it. A branch has a long and a short
form, so the form chosen for each branch is part of the code that is laid out.

- `Cell`, `Chunk`: an operation with its form, and the code of one function.
- `Operation.size`: the bytes that an operation takes.
- `placeCells`, `layoutEach`, `layout`: addresses of all operations and labels.
-/

namespace ContractScript

/-- The two forms of a branch: with four-byte and with one-byte offsets. -/
inductive Form where
  | long | short
deriving Repr, DecidableEq, Inhabited

/-- The `Opcode` of a branch in a form, given the long one. -/
def Form.opcode (form : Form) (op : Opcode) : Opcode :=
  match form with
  | .long => op
  | .short => op.shortForm

/-- The bytes of one offset. -/
def Form.offsetWidth : Form → Nat
  | .long => 4
  | .short => 1

/-- An operation and the form that it takes if it is a branch. -/
structure Cell where
  op : Op
  form : Form := .long
deriving Repr, DecidableEq, Inhabited

/-- The code of one function. -/
structure Chunk where
  id : FunctionId
  name : String
  cells : List Cell
deriving Repr, DecidableEq, Inhabited

/-- The code of a `Routine` with every branch long. -/
def Chunk.ofRoutine (r : Routine) : Chunk :=
  ⟨r.id, r.name, r.ops.map fun op => ⟨op, .long⟩⟩

/-- Why an operation has no encoding. -/
inductive Fault where
  | tooLarge (what : String) (size max : Nat)
  | noTarget (what : String)
  | badOperand (problem : String)
deriving Repr, DecidableEq

/-- The diagnostic for a fault in a function. -/
def Fault.toError (function : String) (span : Option Span) : Fault → EncodingError
  | .tooLarge what size max => .operandTooLarge function what size max span
  | .noTarget what => .invalidTarget function what span
  | .badOperand problem => .invalidOperand function problem

/-! ## Sizes -/

/-- The `Opcode`s that push an integer with an operand, and the bytes of that operand. -/
def intWidths : List (Nat × Opcode) :=
  [(1, .pushInt8), (2, .pushInt16), (4, .pushInt32), (8, .pushInt64), (16, .pushInt128),
   (32, .pushInt256)]

/-- The `Opcode` that pushes an integer: one without operand for small ones, else the narrowest. -/
def pushIntOpcode (value : Int) : Except Fault Opcode :=
  match Opcode.pushSmall? value with
  | some op => .ok op
  | none =>
    let width := signedWidth value
    match intWidths.find? fun row => width ≤ row.1 with
    | some row => .ok row.2
    | none => .error (.tooLarge "integer width in bytes" width 32)

/-- The `Opcode` that pushes so many bytes, with the shortest length that counts them. -/
def pushDataOpcode (length : Nat) : Except Fault Opcode :=
  if length ≤ 255 then .ok .pushData1
  else if length ≤ 65535 then .ok .pushData2
  else if length ≤ 4294967295 then .ok .pushData4
  else .error (.tooLarge "push data length" length 4294967295)

/-- A slot index that no operand holds. -/
def slotTooLarge (kind : SlotKind) (index : Nat) : Fault :=
  .tooLarge (kind.name ++ " slot index") index 255

namespace Operation

/-- The bytes that an `Operation` takes. -/
def size (form : Form) : Operation → Except Fault Nat
  | .label _ | .anchor => .ok 0
  | .simple _ | .pushBool _ | .pushNull | .return => .ok 1
  | .pushInt value =>
    match pushIntOpcode value with
    | .ok op => .ok op.headerSize
    | .error e => .error e
  | .pushData data =>
    match pushDataOpcode data.length with
    | .ok op => .ok (op.headerSize + data.length)
    | .error e => .error e
  | .convert _ | .isType _ => .ok 2
  | .load kind index | .store kind index =>
    if index ≤ 6 then .ok 1
    else if index ≤ 255 then .ok 2
    else .error (slotTooLarge kind index)
  | .jump _ _ | .endTry _ => .ok (form.opcode .jmpL).headerSize
  | .try _ _ => .ok (form.opcode .tryL).headerSize
  | .call _ => .ok (form.opcode .callL).headerSize
  | .callToken _ => .ok Opcode.callT.headerSize
  | .service _ => .ok Opcode.syscall.headerSize
  | .initSlots _ _ => .ok Opcode.initSlot.headerSize
  | .initStatics _ => .ok Opcode.initSSlot.headerSize

/-- The `Label` that an operation places. -/
def placedLabel? : Operation → Option Label
  | .label l => some l
  | _ => none

end Operation

/-- The bytes that a `Cell` takes. -/
def Cell.size (c : Cell) : Except Fault Nat :=
  c.op.operation.size c.form

/-! ## Addresses -/

/-- Where the operations of one function stand. -/
structure Placement where
  /-- The addresses of the operations, up to the first that has no size. -/
  addresses : List Nat
  /-- The labels among them, in order of placement. -/
  labels : List (Label × Nat)
  /-- The address after the last of them. -/
  stop : Nat
  /-- Why the placement ended early. -/
  fault : Option EncodingError := none
deriving Repr, Inhabited

/-- The `Label`s that an operation places at an address. -/
def labelsAt (operation : Operation) (address : Nat) : List (Label × Nat) :=
  (operation.placedLabel?.map fun l => (l, address)).toList

/-- Place the `Cell`s of a function from an address on. -/
def placeCells (function : String) (address : Nat) : List Cell → Placement
  | [] => ⟨[], [], address, none⟩
  | c :: cs =>
    match c.size with
    | .error fault =>
      ⟨[address], labelsAt c.op.operation address, address,
        some (fault.toError function c.op.location)⟩
    | .ok n =>
      let rest := placeCells function (address + n) cs
      ⟨address :: rest.addresses, labelsAt c.op.operation address ++ rest.labels, rest.stop,
        rest.fault⟩

/-- Where all functions stand. -/
structure Layout where
  /-- The start of each function and the placement of its operations. -/
  functions : List (Nat × Placement)
  /-- The bytes of the whole script. -/
  size : Nat
deriving Repr, Inhabited

namespace Layout

/-- The starts of the functions. -/
def starts (l : Layout) : List Nat :=
  l.functions.map Prod.fst

/-- The start of a function, found by its position in the list. -/
def start? (l : Layout) (id : FunctionId) : Option Nat :=
  l.starts[id]?

end Layout

/-- Place functions one after another from an address on. -/
def placeChunks (address : Nat) : List Chunk → List (Nat × Placement)
  | [] => []
  | c :: cs =>
    let p := placeCells c.name address c.cells
    (address, p) :: placeChunks p.stop cs

/-- The largest script that signed 32-bit offsets reach across. -/
def maxScriptSize : Nat := 2147483647

/-- The `Layout` of all functions, and the faults met on the way: the first of each function, then
the size of the whole. -/
def layoutEach (chunks : List Chunk) : Layout × List EncodingError :=
  let functions := placeChunks 0 chunks
  let size := (functions.getLast?.map fun f => f.2.stop).getD 0
  let faults := functions.filterMap fun f => f.2.fault
  let overflow := if maxScriptSize < size then [.scriptTooLarge size maxScriptSize] else []
  (⟨functions, size⟩, faults ++ overflow)

/-- The `Layout` of all functions, or the first fault. -/
def layout (chunks : List Chunk) : Except EncodingError Layout :=
  match layoutEach chunks with
  | (l, []) => .ok l
  | (_, e :: _) => .error e

end ContractScript
