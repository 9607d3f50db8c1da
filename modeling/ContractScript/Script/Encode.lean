import ContractScript.Machine.Instruction
import ContractScript.Machine.MethodToken
import ContractScript.Script.Layout

/-!
# From operations to bytes

An operation is resolved to an instruction against a layout, and the instruction is written. What
a branch, a call or a token reference names must exist; nothing is filled in for it.

- `Targets`: what the operations of one function can refer to.
- `Operation.offsets`: how far the targets of a branch are.
- `Operation.instruction`: the instruction of an operation.
- `encode`, `encodeEach`: the script of all functions, up to the first fault or with the first
  fault of each function.
-/

namespace ContractScript

/-- The code of one function in a script. -/
structure Method where
  id : FunctionId
  name : String
  start : Nat
  /-- The address after the last byte. -/
  stop : Nat
  /-- Places of the source by address, ascending, one per address. -/
  points : List (Nat × Span) := []
deriving Repr, DecidableEq, Inhabited

/-- The bytes of a contract, function by function. -/
structure Script where
  bytes : List UInt8
  methods : List Method
deriving Repr, DecidableEq, Inhabited

/-- The first `Method` of a name. -/
def Script.method? (s : Script) (name : String) : Option Method :=
  s.methods.find? (·.name == name)

/-- What the operations of one function can refer to. -/
structure Targets where
  /-- The labels of the function. -/
  labels : List (Label × Nat)
  /-- The starts of all functions. -/
  starts : List Nat
  /-- The number of method tokens. -/
  tokenCount : Nat
deriving Repr, Inhabited

namespace Targets

/-- The address of a `Label`: that of its last placement. -/
def label (t : Targets) (l : Label) : Except Fault Nat :=
  match (t.labels.filter (·.1 == l)).getLast? with
  | some (_, address) => .ok address
  | none => .error (.noTarget ("branch to label " ++ Text.decimalNat l))

/-- The start of a function. -/
def function (t : Targets) (id : FunctionId) : Except Fault Nat :=
  match t.starts[id]? with
  | some address => .ok address
  | none => .error (.noTarget ("call to function " ++ Text.decimalNat id))

end Targets

/-! ## Instructions -/

/-- A count of slots, in one byte. -/
def slotCount (what : String) (count : Nat) : Except Fault UInt8 :=
  if count ≤ 255 then .ok (UInt8.ofNat count) else .error (.tooLarge what count 255)

/-- The `Opcode` for slot zero and the opcode with the index as operand. -/
def slotOpcodes (kind : SlotKind) (isLoad : Bool) : Opcode × Opcode :=
  match kind, isLoad with
  | .argument, true => (.ldArg0, .ldArg)
  | .argument, false => (.stArg0, .stArg)
  | .local, true => (.ldLoc0, .ldLoc)
  | .local, false => (.stLoc0, .stLoc)
  | .static, true => (.ldSFld0, .ldSFld)
  | .static, false => (.stSFld0, .stSFld)

/-- Access to a slot: the first seven have opcodes of their own. -/
def slotInstruction (kind : SlotKind) (index : Nat) (isLoad : Bool) : Except Fault Instruction :=
  let (compact, explicit) := slotOpcodes kind isLoad
  if index ≤ 6 then
    match Opcode.ofByte? (compact.byte + UInt8.ofNat index) with
    | some op => .ok ⟨op, []⟩
    | none =>
      .error (.badOperand
        ("no compact form of " ++ explicit.name ++ " for slot " ++ Text.decimalNat index))
  else if index ≤ 255 then .ok ⟨explicit, [UInt8.ofNat index]⟩
  else .error (slotTooLarge kind index)

/-- The `Instruction` of a branch; an absent target is written as offset zero. -/
def branchInstruction (form : Form) (op : Opcode) (offsets : List (Option Int)) : Instruction :=
  ⟨form.opcode op, offsets.flatMap fun o => leBytesSigned form.offsetWidth (o.getD 0)⟩

namespace Operation

/-- How far the targets of a branch at an address are, each handler of a try in turn; nothing for
other `Operation`s. -/
def offsets (t : Targets) (address : Nat) : Operation → Except Fault (List (Option Int))
  | .jump _ l | .endTry l => do
    let target ← t.label l
    return [some ((target : Int) - address)]
  | .call id => do
    let target ← t.function id
    return [some ((target : Int) - address)]
  | .try handler finalizer => do
    let first ← handler.mapM fun l => do return ((← t.label l) : Int) - address
    let second ← finalizer.mapM fun l => do return ((← t.label l) : Int) - address
    return [first, second]
  | _ => return []

/-- The `Instruction` of an operation at an address; markers have none. -/
def instruction (t : Targets) (address : Nat) (form : Form) (operation : Operation) :
    Except Fault (Option Instruction) :=
  match operation with
  | .label _ | .anchor => return none
  | .simple op =>
    if op.isSimple then return some ⟨op, []⟩
    else .error (.badOperand (op.name ++ " needs an operand"))
  | .pushInt value => do
    let op ← pushIntOpcode value
    return some ⟨op, leBytesSigned (op.headerSize - 1) value⟩
  | .pushData data => do
    let op ← pushDataOpcode data.length
    return some ⟨op, data⟩
  | .pushBool value => return some ⟨if value then .pushT else .pushF, []⟩
  | .pushNull => return some ⟨.pushNull, []⟩
  | .convert ty => return some ⟨.convert, [ty.byte]⟩
  | .isType ty => return some ⟨.isType, [ty.byte]⟩
  | .load kind index => some <$> slotInstruction kind index true
  | .store kind index => some <$> slotInstruction kind index false
  | .jump kind _ => do
    return some (branchInstruction form kind.opcode (← operation.offsets t address))
  | .endTry _ => do
    return some (branchInstruction form .endTryL (← operation.offsets t address))
  | .call _ => do
    return some (branchInstruction form .callL (← operation.offsets t address))
  | .try _ _ => do
    return some (branchInstruction form .tryL (← operation.offsets t address))
  | .callToken index =>
    if index < t.tokenCount then return some ⟨.callT, leBytes 2 index⟩
    else .error (.noTarget ("method token " ++ Text.decimalNat index))
  | .service s => return some ⟨.syscall, leBytes 4 s.id⟩
  | .initSlots locals params => do
    let locals ← slotCount "local count" locals
    let params ← slotCount "parameter count" params
    return some ⟨.initSlot, [locals, params]⟩
  | .initStatics count => do
    let count ← slotCount "static count" count
    return some ⟨.initSSlot, [count]⟩
  | .return => return some ⟨.ret, []⟩

end Operation

/-- The bytes of a `Cell` at an address. -/
def Cell.bytes (t : Targets) (address : Nat) (c : Cell) : Except Fault (List UInt8) := do
  match ← c.op.operation.instruction t address c.form with
  | some i => return i.bytes
  | none => return []

/-! ## Functions and scripts -/

/-- The bytes of the `Cell`s of a function at their addresses. -/
def encodeCells (t : Targets) (function : String) :
    List Nat → List Cell → Except EncodingError (List UInt8)
  | address :: addresses, c :: cs =>
    match c.bytes t address with
    | .error fault => .error (fault.toError function c.op.location)
    | .ok bytes =>
      match encodeCells t function addresses cs with
      | .error e => .error e
      | .ok rest => .ok (bytes ++ rest)
  | _, _ => .ok []

/-- Add a place to those of lower addresses, newest first: at one address the last one counts. -/
def addPoint (points : List (Nat × Span)) (point : Nat × Span) : List (Nat × Span) :=
  match points with
  | [] => [point]
  | last :: earlier => if last.1 == point.1 then point :: earlier else point :: last :: earlier

/-- The places of the operations at their addresses. -/
def sequencePoints (addresses : List Nat) (cells : List Cell) : List (Nat × Span) :=
  let located := (addresses.zip cells).filterMap fun (a, c) => c.op.location.map fun s => (a, s)
  (located.foldl addPoint []).reverse

/-- The code of a function that starts at `start` and is placed as `p` says. -/
def encodeChunk (starts : List Nat) (tokenCount : Nat) (c : Chunk) (start : Nat) (p : Placement) :
    Except EncodingError (Method × List UInt8) :=
  match encodeCells ⟨p.labels, starts, tokenCount⟩ c.name p.addresses c.cells with
  | .error e => .error e
  | .ok bytes => .ok (⟨c.id, c.name, start, p.stop, sequencePoints p.addresses c.cells⟩, bytes)

/-- The code of each function in a `Layout`. -/
def encodeChunks (l : Layout) (tokens : TokenTable) (chunks : List Chunk) :
    List (Except EncodingError (Method × List UInt8)) :=
  (chunks.zip l.functions).map fun (c, start, p) => encodeChunk l.starts tokens.size c start p

/-- One `Script` of the code of all functions. -/
def joinMethods (parts : List (Method × List UInt8)) : Script :=
  ⟨parts.flatMap Prod.snd, parts.map Prod.fst⟩

/-- The `Script` of all functions, or the first fault. -/
def encode (tokens : TokenTable) (chunks : List Chunk) : Except EncodingError Script := do
  let l ← layout chunks
  let parts ← (encodeChunks l tokens chunks).mapM id
  return joinMethods parts

/-- The part of a list of outcomes that failed. -/
def failures {α : Type} (outcomes : List (Except EncodingError α)) : List EncodingError :=
  outcomes.filterMap fun o =>
    match o with
    | .error e => some e
    | .ok _ => none

/-- The part of a list of outcomes that succeeded. -/
def successes {α : Type} (outcomes : List (Except EncodingError α)) : List α :=
  outcomes.filterMap fun o =>
    match o with
    | .error _ => none
    | .ok a => some a

/-- The `Script` of all functions, or the first fault of each function. A function without a full
placement is not encoded; the others are encoded in the same layout. -/
def encodeEach (tokens : TokenTable) (chunks : List Chunk) :
    Except (List EncodingError) Script :=
  let (l, faults) := layoutEach chunks
  let placed := (chunks.zip l.functions).filter fun (_, _, p) => p.fault.isNone
  let outcomes := placed.map fun (c, start, p) => encodeChunk l.starts tokens.size c start p
  match faults ++ failures outcomes with
  | [] => .ok (joinMethods (successes outcomes))
  | errors => .error errors

end ContractScript
