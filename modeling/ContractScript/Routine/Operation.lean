import ContractScript.Contract.ParamType
import ContractScript.Machine.Host
import ContractScript.Machine.ItemType
import ContractScript.Machine.Opcode
import ContractScript.Span

/-!
# Operations without addresses

A function is lowered to a list of operations. Branches name labels, which are marks in the same
list, so that no operation depends on an address.

- `Operation`, `Op`: an operation, and one with its place in the source.
- `Routine`: a function whose operations are final.
-/

namespace ContractScript

/-- A mark in the operations of one function. Labels, functions and slots are numbered by the
lengths of lists that are held in memory, which stay below 2 ^ 32, so that their 32-bit numbers
never start again from zero. -/
abbrev Label := Nat

/-- The number of a function, in declaration order. -/
abbrev FunctionId := Nat

/-- Where a variable lives. -/
inductive SlotKind where
  | argument | local | static
deriving Repr, DecidableEq, Inhabited

/-- Every kind of slot. -/
def SlotKind.all : List SlotKind := [.argument, .local, .static]

def SlotKind.name : SlotKind → String
  | .argument => "argument"
  | .local => "local"
  | .static => "static"

/-- When a jump is taken. -/
inductive JumpKind where
  | always | ifTrue | ifFalse | eq | ne | gt | ge | lt | le
deriving Repr, DecidableEq, Inhabited

/-- Every kind of jump. -/
def JumpKind.all : List JumpKind :=
  [.always, .ifTrue, .ifFalse, .eq, .ne, .gt, .ge, .lt, .le]

def JumpKind.name : JumpKind → String
  | .always => "always"
  | .ifTrue => "if"
  | .ifFalse => "ifnot"
  | .eq => "eq"
  | .ne => "ne"
  | .gt => "gt"
  | .ge => "ge"
  | .lt => "lt"
  | .le => "le"

/-- The `Opcode` of a jump with a four-byte offset. -/
def JumpKind.opcode : JumpKind → Opcode
  | .always => .jmpL
  | .ifTrue => .jmpIfL
  | .ifFalse => .jmpIfNotL
  | .eq => .jmpEqL
  | .ne => .jmpNeL
  | .gt => .jmpGtL
  | .ge => .jmpGeL
  | .lt => .jmpLtL
  | .le => .jmpLeL

/-- One operation. -/
inductive Operation where
  /-- An opcode without operand. -/
  | simple (op : Opcode)
  | pushInt (value : Int)
  | pushData (data : List UInt8)
  | pushBool (value : Bool)
  | pushNull
  | convert (ty : ItemType)
  | isType (ty : ItemType)
  | load (kind : SlotKind) (index : Nat)
  | store (kind : SlotKind) (index : Nat)
  | jump (kind : JumpKind) (target : Label)
  /-- Enter a protected region with its handlers. -/
  | try (handler finalizer : Option Label)
  /-- Leave a protected region through its finalizer. -/
  | endTry (target : Label)
  | call (function : FunctionId)
  /-- Call the method at an index of the token table. -/
  | callToken (index : Nat)
  | service (s : Service)
  /-- Open the slots of a function. -/
  | initSlots (locals params : Nat)
  /-- Open the static slots. -/
  | initStatics (count : Nat)
  /-- A mark that branches name; it takes no bytes. -/
  | label (l : Label)
  /-- A mark for a place in the source; it takes no bytes. -/
  | anchor
  | return
deriving Repr, DecidableEq, Inhabited

namespace Operation

/-- Whether an `Operation` takes no bytes. -/
def isMarker : Operation → Bool
  | .label _ | .anchor => true
  | _ => false

/-- The `Label`s that an operation branches to. -/
def targets : Operation → List Label
  | .jump _ l | .endTry l => [l]
  | .try handler finalizer => handler.toList ++ finalizer.toList
  | _ => []

end Operation

/-- An `Operation` and its place in the source, if it has one. -/
structure Op where
  operation : Operation
  location : Option Span := none
deriving Repr, DecidableEq, Inhabited

/-- A function whose operations are final. -/
structure Routine where
  id : FunctionId
  name : String
  ops : List Op
  params : List Slot := []
  locals : List Slot := []
  returnType : ParamType := .void
  /-- Listed in the interface of the contract. -/
  isExport : Bool := false
  /-- Declared not to change state. -/
  isSafe : Bool := false
deriving Repr, DecidableEq, Inhabited

end ContractScript
