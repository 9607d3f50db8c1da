import ContractScript.Bytes
import ContractScript.Machine.Opcode
import ContractScript.Text.Hex
import ContractScript.Text.Numeral

/-!
# Instructions and their bytes

- `Instruction`: an opcode and its operand; `Instruction.bytes` writes it.
- `Instruction.read`: the instruction at the head of a byte string, and the bytes after it.
- `Located`: an instruction with its address; branch targets are relative to that.
- `decodeAt`, `decode`, `opcodes`: instructions of a script.
-/

namespace ContractScript

/-- An `Opcode` and its operand; counted data stands without its length. -/
structure Instruction where
  opcode : Opcode
  operand : List UInt8
deriving Repr, DecidableEq, Inhabited

/-- Why bytes are no instruction. -/
inductive DecodeError where
  /-- The byte is assigned to no opcode. -/
  | unknownOpcode (address : Nat) (byte : UInt8)
  /-- The bytes end inside `what`. -/
  | truncated (address : Nat) (what : String)
deriving Repr, DecidableEq

namespace DecodeError

def address : DecodeError → Nat
  | .unknownOpcode a _ => a
  | .truncated a _ => a

def message : DecodeError → String
  | .unknownOpcode a b =>
    "unknown opcode 0x" ++ Hex.encode [b] ++ " at address " ++ Text.decimalNat a
  | .truncated a what => "truncated " ++ what ++ " at address " ++ Text.decimalNat a

end DecodeError

namespace Instruction

/-- The bytes of an `Instruction`. -/
def bytes (i : Instruction) : List UInt8 :=
  match i.opcode.operand with
  | .fixed _ => i.opcode.byte :: i.operand
  | .counted n => i.opcode.byte :: (leBytes n i.operand.length ++ i.operand)

/-- The number of bytes of an `Instruction`. -/
def size (i : Instruction) : Nat :=
  match i.opcode.operand with
  | .fixed _ => 1 + i.operand.length
  | .counted n => 1 + n + i.operand.length

theorem length_bytes (i : Instruction) : i.bytes.length = i.size := by
  unfold bytes size
  split
  · simp [Nat.add_comm]
  · simp; omega

/-- The first `n` bytes and the rest, if there are as many. -/
def takeExactly (n : Nat) (bs : List UInt8) : Option (List UInt8 × List UInt8) :=
  if (bs.take n).length = n then some (bs.take n, bs.drop n) else none

theorem takeExactly_eq_some {n : Nat} {bs front rest : List UInt8}
    (h : takeExactly n bs = some (front, rest)) : bs = front ++ rest ∧ front.length = n := by
  unfold takeExactly at h
  split at h
  · next hlen =>
    obtain ⟨rfl, rfl⟩ := Prod.mk.injEq .. ▸ Option.some.injEq .. ▸ h
    exact ⟨(List.take_append_drop n bs).symm, hlen⟩
  · simp at h

/-- The operand of an `Opcode` at the head of a byte string, and the bytes after it. -/
def readOperand (op : Opcode) (bs : List UInt8) : Option (List UInt8 × List UInt8) :=
  match op.operand with
  | .fixed n => takeExactly n bs
  | .counted n => (takeExactly n bs).bind fun (count, rest) => takeExactly (ofLeBytes count) rest

/-- The instruction at the head of the bytes from `address` on, and the bytes after it. -/
def read (address : Nat) : List UInt8 → Except DecodeError (Instruction × List UInt8)
  | [] => .error (.truncated address "instruction")
  | b :: bs =>
    match Opcode.ofByte? b with
    | none => .error (.unknownOpcode address b)
    | some op =>
      match readOperand op bs with
      | none => .error (.truncated address op.name)
      | some (operand, rest) => .ok (⟨op, operand⟩, rest)

/-- What follows an operand is no longer than what began with it. -/
theorem readOperand_length {op : Opcode} {bs operand rest : List UInt8}
    (h : readOperand op bs = some (operand, rest)) : rest.length ≤ bs.length := by
  unfold readOperand at h
  split at h
  · have := takeExactly_eq_some h
    simp [this.1]
  · simp only [Option.bind_eq_some_iff] at h
    obtain ⟨⟨count, mid⟩, h1, h2⟩ := h
    have e1 := congrArg List.length (takeExactly_eq_some h1).1
    have e2 := congrArg List.length (takeExactly_eq_some h2).1
    simp only [List.length_append] at e1 e2
    omega

/-- Reading an instruction uses up at least one byte. -/
theorem read_length {address : Nat} {bs rest : List UInt8} {i : Instruction}
    (h : read address bs = .ok (i, rest)) : rest.length < bs.length := by
  unfold read at h
  split at h
  · cases h
  · next b bs' =>
    split at h
    · cases h
    · split at h
      · cases h
      · next hop =>
        cases h
        have := readOperand_length hop
        simp
        omega

end Instruction

/-- An `Instruction` of a script and its address. -/
structure Located extends Instruction where
  address : Nat
deriving Repr, DecidableEq, Inhabited

namespace Located

/-- The address after the instruction. -/
def next (i : Located) : Nat :=
  i.address + i.size

/-- The targets of a branch. A try names its handlers; offset zero stands for an absent one. -/
def branchTargets (i : Located) : List Int :=
  let base : Int := i.address
  match i.opcode with
  | .try | .tryL =>
    let half := i.operand.length / 2
    let offsets := [i.operand.take half, i.operand.drop half].map ofLeBytesSigned
    (offsets.filter (· != 0)).map (base + ·)
  | op =>
    if op.isBranch && (i.operand.length == 1 || i.operand.length == 4) then
      [base + ofLeBytesSigned i.operand]
    else []

/-- The integer that an instruction pushes. -/
def pushedInt? (i : Located) : Option Int :=
  match i.opcode with
  | .pushInt8 | .pushInt16 | .pushInt32 | .pushInt64 | .pushInt128 | .pushInt256 =>
    some (ofLeBytesSigned i.operand)
  | .pushM1 => some (-1)
  | op =>
    let n := op.byte.toNat
    if Opcode.push0.byte.toNat ≤ n ∧ n ≤ Opcode.push16.byte.toNat then
      some ((n - Opcode.push0.byte.toNat : Nat) : Int)
    else none

/-- The data that an instruction pushes. -/
def pushedData? (i : Located) : Option (List UInt8) :=
  match i.opcode with
  | .pushData1 | .pushData2 | .pushData4 => some i.operand
  | _ => none

/-- The operand as a number, if it has one to four bytes. -/
def operandNat? (i : Located) : Option Nat :=
  if i.operand.isEmpty || 4 < i.operand.length then none else some (ofLeBytes i.operand)

end Located

/-! ## Scripts -/

/-- The instruction at an address of a script. -/
def decodeAt (script : List UInt8) (address : Nat) : Except DecodeError Located :=
  match Instruction.read address (script.drop address) with
  | .error e => .error e
  | .ok (i, _) => .ok ⟨i, address⟩

/-- The instructions of the bytes from `address` on. -/
def decodeFrom (address : Nat) (bs : List UInt8) : Except DecodeError (List Located) :=
  if bs.isEmpty then .ok []
  else
    match _h : Instruction.read address bs with
    | .error e => .error e
    | .ok (i, rest) =>
      match decodeFrom (address + i.size) rest with
      | .error e => .error e
      | .ok is => .ok (⟨i, address⟩ :: is)
termination_by bs.length
decreasing_by exact Instruction.read_length _h

/-- The instructions of a script. -/
def decode (script : List UInt8) : Except DecodeError (List Located) :=
  decodeFrom 0 script

/-- The opcodes of the bytes from `address` on, up to the first that are no instruction. -/
def opcodesFrom (address : Nat) (bs : List UInt8) : List Opcode :=
  match _h : Instruction.read address bs with
  | .error _ => []
  | .ok (i, rest) => i.opcode :: opcodesFrom (address + i.size) rest
termination_by bs.length
decreasing_by exact Instruction.read_length _h

/-- The `Opcode`s of a script, up to the first bytes that are no instruction. -/
def opcodes (script : List UInt8) : List Opcode :=
  opcodesFrom 0 script

/-- Whether a script has exactly these `Opcode`s; operands are not looked at. -/
def hasOpcodes (script : List UInt8) (expected : List Opcode) : Bool :=
  opcodes script == expected

end ContractScript
