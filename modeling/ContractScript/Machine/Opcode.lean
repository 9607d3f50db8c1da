import ContractScript.Text.Blank

/-!
# The instruction set

An instruction is an opcode byte and its operand. The opcode alone says how long the operand is:
a fixed number of bytes, or a little-endian length of one, two or four bytes and that many bytes
of data.

- `Opcode`, `Opcode.byte`, `Opcode.name`, `Opcode.operand`: the table.
- `Opcode.ofByte?`, `Opcode.ofName?`: its inverses.
- `Opcode.longForm`, `Opcode.shortForm`: branches have a four-byte and a one-byte form.
-/

namespace ContractScript

/-- How long the operand of an opcode is. -/
inductive OperandLayout where
  /-- Exactly this many bytes. -/
  | fixed (size : Nat)
  /-- A little-endian length of this many bytes, then the data. -/
  | counted (width : Nat)
deriving Repr, DecidableEq

/-- The operation codes of the machine, in byte order. -/
inductive Opcode where
  -- constants
  | pushInt8 | pushInt16 | pushInt32 | pushInt64 | pushInt128 | pushInt256 | pushT | pushF | pushA
  | pushNull | pushData1 | pushData2 | pushData4 | pushM1 | push0 | push1 | push2 | push3 | push4
  | push5 | push6 | push7 | push8 | push9 | push10 | push11 | push12 | push13 | push14 | push15
  | push16
  -- flow control
  | nop | jmp | jmpL | jmpIf | jmpIfL | jmpIfNot | jmpIfNotL | jmpEq | jmpEqL | jmpNe | jmpNeL
  | jmpGt | jmpGtL | jmpGe | jmpGeL | jmpLt | jmpLtL | jmpLe | jmpLeL | call | callL | callA
  | callT | abort | assert | throw | try | tryL | endTry | endTryL | endFinally | ret | syscall
  -- stack
  | depth | drop | nip | xDrop | clear | dup | over | pick | tuck | swap | rot | roll | reverse3
  | reverse4 | reverseN
  -- slots
  | initSSlot | initSlot | ldSFld0 | ldSFld1 | ldSFld2 | ldSFld3 | ldSFld4 | ldSFld5 | ldSFld6
  | ldSFld | stSFld0 | stSFld1 | stSFld2 | stSFld3 | stSFld4 | stSFld5 | stSFld6 | stSFld | ldLoc0
  | ldLoc1 | ldLoc2 | ldLoc3 | ldLoc4 | ldLoc5 | ldLoc6 | ldLoc | stLoc0 | stLoc1 | stLoc2
  | stLoc3 | stLoc4 | stLoc5 | stLoc6 | stLoc | ldArg0 | ldArg1 | ldArg2 | ldArg3 | ldArg4
  | ldArg5 | ldArg6 | ldArg | stArg0 | stArg1 | stArg2 | stArg3 | stArg4 | stArg5 | stArg6 | stArg
  -- splice
  | newBuffer | memCpy | cat | substr | left | right
  -- bitwise logic
  | invert | and | or | xor | equal | notEqual
  -- arithmetic
  | sign | abs | negate | inc | dec | add | sub | mul | div | mod | pow | sqrt | modMul | modPow
  | shl | shr | not | boolAnd | boolOr | nz | numEqual | numNotEqual | lt | le | gt | ge | min
  | max | within
  -- compound types
  | packMap | packStruct | pack | unpack | newArray0 | newArray | newArrayT | newStruct0
  | newStruct | newMap | size | hasKey | keys | values | pickItem | append | setItem
  | reverseItems | remove | clearItems | popItem
  -- types
  | isNull | isType | convert
  -- extensions
  | abortMsg | assertMsg
deriving Repr, DecidableEq, Inhabited

namespace Opcode

/-- Every `Opcode`, in byte order. -/
def all : List Opcode :=
  [.pushInt8, .pushInt16, .pushInt32, .pushInt64, .pushInt128, .pushInt256, .pushT, .pushF,
   .pushA, .pushNull, .pushData1, .pushData2, .pushData4, .pushM1, .push0, .push1, .push2, .push3,
   .push4, .push5, .push6, .push7, .push8, .push9, .push10, .push11, .push12, .push13, .push14,
   .push15, .push16, .nop, .jmp, .jmpL, .jmpIf, .jmpIfL, .jmpIfNot, .jmpIfNotL, .jmpEq, .jmpEqL,
   .jmpNe, .jmpNeL, .jmpGt, .jmpGtL, .jmpGe, .jmpGeL, .jmpLt, .jmpLtL, .jmpLe, .jmpLeL, .call,
   .callL, .callA, .callT, .abort, .assert, .throw, .try, .tryL, .endTry, .endTryL, .endFinally,
   .ret, .syscall, .depth, .drop, .nip, .xDrop, .clear, .dup, .over, .pick, .tuck, .swap, .rot,
   .roll, .reverse3, .reverse4, .reverseN, .initSSlot, .initSlot, .ldSFld0, .ldSFld1, .ldSFld2,
   .ldSFld3, .ldSFld4, .ldSFld5, .ldSFld6, .ldSFld, .stSFld0, .stSFld1, .stSFld2, .stSFld3,
   .stSFld4, .stSFld5, .stSFld6, .stSFld, .ldLoc0, .ldLoc1, .ldLoc2, .ldLoc3, .ldLoc4, .ldLoc5,
   .ldLoc6, .ldLoc, .stLoc0, .stLoc1, .stLoc2, .stLoc3, .stLoc4, .stLoc5, .stLoc6, .stLoc,
   .ldArg0, .ldArg1, .ldArg2, .ldArg3, .ldArg4, .ldArg5, .ldArg6, .ldArg, .stArg0, .stArg1,
   .stArg2, .stArg3, .stArg4, .stArg5, .stArg6, .stArg, .newBuffer, .memCpy, .cat, .substr, .left,
   .right, .invert, .and, .or, .xor, .equal, .notEqual, .sign, .abs, .negate, .inc, .dec, .add,
   .sub, .mul, .div, .mod, .pow, .sqrt, .modMul, .modPow, .shl, .shr, .not, .boolAnd, .boolOr,
   .nz, .numEqual, .numNotEqual, .lt, .le, .gt, .ge, .min, .max, .within, .packMap, .packStruct,
   .pack, .unpack, .newArray0, .newArray, .newArrayT, .newStruct0, .newStruct, .newMap, .size,
   .hasKey, .keys, .values, .pickItem, .append, .setItem, .reverseItems, .remove, .clearItems,
   .popItem, .isNull, .isType, .convert, .abortMsg, .assertMsg]

/-- The row of an `Opcode`: its number, its mnemonic and its operand. -/
def row : Opcode → Nat × String × OperandLayout
  | .pushInt8 => (0x00, "PUSHINT8", .fixed 1)
  | .pushInt16 => (0x01, "PUSHINT16", .fixed 2)
  | .pushInt32 => (0x02, "PUSHINT32", .fixed 4)
  | .pushInt64 => (0x03, "PUSHINT64", .fixed 8)
  | .pushInt128 => (0x04, "PUSHINT128", .fixed 16)
  | .pushInt256 => (0x05, "PUSHINT256", .fixed 32)
  | .pushT => (0x08, "PUSHT", .fixed 0)
  | .pushF => (0x09, "PUSHF", .fixed 0)
  | .pushA => (0x0A, "PUSHA", .fixed 4)
  | .pushNull => (0x0B, "PUSHNULL", .fixed 0)
  | .pushData1 => (0x0C, "PUSHDATA1", .counted 1)
  | .pushData2 => (0x0D, "PUSHDATA2", .counted 2)
  | .pushData4 => (0x0E, "PUSHDATA4", .counted 4)
  | .pushM1 => (0x0F, "PUSHM1", .fixed 0)
  | .push0 => (0x10, "PUSH0", .fixed 0)
  | .push1 => (0x11, "PUSH1", .fixed 0)
  | .push2 => (0x12, "PUSH2", .fixed 0)
  | .push3 => (0x13, "PUSH3", .fixed 0)
  | .push4 => (0x14, "PUSH4", .fixed 0)
  | .push5 => (0x15, "PUSH5", .fixed 0)
  | .push6 => (0x16, "PUSH6", .fixed 0)
  | .push7 => (0x17, "PUSH7", .fixed 0)
  | .push8 => (0x18, "PUSH8", .fixed 0)
  | .push9 => (0x19, "PUSH9", .fixed 0)
  | .push10 => (0x1A, "PUSH10", .fixed 0)
  | .push11 => (0x1B, "PUSH11", .fixed 0)
  | .push12 => (0x1C, "PUSH12", .fixed 0)
  | .push13 => (0x1D, "PUSH13", .fixed 0)
  | .push14 => (0x1E, "PUSH14", .fixed 0)
  | .push15 => (0x1F, "PUSH15", .fixed 0)
  | .push16 => (0x20, "PUSH16", .fixed 0)
  | .nop => (0x21, "NOP", .fixed 0)
  | .jmp => (0x22, "JMP", .fixed 1)
  | .jmpL => (0x23, "JMP_L", .fixed 4)
  | .jmpIf => (0x24, "JMPIF", .fixed 1)
  | .jmpIfL => (0x25, "JMPIF_L", .fixed 4)
  | .jmpIfNot => (0x26, "JMPIFNOT", .fixed 1)
  | .jmpIfNotL => (0x27, "JMPIFNOT_L", .fixed 4)
  | .jmpEq => (0x28, "JMPEQ", .fixed 1)
  | .jmpEqL => (0x29, "JMPEQ_L", .fixed 4)
  | .jmpNe => (0x2A, "JMPNE", .fixed 1)
  | .jmpNeL => (0x2B, "JMPNE_L", .fixed 4)
  | .jmpGt => (0x2C, "JMPGT", .fixed 1)
  | .jmpGtL => (0x2D, "JMPGT_L", .fixed 4)
  | .jmpGe => (0x2E, "JMPGE", .fixed 1)
  | .jmpGeL => (0x2F, "JMPGE_L", .fixed 4)
  | .jmpLt => (0x30, "JMPLT", .fixed 1)
  | .jmpLtL => (0x31, "JMPLT_L", .fixed 4)
  | .jmpLe => (0x32, "JMPLE", .fixed 1)
  | .jmpLeL => (0x33, "JMPLE_L", .fixed 4)
  | .call => (0x34, "CALL", .fixed 1)
  | .callL => (0x35, "CALL_L", .fixed 4)
  | .callA => (0x36, "CALLA", .fixed 0)
  | .callT => (0x37, "CALLT", .fixed 2)
  | .abort => (0x38, "ABORT", .fixed 0)
  | .assert => (0x39, "ASSERT", .fixed 0)
  | .throw => (0x3A, "THROW", .fixed 0)
  | .try => (0x3B, "TRY", .fixed 2)
  | .tryL => (0x3C, "TRY_L", .fixed 8)
  | .endTry => (0x3D, "ENDTRY", .fixed 1)
  | .endTryL => (0x3E, "ENDTRY_L", .fixed 4)
  | .endFinally => (0x3F, "ENDFINALLY", .fixed 0)
  | .ret => (0x40, "RET", .fixed 0)
  | .syscall => (0x41, "SYSCALL", .fixed 4)
  | .depth => (0x43, "DEPTH", .fixed 0)
  | .drop => (0x45, "DROP", .fixed 0)
  | .nip => (0x46, "NIP", .fixed 0)
  | .xDrop => (0x48, "XDROP", .fixed 0)
  | .clear => (0x49, "CLEAR", .fixed 0)
  | .dup => (0x4A, "DUP", .fixed 0)
  | .over => (0x4B, "OVER", .fixed 0)
  | .pick => (0x4D, "PICK", .fixed 0)
  | .tuck => (0x4E, "TUCK", .fixed 0)
  | .swap => (0x50, "SWAP", .fixed 0)
  | .rot => (0x51, "ROT", .fixed 0)
  | .roll => (0x52, "ROLL", .fixed 0)
  | .reverse3 => (0x53, "REVERSE3", .fixed 0)
  | .reverse4 => (0x54, "REVERSE4", .fixed 0)
  | .reverseN => (0x55, "REVERSEN", .fixed 0)
  | .initSSlot => (0x56, "INITSSLOT", .fixed 1)
  | .initSlot => (0x57, "INITSLOT", .fixed 2)
  | .ldSFld0 => (0x58, "LDSFLD0", .fixed 0)
  | .ldSFld1 => (0x59, "LDSFLD1", .fixed 0)
  | .ldSFld2 => (0x5A, "LDSFLD2", .fixed 0)
  | .ldSFld3 => (0x5B, "LDSFLD3", .fixed 0)
  | .ldSFld4 => (0x5C, "LDSFLD4", .fixed 0)
  | .ldSFld5 => (0x5D, "LDSFLD5", .fixed 0)
  | .ldSFld6 => (0x5E, "LDSFLD6", .fixed 0)
  | .ldSFld => (0x5F, "LDSFLD", .fixed 1)
  | .stSFld0 => (0x60, "STSFLD0", .fixed 0)
  | .stSFld1 => (0x61, "STSFLD1", .fixed 0)
  | .stSFld2 => (0x62, "STSFLD2", .fixed 0)
  | .stSFld3 => (0x63, "STSFLD3", .fixed 0)
  | .stSFld4 => (0x64, "STSFLD4", .fixed 0)
  | .stSFld5 => (0x65, "STSFLD5", .fixed 0)
  | .stSFld6 => (0x66, "STSFLD6", .fixed 0)
  | .stSFld => (0x67, "STSFLD", .fixed 1)
  | .ldLoc0 => (0x68, "LDLOC0", .fixed 0)
  | .ldLoc1 => (0x69, "LDLOC1", .fixed 0)
  | .ldLoc2 => (0x6A, "LDLOC2", .fixed 0)
  | .ldLoc3 => (0x6B, "LDLOC3", .fixed 0)
  | .ldLoc4 => (0x6C, "LDLOC4", .fixed 0)
  | .ldLoc5 => (0x6D, "LDLOC5", .fixed 0)
  | .ldLoc6 => (0x6E, "LDLOC6", .fixed 0)
  | .ldLoc => (0x6F, "LDLOC", .fixed 1)
  | .stLoc0 => (0x70, "STLOC0", .fixed 0)
  | .stLoc1 => (0x71, "STLOC1", .fixed 0)
  | .stLoc2 => (0x72, "STLOC2", .fixed 0)
  | .stLoc3 => (0x73, "STLOC3", .fixed 0)
  | .stLoc4 => (0x74, "STLOC4", .fixed 0)
  | .stLoc5 => (0x75, "STLOC5", .fixed 0)
  | .stLoc6 => (0x76, "STLOC6", .fixed 0)
  | .stLoc => (0x77, "STLOC", .fixed 1)
  | .ldArg0 => (0x78, "LDARG0", .fixed 0)
  | .ldArg1 => (0x79, "LDARG1", .fixed 0)
  | .ldArg2 => (0x7A, "LDARG2", .fixed 0)
  | .ldArg3 => (0x7B, "LDARG3", .fixed 0)
  | .ldArg4 => (0x7C, "LDARG4", .fixed 0)
  | .ldArg5 => (0x7D, "LDARG5", .fixed 0)
  | .ldArg6 => (0x7E, "LDARG6", .fixed 0)
  | .ldArg => (0x7F, "LDARG", .fixed 1)
  | .stArg0 => (0x80, "STARG0", .fixed 0)
  | .stArg1 => (0x81, "STARG1", .fixed 0)
  | .stArg2 => (0x82, "STARG2", .fixed 0)
  | .stArg3 => (0x83, "STARG3", .fixed 0)
  | .stArg4 => (0x84, "STARG4", .fixed 0)
  | .stArg5 => (0x85, "STARG5", .fixed 0)
  | .stArg6 => (0x86, "STARG6", .fixed 0)
  | .stArg => (0x87, "STARG", .fixed 1)
  | .newBuffer => (0x88, "NEWBUFFER", .fixed 0)
  | .memCpy => (0x89, "MEMCPY", .fixed 0)
  | .cat => (0x8B, "CAT", .fixed 0)
  | .substr => (0x8C, "SUBSTR", .fixed 0)
  | .left => (0x8D, "LEFT", .fixed 0)
  | .right => (0x8E, "RIGHT", .fixed 0)
  | .invert => (0x90, "INVERT", .fixed 0)
  | .and => (0x91, "AND", .fixed 0)
  | .or => (0x92, "OR", .fixed 0)
  | .xor => (0x93, "XOR", .fixed 0)
  | .equal => (0x97, "EQUAL", .fixed 0)
  | .notEqual => (0x98, "NOTEQUAL", .fixed 0)
  | .sign => (0x99, "SIGN", .fixed 0)
  | .abs => (0x9A, "ABS", .fixed 0)
  | .negate => (0x9B, "NEGATE", .fixed 0)
  | .inc => (0x9C, "INC", .fixed 0)
  | .dec => (0x9D, "DEC", .fixed 0)
  | .add => (0x9E, "ADD", .fixed 0)
  | .sub => (0x9F, "SUB", .fixed 0)
  | .mul => (0xA0, "MUL", .fixed 0)
  | .div => (0xA1, "DIV", .fixed 0)
  | .mod => (0xA2, "MOD", .fixed 0)
  | .pow => (0xA3, "POW", .fixed 0)
  | .sqrt => (0xA4, "SQRT", .fixed 0)
  | .modMul => (0xA5, "MODMUL", .fixed 0)
  | .modPow => (0xA6, "MODPOW", .fixed 0)
  | .shl => (0xA8, "SHL", .fixed 0)
  | .shr => (0xA9, "SHR", .fixed 0)
  | .not => (0xAA, "NOT", .fixed 0)
  | .boolAnd => (0xAB, "BOOLAND", .fixed 0)
  | .boolOr => (0xAC, "BOOLOR", .fixed 0)
  | .nz => (0xB1, "NZ", .fixed 0)
  | .numEqual => (0xB3, "NUMEQUAL", .fixed 0)
  | .numNotEqual => (0xB4, "NUMNOTEQUAL", .fixed 0)
  | .lt => (0xB5, "LT", .fixed 0)
  | .le => (0xB6, "LE", .fixed 0)
  | .gt => (0xB7, "GT", .fixed 0)
  | .ge => (0xB8, "GE", .fixed 0)
  | .min => (0xB9, "MIN", .fixed 0)
  | .max => (0xBA, "MAX", .fixed 0)
  | .within => (0xBB, "WITHIN", .fixed 0)
  | .packMap => (0xBE, "PACKMAP", .fixed 0)
  | .packStruct => (0xBF, "PACKSTRUCT", .fixed 0)
  | .pack => (0xC0, "PACK", .fixed 0)
  | .unpack => (0xC1, "UNPACK", .fixed 0)
  | .newArray0 => (0xC2, "NEWARRAY0", .fixed 0)
  | .newArray => (0xC3, "NEWARRAY", .fixed 0)
  | .newArrayT => (0xC4, "NEWARRAY_T", .fixed 1)
  | .newStruct0 => (0xC5, "NEWSTRUCT0", .fixed 0)
  | .newStruct => (0xC6, "NEWSTRUCT", .fixed 0)
  | .newMap => (0xC8, "NEWMAP", .fixed 0)
  | .size => (0xCA, "SIZE", .fixed 0)
  | .hasKey => (0xCB, "HASKEY", .fixed 0)
  | .keys => (0xCC, "KEYS", .fixed 0)
  | .values => (0xCD, "VALUES", .fixed 0)
  | .pickItem => (0xCE, "PICKITEM", .fixed 0)
  | .append => (0xCF, "APPEND", .fixed 0)
  | .setItem => (0xD0, "SETITEM", .fixed 0)
  | .reverseItems => (0xD1, "REVERSEITEMS", .fixed 0)
  | .remove => (0xD2, "REMOVE", .fixed 0)
  | .clearItems => (0xD3, "CLEARITEMS", .fixed 0)
  | .popItem => (0xD4, "POPITEM", .fixed 0)
  | .isNull => (0xD8, "ISNULL", .fixed 0)
  | .isType => (0xD9, "ISTYPE", .fixed 1)
  | .convert => (0xDB, "CONVERT", .fixed 1)
  | .abortMsg => (0xE0, "ABORTMSG", .fixed 0)
  | .assertMsg => (0xE1, "ASSERTMSG", .fixed 0)

/-- The number of an `Opcode`, below 256. -/
def code (op : Opcode) : Nat := op.row.1

/-- The byte of an `Opcode`. -/
def byte (op : Opcode) : UInt8 := UInt8.ofNat op.code

/-- The mnemonic of an `Opcode`. -/
def name (op : Opcode) : String := op.row.2.1

/-- The operand of an `Opcode`. -/
def operand (op : Opcode) : OperandLayout := op.row.2.2

/-- The `Opcode` of a byte, if the byte is assigned. -/
def ofByte? (b : UInt8) : Option Opcode :=
  all.find? (·.code == b.toNat)

/-- The `Opcode` of a mnemonic, in any ASCII case. -/
def ofName? (s : List Char) : Option Opcode :=
  all.find? fun op => Text.equalsIgnoringCase op.name.toList s

/-- Whether an `Opcode` has no operand. -/
def isSimple (op : Opcode) : Bool :=
  op.operand == .fixed 0

/-- The bytes of an instruction before any data: the `Opcode` and its operand or length. -/
def headerSize (op : Opcode) : Nat :=
  match op.operand with
  | .fixed n | .counted n => 1 + n

/-- The form of a branch with four-byte offsets; any other `Opcode` is its own. -/
def longForm : Opcode → Opcode
  | .jmp => .jmpL
  | .jmpIf => .jmpIfL
  | .jmpIfNot => .jmpIfNotL
  | .jmpEq => .jmpEqL
  | .jmpNe => .jmpNeL
  | .jmpGt => .jmpGtL
  | .jmpGe => .jmpGeL
  | .jmpLt => .jmpLtL
  | .jmpLe => .jmpLeL
  | .call => .callL
  | .try => .tryL
  | .endTry => .endTryL
  | op => op

/-- The form of a branch with one-byte offsets; any other `Opcode` is its own. -/
def shortForm : Opcode → Opcode
  | .jmpL => .jmp
  | .jmpIfL => .jmpIf
  | .jmpIfNotL => .jmpIfNot
  | .jmpEqL => .jmpEq
  | .jmpNeL => .jmpNe
  | .jmpGtL => .jmpGt
  | .jmpGeL => .jmpGe
  | .jmpLtL => .jmpLt
  | .jmpLeL => .jmpLe
  | .callL => .call
  | .tryL => .try
  | .endTryL => .endTry
  | op => op

/-- Whether the operand is a relative offset, so that the `Opcode` has two forms. -/
def isBranch (op : Opcode) : Bool :=
  op.longForm != op || op.shortForm != op

/-- The `Opcode` that pushes a small integer, from minus one to sixteen, by itself. -/
def pushSmall? (v : Int) : Option Opcode :=
  if v = -1 then some .pushM1
  else if 0 ≤ v ∧ v ≤ 16 then ofByte? (push0.byte + UInt8.ofNat v.toNat)
  else none

/-! ## The table is one to one -/

theorem code_lt (op : Opcode) : op.code < 256 := by
  cases op <;> decide

@[simp] theorem toNat_byte (op : Opcode) : op.byte.toNat = op.code := by
  simp [byte, Nat.mod_eq_of_lt op.code_lt]

/-- A byte stands for at most one opcode. -/
theorem ofByte?_byte (op : Opcode) : ofByte? op.byte = some op := by
  rw [ofByte?, toNat_byte]
  cases op <;> decide

/-- The table lists every opcode. -/
theorem mem_all (op : Opcode) : op ∈ all :=
  List.mem_of_find?_eq_some (ofByte?_byte op)

/-- The byte of the opcode that was found is the byte looked for. -/
theorem byte_of_ofByte? {b : UInt8} {op : Opcode} (h : ofByte? b = some op) : op.byte = b := by
  have hcode : op.code = b.toNat := by simpa using List.find?_some h
  simp [byte, hcode]

end Opcode

end ContractScript
