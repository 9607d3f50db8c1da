import ContractScript.Text.Blank
import ContractScript.Text.Numeral

/-!
# Types of stack items and permissions of calls

- `ItemType`: the type tags that conversions and type tests carry.
- `CallFlags`: what a called contract may do.
-/

namespace ContractScript

/-- The type of a stack item. -/
inductive ItemType where
  | any | pointer | boolean | integer | byteString | buffer | array | struct | map
  | interopInterface
deriving Repr, DecidableEq, Inhabited

namespace ItemType

/-- Every type, in the order of the tags. -/
def all : List ItemType :=
  [.any, .pointer, .boolean, .integer, .byteString, .buffer, .array, .struct, .map,
   .interopInterface]

/-- The tag of a type. -/
def byte : ItemType → UInt8
  | .any => 0x00
  | .pointer => 0x10
  | .boolean => 0x20
  | .integer => 0x21
  | .byteString => 0x28
  | .buffer => 0x30
  | .array => 0x40
  | .struct => 0x41
  | .map => 0x48
  | .interopInterface => 0x60

def name : ItemType → String
  | .any => "Any"
  | .pointer => "Pointer"
  | .boolean => "Boolean"
  | .integer => "Integer"
  | .byteString => "ByteString"
  | .buffer => "Buffer"
  | .array => "Array"
  | .struct => "Struct"
  | .map => "Map"
  | .interopInterface => "InteropInterface"

/-- The type of a tag, if the tag is assigned. -/
def ofByte? (b : UInt8) : Option ItemType :=
  all.find? (·.byte == b)

/-- The type of a name, in any ASCII case. -/
def ofName? (s : List Char) : Option ItemType :=
  all.find? fun t => Text.equalsIgnoringCase t.name.toList s

/-- Read a type: a tag in hexadecimal after `0x`, a tag in decimal, or a name. -/
def parse? : List Char → Option ItemType
  | '0' :: 'x' :: digits => (Text.byte? 16 digits).bind ofByte?
  | '0' :: 'X' :: digits => (Text.byte? 16 digits).bind ofByte?
  | s =>
    match Text.byte? 10 s with
    | some b => ofByte? b
    | none => ofName? s

end ItemType

/-- Permissions of a called contract, as bits. -/
structure CallFlags where
  bits : UInt8
deriving Repr, DecidableEq, Hashable, Inhabited

namespace CallFlags

def readStates : CallFlags := ⟨1⟩
def writeStates : CallFlags := ⟨2⟩
def allowCall : CallFlags := ⟨4⟩
def allowNotify : CallFlags := ⟨8⟩

/-- The permissions of both. -/
def union (a b : CallFlags) : CallFlags := ⟨a.bits ||| b.bits⟩

/-- Whether every permission of the second is one of the first. -/
def contains (a b : CallFlags) : Bool := a.bits &&& b.bits == b.bits

def states : CallFlags := readStates.union writeStates
def readOnly : CallFlags := readStates.union allowCall
def all : CallFlags := (states.union allowCall).union allowNotify

/-- The permissions of bits, none if a bit has no meaning. -/
def ofBits? (bits : UInt8) : Option CallFlags :=
  if all.contains ⟨bits⟩ then some ⟨bits⟩ else none

end CallFlags

end ContractScript
