import ContractScript.Source.Type

/-!
# Types as callers see them

The interface of a contract describes parameters and results by a coarser set of types. A `Slot`
is a named value of such a type: a parameter, a local or a static variable. An `Event` is a
notification with such parameters.
-/

namespace ContractScript

/-- The type of a parameter or result in the interface of a contract. -/
inductive ParamType where
  | void | boolean | integer | string | byteArray | hash160 | hash256 | publicKey | signature
  | array | map | interopInterface | any
deriving Repr, DecidableEq, Inhabited

namespace ParamType

/-- Every type. -/
def all : List ParamType :=
  [.void, .boolean, .integer, .string, .byteArray, .hash160, .hash256, .publicKey, .signature,
   .array, .map, .interopInterface, .any]

def name : ParamType → String
  | .void => "Void"
  | .boolean => "Boolean"
  | .integer => "Integer"
  | .string => "String"
  | .byteArray => "ByteArray"
  | .hash160 => "Hash160"
  | .hash256 => "Hash256"
  | .publicKey => "PublicKey"
  | .signature => "Signature"
  | .array => "Array"
  | .map => "Map"
  | .interopInterface => "InteropInterface"
  | .any => "Any"

/-- The type of a name. -/
def ofName? (s : String) : Option ParamType :=
  all.find? (·.name == s)

/-- The type of a value of the program: structures travel as arrays, and what has no counterpart
is `any`. -/
def ofTy : Ty → ParamType
  | .void => .void
  | .boolean => .boolean
  | .integer => .integer
  | .string => .string
  | .byteString => .byteArray
  | .hash160 => .hash160
  | .hash256 => .hash256
  | .publicKey => .publicKey
  | .signature => .signature
  | .array _ | .struct _ => .array
  | .map _ _ => .map
  | .interop _ => .interopInterface
  | .null | .any | .named _ => .any

end ParamType

/-- A named value. -/
structure Slot where
  name : String
  ty : ParamType
deriving Repr, DecidableEq, Inhabited

/-- An event that a program declares. -/
structure Event where
  name : String
  params : List Slot
deriving Repr, DecidableEq, Inhabited

end ContractScript
