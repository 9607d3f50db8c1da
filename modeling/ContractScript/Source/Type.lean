/-!
# Types and operators of contract programs

Programs arrive checked: every expression carries its type. The compiler reads types only to
choose between operators on integers and on byte strings, and to describe slots to callers.
-/

namespace ContractScript

/-- The type of a value. -/
inductive Ty where
  /-- No value; only functions return it. -/
  | void
  | boolean
  /-- Integers of any size. -/
  | integer
  /-- Text. -/
  | string
  /-- Raw bytes. -/
  | byteString
  | hash160
  | hash256
  | publicKey
  | signature
  /-- The type of the null literal. -/
  | null
  | array (elem : Ty)
  | map (key value : Ty)
  | struct (name : String)
  /-- An object of the host: a storage context, an iterator. -/
  | interop (name : String)
  /-- Any other named type. -/
  | named (name : String)
  /-- Unknown or dynamic. -/
  | any
deriving Repr, DecidableEq, Inhabited

namespace Ty

def isVoid : Ty → Bool
  | .void => true
  | _ => false

def isInteger : Ty → Bool
  | .integer => true
  | _ => false

def isBoolean : Ty → Bool
  | .boolean => true
  | _ => false

/-- The types whose values are byte strings on the stack. -/
def isByteLike : Ty → Bool
  | .string | .byteString | .hash160 | .hash256 | .publicKey | .signature => true
  | _ => false

/-- The types whose values have a `length`. -/
def hasLength : Ty → Bool
  | .array _ | .map _ _ => true
  | t => t.isByteLike

/-- The spelling of a type in messages. -/
def text : Ty → String
  | .void => "void"
  | .boolean => "boolean"
  | .integer => "integer"
  | .string => "string"
  | .byteString => "ByteString"
  | .hash160 => "Hash160"
  | .hash256 => "Hash256"
  | .publicKey => "PublicKey"
  | .signature => "Signature"
  | .null => "null"
  | .array elem => elem.text ++ "[]"
  | .map key value => "Map<" ++ key.text ++ ", " ++ value.text ++ ">"
  | .struct name | .interop name | .named name => name
  | .any => "any"

end Ty

/-- Binary operators. -/
inductive BinaryOp where
  | logicalOr | logicalAnd | nullish
  | bitOr | bitXor | bitAnd
  | equal | notEqual
  | less | lessEqual | greater | greaterEqual
  | shiftLeft | shiftRight
  | add | sub | mul | div | mod | pow
deriving Repr, DecidableEq, Inhabited

namespace BinaryOp

/-- Every operator. -/
def all : List BinaryOp :=
  [.logicalOr, .logicalAnd, .nullish, .bitOr, .bitXor, .bitAnd, .equal, .notEqual, .less,
   .lessEqual, .greater, .greaterEqual, .shiftLeft, .shiftRight, .add, .sub, .mul, .div, .mod,
   .pow]

/-- The operators that may leave their right operand unevaluated. -/
def isShortCircuit : BinaryOp → Bool
  | .logicalOr | .logicalAnd | .nullish => true
  | _ => false

/-- The spelling of an operator. -/
def text : BinaryOp → String
  | .logicalOr => "||"
  | .logicalAnd => "&&"
  | .nullish => "??"
  | .bitOr => "|"
  | .bitXor => "^"
  | .bitAnd => "&"
  | .equal => "=="
  | .notEqual => "!="
  | .less => "<"
  | .lessEqual => "<="
  | .greater => ">"
  | .greaterEqual => ">="
  | .shiftLeft => "<<"
  | .shiftRight => ">>"
  | .add => "+"
  | .sub => "-"
  | .mul => "*"
  | .div => "/"
  | .mod => "%"
  | .pow => "**"

/-- The operator with a given spelling. -/
def ofText? (s : String) : Option BinaryOp :=
  all.find? (·.text == s)

end BinaryOp

/-- Operators written before their operand. -/
inductive UnaryOp where
  | not | neg | plus | bitNot
deriving Repr, DecidableEq, Inhabited

namespace UnaryOp

/-- Every operator. -/
def all : List UnaryOp := [.not, .neg, .plus, .bitNot]

/-- The spelling of an operator. -/
def text : UnaryOp → String
  | .not => "!"
  | .neg => "-"
  | .plus => "+"
  | .bitNot => "~"

/-- The operator with a given spelling. -/
def ofText? (s : String) : Option UnaryOp :=
  all.find? (·.text == s)

end UnaryOp

end ContractScript
