import ContractScript.Source.Program
import ContractScript.Symbol.Basic

/-!
# Doc tags that bind declarations to the host

A declaration without a body says by a tag what stands for it:

```text
@syscall System.Runtime.CheckWitness
@nativeContract NeoToken
@operation SWAP; PUSHINT 2; PACK; CONVERT Struct
@methodToken 0xef4073a0f2b305a38ec4050e4d3d28bc40ea63f5 balanceOf
@event Transfer
@safe
```

- `Marker`: what such a tag says.
- `parseOperations`: the list of operations of `@operation`.
- `parseMarker`, `parseMarkers`: tags that only inform are dropped.
-/

namespace ContractScript

/-- What a binding tag says. -/
inductive Marker where
  | service (s : Service)
  | nativeContract (hash : Hash160)
  | operations (ops : List Operation)
  /-- A method of a contract; without a name, that of the declaration. -/
  | methodToken (hash : Hash160) (method : Option String)
  /-- An event; without a name, that of the declaration. -/
  | event (name : Option String)
  | safe
deriving DecidableEq

namespace Marker

/-- The name of the tag of a `Marker`. -/
def tagName : Marker → String
  | .service _ => "syscall"
  | .nativeContract _ => "nativeContract"
  | .operations _ => "operation"
  | .methodToken _ _ => "methodToken"
  | .event _ => "event"
  | .safe => "safe"

/-- Whether a `Marker` says nothing about what stands for the declaration. -/
def isSafe : Marker → Bool
  | .safe => true
  | _ => false

end Marker

/-- The tags that only inform the reader. -/
def informationalTags : List String :=
  ["param", "returns", "remarks", "example", "see", "deprecated"]

/-- Why the payload of a known tag cannot be read. -/
inductive PayloadProblem where
  | missingService
  | missingContract
  | badHash (word : List Char) (cause : Hash160.ParseError)
  /-- More words than a hash and a method. -/
  | extraWords
  | emptyList
  | tooManyOperands (part : List Char)
  | needsOperand (word : List Char)
  | unexpectedOperand (part : List Char)
  | unknownItemType (word : List Char)
  | badInteger (word : List Char)
  | unknownOpcode (word : List Char)
  /-- An opcode with an operand of its own stands where none is given. -/
  | takesOperand (op : Opcode)

def PayloadProblem.message : PayloadProblem → String
  | .missingService => "missing service name"
  | .missingContract => "missing contract name"
  | .badHash word cause =>
    "bad contract hash " ++ quoted (String.ofList word) ++ ": " ++ cause.message
  | .extraWords => "expected a hash and an optional method"
  | .emptyList => "empty operation list"
  | .tooManyOperands part => "too many operands in " ++ quoted (String.ofList part)
  | .needsOperand word => quoted (String.ofList word) ++ " needs an operand"
  | .unexpectedOperand part => "unexpected operand in " ++ quoted (String.ofList part)
  | .unknownItemType word => "unknown stack item type " ++ quoted (String.ofList word)
  | .badInteger word => "bad integer " ++ quoted (String.ofList word)
  | .unknownOpcode word => "unknown opcode " ++ quoted (String.ofList word)
  | .takesOperand op => quoted op.name ++ " takes an operand"

/-! ## The operations of a tag -/

/-- The item type of an operand. -/
def parseItemType (word : List Char) : Except PayloadProblem ItemType :=
  match ItemType.parse? word with
  | some ty => .ok ty
  | none => .error (.unknownItemType word)

/-- The integer of an operand. -/
def parseInteger (word : List Char) : Except PayloadProblem Int :=
  match Text.integer? word with
  | some value => .ok value
  | none => .error (.badInteger word)

/-- The `Opcode` of a mnemonic that stands alone. -/
def parseSimple (word : List Char) : Except PayloadProblem Opcode :=
  match Opcode.ofName? word with
  | none => .error (.unknownOpcode word)
  | some op => if op.isSimple then .ok op else .error (.takesOperand op)

/-- An `Operation`: a mnemonic, in any ASCII case, and its operand if it takes one. -/
def parseOperation (part : List Char) : Except PayloadProblem Operation :=
  let is (word : List Char) (mnemonic : String) : Bool :=
    Text.equalsIgnoringCase word mnemonic.toList
  match Text.words part with
  | [] => .error (.unknownOpcode [])
  | [word] =>
    if is word "CONVERT" || is word "ISTYPE" || is word "PUSHINT" then .error (.needsOperand word)
    else Operation.simple <$> parseSimple word
  | [word, operand] =>
    if is word "CONVERT" then Operation.convert <$> parseItemType operand
    else if is word "ISTYPE" then Operation.isType <$> parseItemType operand
    else if is word "PUSHINT" then Operation.pushInt <$> parseInteger operand
    else .error (.unexpectedOperand part)
  | _ => .error (.tooManyOperands part)

/-- A non-empty list of operations with `;` between them; empty parts are skipped. -/
def parseOperations (payload : List Char) : Except PayloadProblem (List Operation) := do
  let parts := ((Text.split (· == ';') payload).map Text.trim).filter (!·.isEmpty)
  let ops ← parts.mapM parseOperation
  if ops.isEmpty then .error .emptyList else .ok ops

/-! ## Tags -/

/-- The contract `Hash160` that a payload gives. -/
def parseHash (word : List Char) : Except PayloadProblem Hash160 :=
  match Hash160.parse (String.ofList word) with
  | .ok h => .ok h
  | .error e => .error (.badHash word e)

/-- The hash and, if it is named, the method of a contract. -/
def parseMethodToken (payload : List Char) : Except PayloadProblem Marker := do
  let words := Text.words payload
  let hash ← parseHash (words.head?.getD [])
  if 2 < words.length then .error .extraWords
  else return .methodToken hash ((words.drop 1).head?.map String.ofList)

/-- The name of an event, without the quotes that may stand around it. -/
def parseEvent (payload : List Char) : Marker :=
  let name := Text.trimBy (· == '\x22') payload
  .event (if name.isEmpty then none else some (String.ofList name))

/-- What a tag says, nothing for a tag that only informs. -/
def parseMarker (tag : DocTag) : Except BindingError (Option Marker) :=
  let payload := Text.trim tag.payload.toList
  let text := String.ofList payload
  let malformed (problem : PayloadProblem) : BindingError :=
    .malformed tag.name problem.message tag.span
  let read (outcome : Except PayloadProblem Marker) : Except BindingError (Option Marker) :=
    match outcome with
    | .ok m => .ok (some m)
    | .error problem => .error (malformed problem)
  if informationalTags.contains tag.name then .ok none
  else
    match tag.name with
    | "syscall" =>
      if payload.isEmpty then .error (malformed .missingService)
      else
        match Service.ofName? text with
        | some s => .ok (some (.service s))
        | none => .error (.unsupported text "unknown syscall" tag.span)
    | "nativeContract" =>
      if ['0', 'x'].isPrefixOf payload then read (Marker.nativeContract <$> parseHash payload)
      else if payload.isEmpty then .error (malformed .missingContract)
      else
        match NativeContract.ofName? text with
        | some c => .ok (some (.nativeContract c.hash))
        | none => .error (.unsupported text "unknown native contract" tag.span)
    | "operation" => read (Marker.operations <$> parseOperations payload)
    | "methodToken" => read (parseMethodToken payload)
    | "event" => .ok (some (parseEvent payload))
    | "safe" => .ok (some .safe)
    | other => .error (.unsupported ("@" ++ other) "unknown annotation" tag.span)

/-- What the tags of a declaration say, up to the first fault. -/
def parseMarkers (tags : List DocTag) : Except BindingError (List Marker) := do
  let markers ← tags.mapM parseMarker
  return markers.filterMap id

end ContractScript
