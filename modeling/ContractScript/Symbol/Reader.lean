import ContractScript.Source.Reader
import ContractScript.Symbol.Basic

/-!
# Operations, routines and symbols from JSON

Operations and definitions are given as arrays of a name and its arguments, routines as objects.

- `Operation.ofJson?`, `Routine.ofJson?`.
- `MethodToken.ofJson?`.
- `Definition.ofJson?`.
-/

namespace ContractScript

/-! ## Operations -/

/-- A `Slot`: its name and its type. -/
def Slot.ofPair? : Json → Option Slot
  | .array [.string name, .string ty] => return ⟨name, ← ParamType.ofName? ty⟩
  | _ => none

def SlotKind.ofJson? (v : Json) : Option SlotKind := do
  let s ← v.asString?
  all.find? (·.name == s)

def JumpKind.ofJson? (v : Json) : Option JumpKind := do
  let s ← v.asString?
  all.find? (·.name == s)

/-- An `Opcode` by its mnemonic. -/
def Opcode.ofJson? (v : Json) : Option Opcode := do
  ofName? (← v.asString?).toList

def ItemType.ofJson? (v : Json) : Option ItemType := do
  let s ← v.asString?
  all.find? (·.name == s)

/-- A `Label`, or null for none. -/
def optionalLabel? : Json → Option (Option Label)
  | .null => some none
  | v => some <$> v.asNat?

/-- An `Operation`: its name and its arguments. -/
def Operation.ofJson? : Json → Option Operation
  | .array (.string name :: args) =>
    match name, args with
    | "simple", [op] => .simple <$> Opcode.ofJson? op
    | "int", [value] => .pushInt <$> integerOfJson? value
    | "data", [bytes] => .pushData <$> bytesOfJson? bytes
    | "fill", fill => .pushData <$> fillOfJson? (.array fill)
    | "bool", [value] => .pushBool <$> value.asBool?
    | "null", [] => some .pushNull
    | "convert", [ty] => .convert <$> ItemType.ofJson? ty
    | "istype", [ty] => .isType <$> ItemType.ofJson? ty
    | "load", [kind, index] => return .load (← SlotKind.ofJson? kind) (← index.asNat?)
    | "store", [kind, index] => return .store (← SlotKind.ofJson? kind) (← index.asNat?)
    | "jump", [kind, target] => return .jump (← JumpKind.ofJson? kind) (← target.asNat?)
    | "try", [handler, finalizer] =>
      return .try (← optionalLabel? handler) (← optionalLabel? finalizer)
    | "endtry", [target] => .endTry <$> target.asNat?
    | "call", [id] => .call <$> id.asNat?
    | "callt", [index] => .callToken <$> index.asNat?
    | "syscall", [.string serviceName] => .service <$> Service.ofName? serviceName
    | "initslot", [locals, params] => return .initSlots (← locals.asNat?) (← params.asNat?)
    | "initsslot", [count] => .initStatics <$> count.asNat?
    | "label", [l] => .label <$> l.asNat?
    | "anchor", [] => some .anchor
    | "ret", [] => some .return
    | _, _ => none
  | _ => none

/-- An operation and, if it is given, its place. -/
def Op.ofJson? : Json → Option Op
  | .array [operation] | .array [operation, .null] => return ⟨← Operation.ofJson? operation, none⟩
  | .array [operation, span] =>
    return ⟨← Operation.ofJson? operation, some (← Span.ofJson? span)⟩
  | _ => none

def ParamType.ofNameJson? (v : Json) : Option ParamType := do
  ofName? (← v.asString?)

/-- A `Routine`; its number is its position unless it is given. -/
def Routine.ofJson? (position : Nat) (v : Json) : Option Routine := do
  return {
    id := ← v.readD? Json.asNat? "id" position
    name := ← v.read? Json.asString? "name"
    ops := ← v.readD? (Json.asList? Op.ofJson?) "ops" []
    params := ← v.readD? (Json.asList? Slot.ofPair?) "params" []
    locals := ← v.readD? (Json.asList? Slot.ofPair?) "locals" []
    returnType := ← v.readD? ParamType.ofNameJson? "ret" .void
    isExport := ← v.readD? Json.asBool? "export" true
    isSafe := ← v.readD? Json.asBool? "safe" false }

/-! ## Definitions -/

def Hash160.ofJson? (v : Json) : Option Hash160 := do
  match parse (← v.asString?) with
  | .ok h => some h
  | .error _ => none

def CallFlags.ofJson? (v : Json) : Option CallFlags := do
  ofBits? (UInt8.ofNat (← v.asNat?))

def MethodToken.ofJson? : Json → Option MethodToken
  | .array [hash, method, paramCount, hasReturn, flags] =>
    return ⟨← Hash160.ofJson? hash, ← method.asString?, ← paramCount.asNat?, ← hasReturn.asBool?,
      ← CallFlags.ofJson? flags⟩
  | _ => none

def Constant.ofJson? : Json → Option Constant
  | .array [.string "int", value] => .int <$> integerOfJson? value
  | .array [.string "bool", value] => .bool <$> value.asBool?
  | .array [.string "bytes", data] => .bytes <$> bytesOfJson? data
  | .array [.string "null"] => some .null
  | _ => none

/-- A `Definition` up to a depth. -/
def readDefinition? : Nat → Json → Option Definition
  | 0, _ => none
  | fuel + 1, v =>
    match v with
    | .array (.string name :: args) =>
      match name, args with
      | "function", [id, count, returns] =>
        return .function (← id.asNat?) (← count.asNat?) (← returns.asBool?)
      | "variable", [kind, index, isMutable] =>
        return .slot (← SlotKind.ofJson? kind) (← index.asNat?) (← isMutable.asBool?)
      | "constant", [value] => .constant <$> Constant.ofJson? value
      | "builtin", [ops, count, returns, isProperty] =>
        return .host ⟨← ops.asList? Operation.ofJson?, ← count.asNat?, ← returns.asBool?,
          ← isProperty.asBool?⟩
      | "event", [.string event, count] => .event event <$> count.asNat?
      | "token", [hash, method, count, returns, flags, isProperty] =>
        return .method ⟨← Hash160.ofJson? hash, ← method.asString?, ← count.asNat?,
          ← returns.asBool?, ← CallFlags.ofJson? flags, ← isProperty.asBool?⟩
      | "object", [.array members] => .ofMembers <$> members.mapM fun m =>
        match m with
        | .array [.string name, d] => return (name, ← readDefinition? fuel d)
        | _ => none
      | _, _ => none
    | _ => none

/-- A `Definition`: its name and its arguments. -/
def Definition.ofJson? (v : Json) : Option Definition :=
  readDefinition? (v.depth + 1) v

/-- A name and what it stands for. -/
def namedDefinition? : Json → Option (String × Definition)
  | .array [.string name, d] => return (name, ← Definition.ofJson? d)
  | _ => none

end ContractScript
