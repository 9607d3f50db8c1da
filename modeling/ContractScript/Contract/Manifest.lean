import ContractScript.Contract.ParamType
import ContractScript.Json.Printer
import ContractScript.Json.Reader

/-!
# The manifest of a contract

The manifest tells callers which methods a contract has, where they start in its script and which
events it raises. It travels as JSON with its fields in a fixed order.

- `Manifest`, `MethodEntry`, `Permission`.
- `Manifest.toJson`, `Manifest.text`: the written form.
- `Manifest.parse?`: reading it back. Free-form parts are brought to canonical form.
-/

namespace ContractScript

/-- A method that callers can name. -/
structure MethodEntry where
  name : String
  params : List Slot
  returnType : ParamType
  /-- Where the method starts in the script. -/
  offset : Nat
  isSafe : Bool
deriving Repr, DecidableEq, Inhabited

/-- Contracts and methods that a contract may call. -/
structure Permission where
  contract : String
  methods : String
deriving Repr, DecidableEq, Inhabited

/-- Any method of any contract. -/
def Permission.any : Permission := ⟨"*", "*"⟩

/-- What a contract tells about itself. -/
structure Manifest where
  name : String
  groups : List Json := []
  features : List (String × Json) := []
  standards : List String := []
  methods : List MethodEntry
  events : List Event
  permissions : List Permission := [.any]
  trusts : List String := []
  extra : Json := .null
deriving Inhabited

/-! ## Writing -/

def ParamType.toJson (t : ParamType) : Json :=
  .string t.name

def Slot.toJson (s : Slot) : Json :=
  .object [("name", .string s.name), ("type", s.ty.toJson)]

def MethodEntry.toJson (m : MethodEntry) : Json :=
  .object [
    ("name", .string m.name),
    ("parameters", .list Slot.toJson m.params),
    ("returntype", m.returnType.toJson),
    ("offset", .nat m.offset),
    ("safe", .bool m.isSafe)]

def Event.toJson (e : Event) : Json :=
  .object [("name", .string e.name), ("parameters", .list Slot.toJson e.params)]

def Permission.toJson (p : Permission) : Json :=
  .object [("contract", .string p.contract), ("methods", .string p.methods)]

namespace Manifest

/-- The first method of a name. -/
def method? (m : Manifest) (name : String) : Option MethodEntry :=
  m.methods.find? (·.name == name)

def toJson (m : Manifest) : Json :=
  .object [
    ("name", .string m.name),
    ("groups", .array m.groups),
    ("features", .object m.features),
    ("supportedstandards", .list .string m.standards),
    ("abi", .object [
      ("methods", .list MethodEntry.toJson m.methods),
      ("events", .list Event.toJson m.events)]),
    ("permissions", .list Permission.toJson m.permissions),
    ("trusts", .list .string m.trusts),
    ("extra", m.extra)]

/-- The text of a `Manifest`. -/
def text (m : Manifest) : String :=
  m.toJson.pretty

end Manifest

/-! ## Reading -/

/-- A type is given by its name, or by an object whose only field has that name. -/
def ParamType.ofJson? : Json → Option ParamType
  | .string name => ofName? name
  | .object [(name, .null)] => ofName? name
  | _ => none

def Slot.ofJson? (v : Json) : Option Slot := do
  match ← v.record? ["name", "type"] [] with
  | [name, ty] => return ⟨← name.asString?, ← ParamType.ofJson? ty⟩
  | _ => none

/-- Addresses have 32 bits. -/
def offsetOfJson? (v : Json) : Option Nat :=
  v.asNat?.filter (· < 4294967296)

def MethodEntry.ofJson? (v : Json) : Option MethodEntry := do
  match ← v.record? ["name", "parameters", "returntype", "offset", "safe"] [] with
  | [name, params, returnType, offset, safe] =>
    return {
      name := ← name.asString?
      params := ← params.asList? Slot.ofJson?
      returnType := ← ParamType.ofJson? returnType
      offset := ← offsetOfJson? offset
      isSafe := ← safe.asBool? }
  | _ => none

def Event.ofJson? (v : Json) : Option Event := do
  match ← v.record? ["name", "parameters"] [] with
  | [name, params] => return ⟨← name.asString?, ← params.asList? Slot.ofJson?⟩
  | _ => none

def Permission.ofJson? (v : Json) : Option Permission := do
  match ← v.record? ["contract", "methods"] [] with
  | [contract, methods] => return ⟨← contract.asString?, ← methods.asString?⟩
  | _ => none

/-- How deep a manifest may be nested. -/
def Manifest.maxDepth : Nat := 127

/-- A free-form part of a manifest in canonical form, unless it is nested too deeply or some part of
it stands for nothing. -/
def freeForm? (v : Json) : Option Json :=
  if v.depth < Manifest.maxDepth ∧ v.isReadable then some v.canonical else none

namespace Manifest

def ofJson? (v : Json) : Option Manifest := do
  let fields ← v.record?
    ["name", "groups", "features", "supportedstandards", "abi", "permissions", "trusts"] ["extra"]
  match fields with
  | [name, groups, features, standards, abi, permissions, trusts, extra] =>
    match ← abi.record? ["methods", "events"] [] with
    | [methods, events] =>
      return {
        name := ← name.asString?
        groups := ← (← freeForm? groups).asArray?
        features := ← (← freeForm? features).asObject?
        standards := ← standards.asList? Json.asString?
        methods := ← methods.asList? MethodEntry.ofJson?
        events := ← events.asList? Event.ofJson?
        permissions := ← permissions.asList? Permission.ofJson?
        trusts := ← trusts.asList? Json.asString?
        extra := ← freeForm? extra }
    | _ => none
  | _ => none

/-- The `Manifest` that a text writes. -/
def parse? (text : String) : Option Manifest :=
  (Json.parse? text).bind ofJson?

end Manifest

end ContractScript
