import ContractScript.Double

/-!
# JSON values

Contract metadata travels as JSON. Objects keep their fields in the order of writing, and keep
fields that occur twice, so that a reader can refuse them. A free-form value has a canonical form,
`Json.canonical`, in which the fields of every object stand in the order of their names.

A text can be written correctly and still stand for nothing: a string with half of a surrogate pair,
a number beyond the range. Such a value is `Json.unreadable`. It does no harm in a field that no one
reads, and `Json.isReadable` tells whether a value is free of it.

Readers of records take the fields by name, or by position from an array: `Json.record?`.
-/

namespace ContractScript

/-- A JSON value. -/
inductive Json where
  | null
  | bool (value : Bool)
  | int (value : Int)
  /-- A number with a fraction or an exponent, or an integer of more than 64 bits. -/
  | double (isNegative : Bool) (magnitude : Double)
  | string (text : String)
  | array (items : List Json)
  | object (fields : List (String × Json))
  /-- A string, a number or an object that is well written and stands for nothing. -/
  | unreadable
deriving Inhabited, Repr

namespace Json

/-- A natural number. -/
def nat (n : Nat) : Json :=
  .int n

/-- A `Json` that may be missing. -/
def ofOption {α : Type} (f : α → Json) : Option α → Json
  | none => .null
  | some a => f a

/-- An array of values of one kind. -/
def list {α : Type} (f : α → Json) (items : List α) : Json :=
  .array (items.map f)

/-- The last field of a name. -/
def field? (name : String) : Json → Option Json
  | .object fields => (fields.findRev? (·.1 == name)).map (·.2)
  | _ => none

/-- The last field of a name, unless it is null. -/
def present? (name : String) (v : Json) : Option Json :=
  match v.field? name with
  | some .null => none
  | found => found

/-! ## Reading values of a kind -/

def asBool? : Json → Option Bool
  | .bool b => some b
  | _ => none

def asString? : Json → Option String
  | .string s => some s
  | _ => none

def asArray? : Json → Option (List Json)
  | .array items => some items
  | _ => none

def asObject? : Json → Option (List (String × Json))
  | .object fields => some fields
  | _ => none

def asNat? : Json → Option Nat
  | .int (.ofNat n) => some n
  | _ => none

/-- An array whose items are all of one kind. -/
def asList? {α : Type} (f : Json → Option α) (v : Json) : Option (List α) :=
  v.asArray?.bind fun items => items.mapM f

/-- A field that must be of its kind. -/
def read? {α : Type} (f : Json → Option α) (name : String) (v : Json) : Option α :=
  (v.present? name).bind f

/-- A field that must be of its kind; a missing one has a default. -/
def readD? {α : Type} (f : Json → Option α) (name : String) (default : α) (v : Json) : Option α :=
  match v.present? name with
  | none => some default
  | some field => f field

/-- A field that must be of its kind unless it is missing. -/
def readOption? {α : Type} (f : Json → Option α) (name : String) (v : Json) : Option (Option α) :=
  match v.present? name with
  | none => some none
  | some field => (f field).map some

/-- The value of a field that occurs at most once. -/
def onlyField? (fields : List (String × Json)) (name : String) : Option (Option Json) :=
  match fields.filter (·.1 == name) with
  | [] => some none
  | [(_, v)] => some (some v)
  | _ => none

/-- The fields of a record. An object must hold each required field once; a missing optional field
is null, and fields of other names do not matter. An array must hold all fields in order. -/
def record? (required optional : List String) : Json → Option (List Json)
  | .array items =>
    if items.length = required.length + optional.length then some items else none
  | .object fields => do
    let needed ← required.mapM fun name => (onlyField? fields name).bind id
    let extra ← optional.mapM fun name => (onlyField? fields name).map (·.getD .null)
    return needed ++ extra
  | _ => none

/-! ## Readable values, depth and canonical form -/

mutual

/-- Whether every part of a `Json` stands for something. -/
def isReadable (v : Json) : Bool :=
  match v with
  | .array items => areReadable items
  | .object fields => fieldsAreReadable fields
  | .unreadable => false
  | _ => true
termination_by structural v

def areReadable (items : List Json) : Bool :=
  match items with
  | [] => true
  | item :: rest => isReadable item && areReadable rest
termination_by structural items

def fieldsAreReadable (fields : List (String × Json)) : Bool :=
  match fields with
  | [] => true
  | (_, value) :: rest => isReadable value && fieldsAreReadable rest
termination_by structural fields

end

mutual

/-- How deep arrays and objects are nested. -/
def depth (v : Json) : Nat :=
  match v with
  | .array items => 1 + depthOfItems items
  | .object fields => 1 + depthOfFields fields
  | _ => 0
termination_by structural v

def depthOfItems (items : List Json) : Nat :=
  match items with
  | [] => 0
  | item :: rest => max (depth item) (depthOfItems rest)
termination_by structural items

def depthOfFields (fields : List (String × Json)) : Nat :=
  match fields with
  | [] => 0
  | (_, value) :: rest => max (depth value) (depthOfFields rest)
termination_by structural fields

end

/-- Put a field in its place among fields in the order of their names, instead of one of the
same name. -/
def insertField (name : String) (value : Json) : List (String × Json) → List (String × Json)
  | [] => [(name, value)]
  | (other, old) :: rest =>
    if name < other then (name, value) :: (other, old) :: rest
    else if name = other then (name, value) :: rest
    else (other, old) :: insertField name value rest

mutual

/-- The same `Json` with the fields of every object in the order of their names. Of fields of one
name the last counts. -/
def canonical (v : Json) : Json :=
  match v with
  | .array items => .array (canonicalItems items)
  | .object fields => .object (canonicalFields fields [])
  | v => v
termination_by structural v

def canonicalItems (items : List Json) : List Json :=
  match items with
  | [] => []
  | item :: rest => canonical item :: canonicalItems rest
termination_by structural items

/-- Put the canonical fields among those that are in order already. -/
def canonicalFields (fields : List (String × Json)) (done : List (String × Json)) :
    List (String × Json) :=
  match fields with
  | [] => done
  | (name, value) :: rest => canonicalFields rest (insertField name (canonical value) done)
termination_by structural fields

end

end Json

end ContractScript
