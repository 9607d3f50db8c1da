import ContractScript.Diagnostic
import ContractScript.Machine.MethodToken
import ContractScript.Routine.Operation
import ContractScript.Source.Term

/-!
# Names and what they stand for

- `Definition`: a function, a variable, a constant, or something that the host provides.
- `Symbol`: a definition under a name, with the scope that owns it.
- `Registry`: the names that the host provides to a program, its bound interfaces and its events.

Tables of symbols are lists in the order of definition.
-/

namespace ContractScript

/-- The identity of a scope, 32 bits wide. -/
abbrev ScopeId := UInt32

/-- The owner of what the host provides. -/
def builtinScope : ScopeId := 0

/-- The value of a constant. -/
inductive Constant where
  | int (value : Int)
  | bool (value : Bool)
  | bytes (data : List UInt8)
  | null
deriving Repr, DecidableEq, Inhabited

/-- The `Operation` that pushes a constant. -/
def Constant.push : Constant → Operation
  | .int value => .pushInt value
  | .bool value => .pushBool value
  | .bytes data => .pushData data
  | .null => .pushNull

/-- The `Constant` that a literal writes. -/
def Constant.ofLiteral : Literal → Constant
  | .int value => .int value
  | .bool value => .bool value
  | .string text => .bytes (Text.utf8 text)
  | .bytes data => .bytes data
  | .null => .null

/-- Operations that stand for a call of the host. -/
structure HostCall where
  ops : List Operation
  paramCount : Nat
  returns : Bool
  /-- Read like a property, not called. -/
  isProperty : Bool
deriving Repr, DecidableEq, Inhabited

/-- A method of another contract. -/
structure MethodRef where
  hash : Hash160
  method : String
  paramCount : Nat
  returns : Bool
  flags : CallFlags
  /-- Read like a property, not called. -/
  isProperty : Bool
deriving DecidableEq, Inhabited

/-- The token of a method. -/
def MethodRef.token (m : MethodRef) : MethodToken :=
  ⟨m.hash, m.method, m.paramCount, m.returns, m.flags⟩

/-- Something under a name, with the scope that owns it and the place that defines it. -/
structure Named (δ : Type) where
  name : String
  scope : ScopeId
  span : Span
  definition : δ

/-- What a name stands for. -/
inductive Definition where
  | function (id : FunctionId) (paramCount : Nat) (returns : Bool)
  /-- A variable in a slot. -/
  | slot (kind : SlotKind) (index : Nat) (isMutable : Bool)
  | constant (value : Constant)
  | host (call : HostCall)
  | event (name : String) (paramCount : Nat)
  | method (ref : MethodRef)
  /-- An object of the host, with its members. -/
  | object (members : List (Named Definition))

instance : Inhabited Definition := ⟨.constant .null⟩

/-- A definition under a name. -/
abbrev Symbol := Named Definition

instance : Inhabited Symbol := ⟨⟨"", 0, default, default⟩⟩

/-- The kind of a `Definition`, as messages name it. -/
def Definition.kind : Definition → String
  | .function _ _ _ => "function"
  | .slot _ _ _ => "variable"
  | .constant _ => "constant"
  | .host _ => "builtin"
  | .event _ _ => "event"
  | .method _ => "method token"
  | .object _ => "object"

/-- The number of arguments of what can be called. -/
def Definition.paramCount? : Definition → Option Nat
  | .function _ n _ | .event _ n => some n
  | .host call => some call.paramCount
  | .method ref => some ref.paramCount
  | .slot _ _ _ | .constant _ | .object _ => none

/-! ## Tables of symbols -/

/-- The `Symbol` of a name. -/
def findSymbol (symbols : List Symbol) (name : String) : Option Symbol :=
  symbols.find? (·.name == name)

/-- Put a `Symbol` in the place of the one with its name, or at the end. -/
def putSymbol (symbols : List Symbol) (symbol : Symbol) : List Symbol :=
  if symbols.any (·.name == symbol.name) then
    symbols.map fun s => if s.name == symbol.name then symbol else s
  else symbols ++ [symbol]

/-- An object whose members are given by name; of two of one name the later counts. -/
def Definition.ofMembers (members : List (String × Definition)) : Definition :=
  .object (members.foldl
    (fun symbols (name, d) => putSymbol symbols ⟨name, builtinScope, {}, d⟩) [])

/-! ## What the host provides -/

/-- The names that the host provides, the members of bound interfaces, and the `Event`s. -/
structure Registry where
  symbols : List Symbol := []
  /-- Bound interfaces, the last bound first. -/
  interfaces : List (String × List Symbol) := []
  events : List Event := []
deriving Inhabited

namespace Registry

def lookup (r : Registry) (name : String) : Option Symbol :=
  findSymbol r.symbols name

/-- Add a `Symbol` under a new name. -/
def define (r : Registry) (symbol : Symbol) : Except SymbolError Registry :=
  match r.lookup symbol.name with
  | some _ => .error (.duplicate symbol.name symbol.span)
  | none => .ok { r with symbols := r.symbols ++ [symbol] }

/-- Bind an interface to its members, in place of an earlier one of the name. -/
def bindInterface (r : Registry) (name : String) (members : List Symbol) : Registry :=
  { r with interfaces := (name, members) :: r.interfaces }

/-- The members of a bound interface. -/
def interface? (r : Registry) (name : String) : Option (List Symbol) :=
  r.interfaces.lookup name

def addEvent (r : Registry) (event : Event) : Registry :=
  { r with events := r.events ++ [event] }

end Registry

end ContractScript
