import ContractScript.Contract.Manifest
import ContractScript.Script.Encode

/-!
# Debug information

For every method the range of its code, its variables and the places of the source behind its
addresses. Places name their file by its number among the documents, which are listed in the order
in which the places first mention them.

- `DocumentTable.number`: the number of a file, which is listed on its first mention.
- `sequencePointsOf`: the places of a method, numbered one after another.
- `DebugInfo.toJson`, `DebugInfo.text`: the written form, in which ranges, places and variables
  are short texts.
-/

namespace ContractScript

/-- A place of the source behind an address. -/
structure SequencePoint where
  address : Nat
  /-- The number of the document. -/
  document : Nat
  span : Span
deriving Repr, DecidableEq, Inhabited

/-- A method of a script, for a debugger. -/
structure DebugMethod where
  id : String
  name : String
  start : Nat
  /-- The last address of the method. -/
  last : Nat
  params : List Slot
  returnType : ParamType
  locals : List Slot
  points : List SequencePoint
deriving Repr, DecidableEq, Inhabited

/-- An event, for a debugger. -/
structure DebugEvent where
  id : String
  name : String
  params : List Slot
deriving Repr, DecidableEq, Inhabited

/-- What a debugger needs to know of a contract. -/
structure DebugInfo where
  hash : Hash160
  documents : List String
  methods : List DebugMethod
  events : List DebugEvent
  statics : List Slot
deriving Inhabited

/-! ## Documents -/

/-- The documents so far: the numbers of files, and the paths in the order of the numbers. -/
structure DocumentTable where
  numbers : List (Nat × Nat) := []
  paths : List String := []

/-- The number of a file. On its first mention it gets the next number, and its path is listed. -/
def DocumentTable.number (path : Nat → String) (file : Nat) : StateM DocumentTable Nat := fun d =>
  match d.numbers.lookup file with
  | some n => (n, d)
  | none => (d.paths.length, ⟨d.numbers ++ [(file, d.paths.length)], d.paths ++ [path file]⟩)

/-- The places of a method, with the numbers of their documents. -/
def sequencePointsOf (path : Nat → String) (points : List (Nat × Span)) :
    StateM DocumentTable (List SequencePoint) :=
  points.mapM fun (address, span) =>
    (⟨address, ·, span⟩) <$> DocumentTable.number path span.file

/-! ## Writing -/

/-- The text of a place: its address, its document, and the first and last position. -/
def SequencePoint.text (p : SequencePoint) : String :=
  Text.decimalNat p.address ++ "[" ++ Text.decimalNat p.document ++ "]" ++
    Text.decimalNat p.span.line ++ ":" ++ Text.decimalNat p.span.col ++ "-" ++
    Text.decimalNat p.span.endLine ++ ":" ++ Text.decimalNat p.span.endCol

/-- The text of a variable: its name and its type. -/
def Slot.debugJson (s : Slot) : Json :=
  .string (s.name ++ "," ++ s.ty.name)

/-- The first and last address of a method. -/
def DebugMethod.range (m : DebugMethod) : String :=
  Text.decimalNat m.start ++ "-" ++ Text.decimalNat m.last

def DebugMethod.toJson (m : DebugMethod) : Json :=
  .object [
    ("id", .string m.id),
    ("name", .string m.name),
    ("range", .string m.range),
    ("params", .list Slot.debugJson m.params),
    ("return", m.returnType.toJson),
    ("variables", .list Slot.debugJson m.locals),
    ("sequence-points", .list (fun p => .string p.text) m.points)]

def DebugEvent.toJson (e : DebugEvent) : Json :=
  .object [
    ("id", .string e.id),
    ("name", .string e.name),
    ("params", .list Slot.debugJson e.params)]

namespace DebugInfo

/-- The first method of a name. -/
def method? (d : DebugInfo) (name : String) : Option DebugMethod :=
  d.methods.find? (·.name == name)

def toJson (d : DebugInfo) : Json :=
  .object [
    ("hash", .string d.hash.text),
    ("documents", .list .string d.documents),
    ("methods", .list DebugMethod.toJson d.methods),
    ("events", .list DebugEvent.toJson d.events),
    ("static-variables", .list Slot.debugJson d.statics)]

/-- The text of debug information. -/
def text (d : DebugInfo) : String :=
  d.toJson.pretty

end DebugInfo

end ContractScript
