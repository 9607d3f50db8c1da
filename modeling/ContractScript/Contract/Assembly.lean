import ContractScript.Contract.DebugInfo
import ContractScript.Source.Program

/-!
# The documents that go with a script

A finished script gets its hash, its manifest and, if asked for, its debug information. Nothing can
fail here: addresses come from the script itself.
-/

namespace ContractScript

/-- What the documents of a `Script` are made of. -/
structure Assembly where
  /-- The name of the contract. -/
  name : String
  program : Program
  /-- The functions of the script, in the order of its methods. -/
  routines : List Routine
  script : Script
  events : List Event := []
  statics : List Slot := []

/-- The documents that go with a script. -/
structure Artifacts where
  manifest : Manifest
  debug : Option DebugInfo
  hash : Hash160
deriving Inhabited

namespace Assembly

/-- Exported functions are the methods that callers can name. -/
def entries (a : Assembly) : List MethodEntry :=
  ((a.routines.zip a.script.methods).filter (·.1.isExport)).map fun (r, m) =>
    ⟨r.name, r.params, r.returnType, m.start, r.isSafe⟩

def manifest (a : Assembly) : Manifest :=
  { name := a.name, methods := a.entries, events := a.events }

/-- The path of a file; a file without a path goes by its number. -/
def documentPath (a : Assembly) (file : Nat) : String :=
  (a.program.path? file).getD ("<file " ++ Text.decimalNat file ++ ">")

/-- The name of a method or an event among those of all contracts. -/
def qualified (a : Assembly) (name : String) : String :=
  a.name ++ "," ++ name

/-- A `Method`, for a debugger. -/
def debugMethod (a : Assembly) (r : Routine) (m : Method) (points : List SequencePoint) :
    DebugMethod :=
  { id := a.qualified r.name
    name := r.name
    start := m.start
    last := m.stop - 1
    params := r.params
    returnType := r.returnType
    locals := r.locals
    points := points }

/-- The debug information of a script. The documents are listed while the methods are. -/
def debugInfo (a : Assembly) : DebugInfo :=
  let listing := (a.routines.zip a.script.methods).mapM fun (r, m) =>
    a.debugMethod r m <$> sequencePointsOf a.documentPath m.points
  let (methods, table) := listing.run {}
  { hash := .ofScript a.script.bytes
    documents := table.paths
    methods := methods
    events := a.events.map fun e => ⟨a.qualified e.name, e.name, e.params⟩
    statics := a.statics }

/-- The documents of a script, with debug information if asked for. -/
def artifacts (a : Assembly) (withDebug : Bool) : Artifacts :=
  { manifest := a.manifest
    debug := if withDebug then some a.debugInfo else none
    hash := .ofScript a.script.bytes }

end Assembly

end ContractScript
