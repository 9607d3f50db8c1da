import ContractScript.Contract.Assembly
import ContractScript.Lowering.Program
import ContractScript.Script.Build
import ContractScript.Symbol.Binding

/-!
# The compiler

A program is compiled in stages: what the host provides, the global scope, the functions, the
script, and the documents that go with it. A stage reports all faults it finds, and the first stage
that finds any is the last.

- `CompileOptions`, `CompileOptions.ofJson?`.
- `compile`: the contract of a program, or the faults.
- `Contract.toJson`, `failureMessage`: the written forms of both.
-/

namespace ContractScript

/-- How a program is compiled. -/
structure CompileOptions where
  /-- The name of the contract. -/
  name : String := "Contract"
  /-- Use short branches where they reach. -/
  optimize : Bool := false
  /-- Make debug information. -/
  debugInfo : Bool := true
deriving Repr, DecidableEq, Inhabited

/-- A compiled contract. -/
structure Contract where
  script : List UInt8
  /-- The code of every function, exported or not. -/
  methods : List Method
  /-- The methods of other contracts, in the order of first use. -/
  tokens : List MethodToken
  manifest : Manifest
  debug : Option DebugInfo
  hash : Hash160
deriving Inhabited

/-- Go on unless a stage found faults. -/
def checkpoint (faults : List Diagnostic) : Except (List Diagnostic) Unit :=
  ((⟨faults⟩ : Log).checkpoint).1

/-- Compile a `Program`. -/
def compile (p : Program) (options : CompileOptions) : Except (List Diagnostic) Contract := do
  let (registry, faults) := bindProgram p
  checkpoint faults
  let declarations := declare registry p
  checkpoint declarations.faults
  let lowered := lowerProgram declarations
  checkpoint lowered.faults
  match buildScript lowered.tokens lowered.routines options.optimize with
  | .error faults => .error (faults.map .encoding)
  | .ok script =>
    let assembly : Assembly :=
      { name := options.name
        program := p
        routines := lowered.routines
        script := script
        events := registry.events
        statics := declarations.staticSlots }
    let artifacts := assembly.artifacts options.debugInfo
    return {
      script := script.bytes
      methods := script.methods
      tokens := lowered.tokens.tokens.toList
      manifest := artifacts.manifest
      debug := artifacts.debug
      hash := artifacts.hash }

/-- The report of a program that does not compile. -/
def failureMessage (faults : List Diagnostic) : String :=
  "compilation failed:\n" ++ Diagnostic.report faults

/-! ## Options from JSON -/

namespace CompileOptions

/-- A field that must be of its kind if it is there. -/
def optional? {α : Type} (f : Json → Option α) (default : α) : Option Json → Option α
  | none => some default
  | some v => f v

/-- Options from the values of the fields. -/
def ofFields? (name optimize debugInfo : Option Json) : Option CompileOptions := do
  let d : CompileOptions := {}
  return {
    name := ← optional? Json.asString? d.name name
    optimize := ← optional? Json.asBool? d.optimize optimize
    debugInfo := ← optional? Json.asBool? d.debugInfo debugInfo }

/-- Options from an object or, by position, from an array. Missing ones keep their default. -/
def ofJson? : Json → Option CompileOptions
  | .object fields => do
    ofFields? (← Json.onlyField? fields "name") (← Json.onlyField? fields "optimize")
      (← Json.onlyField? fields "debug_info")
  | .array items =>
    if items.length ≤ 3 then ofFields? items[0]? items[1]? items[2]? else none
  | _ => none

end CompileOptions

/-! ## Contracts as JSON -/

def MethodToken.toJson (t : MethodToken) : Json :=
  .object [
    ("hash", .string t.hash.text),
    ("method", .string t.method),
    ("paramCount", .nat t.paramCount),
    ("hasReturnValue", .bool t.hasReturn),
    ("callFlags", .nat t.flags.bits.toNat)]

namespace Contract

/-- The first `Method` of a name. -/
def method? (c : Contract) (name : String) : Option Method :=
  c.methods.find? (·.name == name)

/-- A contract with all its documents; debug information only if there is any. -/
def toJson (c : Contract) : Json :=
  .object (
    [("script", .list (fun b => .nat b.toNat) c.script),
     ("tokens", .list MethodToken.toJson c.tokens),
     ("manifest", c.manifest.toJson)] ++
    (c.debug.map fun d => ("debug_info", d.toJson)).toList ++
    [("hash", .string c.hash.text)])

/-- The text of a contract. -/
def text (c : Contract) : String :=
  c.toJson.compact

end Contract

end ContractScript
