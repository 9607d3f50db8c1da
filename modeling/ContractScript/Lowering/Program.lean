import ContractScript.Lowering.Stmt
import ContractScript.Symbol.Declarations

/-!
# Lowering of a program

Every function is lowered on its own: it sees the global scope, and shares only the token table
with the others. A function that fails is reported and left out, and the rest goes on.

- `lowerFunction`, `lowerInitializer`: one function, and the one that fills the static slots.
- `lowerProgram`: all functions in the order of their numbers.
-/

namespace ContractScript

open Lower

/-- Functions lowered so far, the tokens they share, the global `Scope`, and the faults. -/
structure Lowering where
  scope : Scope
  tokens : TokenTable := .empty
  routines : List Routine := []
  faults : List Diagnostic := []
deriving Inhabited

/-- Define `Param`s in order. -/
def defineParams : List Param → Lower Unit
  | [] => pure ()
  | p :: rest => do
    defineParam p.id.name p.span (ParamType.ofTy p.ty)
    defineParams rest

/-- What a draft becomes. -/
def finishDraft : Lower Routine := do
  match (← get).draft.finish with
  | .ok r => pure r
  | .error e => throw (.encoding e)

/-- Whether a function is declared not to change state. -/
def FunctionDecl.isMarkedSafe (decl : FunctionDecl) : Bool :=
  decl.isSafe || decl.tags.any (·.name == "safe")

/-- Lower the body of a function, in a scope that holds its parameters. -/
def lowerFunction (decl : FunctionDecl) : Lower Routine := do
  inScope decl.id.name do
    defineParams decl.params
    match decl.body with
    | none => pure ()
    | some body => lowerBlock body
  let routine ← finishDraft
  return { routine with
    returnType := ParamType.ofTy decl.returnType
    isExport := decl.isExport
    isSafe := decl.isMarkedSafe }

/-- Lower the initial value of a static variable into its slot. -/
def lowerStatic (decl : StaticDecl) (index : Nat) : Lower Unit :=
  match decl.init with
  | none => pure ()
  | some value => markFrom decl.span do
    lowerExpr value
    emit (.store .static index)

/-- Lower the initial values of static variables. The faults are collected, and a fault does not
stop what follows. -/
def lowerStatics : List StaticDecl → Nat → LowerState → List Diagnostic × LowerState
  | [], _, s => ([], s)
  | decl :: rest, index, s =>
    match lowerStatic decl index s with
    | .ok _ s => lowerStatics rest (index + 1) s
    | .error e s =>
      let (faults, s) := lowerStatics rest (index + 1) s
      (e :: faults, s)

namespace Lowering

/-- Take up how the lowering of a function ended. -/
def collect (l : Lowering) : EStateM.Result Diagnostic LowerState Routine → Lowering
  | .ok r s => { l with scope := s.scope, tokens := s.tokens, routines := l.routines ++ [r] }
  | .error e s => { l with scope := s.scope, tokens := s.tokens, faults := l.faults ++ [e] }

/-- The state in which a function starts. -/
def start (l : Lowering) (id : FunctionId) (name : String) : LowerState :=
  ⟨{ id := id, name := name }, l.scope, l.tokens⟩

/-- Lower the functions from a number on. -/
def addFunctions (l : Lowering) (id : FunctionId) : List FunctionDecl → Lowering
  | [] => l
  | decl :: rest =>
    (l.collect (lowerFunction decl (l.start id decl.id.name))).addFunctions (id + 1) rest

/-- Lower the function that opens the static slots and fills them in order. -/
def addInitializer (l : Lowering) (id : FunctionId) (statics : List StaticDecl) : Lowering :=
  let s := l.start id initializerName
  let (faults, s) :=
    lowerStatics statics 0 { s with draft := s.draft.emit (.initStatics statics.length) }
  let finished : Lower Routine := do
    return { ← finishDraft with isExport := true }
  { l with faults := l.faults ++ faults }.collect (finished s)

end Lowering

/-- Lower all functions of a program. -/
def lowerProgram (d : Declarations) : Lowering :=
  let l := Lowering.addFunctions { scope := d.scope } 0 d.functions
  match d.initializer with
  | none => l
  | some id => l.addInitializer id d.statics

end ContractScript
