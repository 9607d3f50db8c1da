import ContractScript.Source.Program
import ContractScript.Symbol.Scope

/-!
# The global scope

The top-level items are defined in order: functions with a body, numbered; constants, whose value
must be a literal; static variables, whose slots are numbered. If there are static variables, the
function that opens and fills their slots comes last, after all declared functions.
-/

namespace ContractScript

/-- The name of the function that fills the static slots. -/
def initializerName : String := "_initialize"

/-- The global `Scope` and what it numbers. -/
structure Declarations where
  scope : Scope
  /-- Functions with a body, by number. -/
  functions : List FunctionDecl := []
  /-- Static variables, by slot. -/
  statics : List StaticDecl := []
  /-- The number of the function that fills the static slots, if there are any. -/
  initializer : Option FunctionId := none
  faults : List Diagnostic := []
deriving Inhabited

/-- The `Slot`s of the static variables. -/
def Declarations.staticSlots (d : Declarations) : List Slot :=
  d.statics.map fun decl => ⟨decl.id.name, ParamType.ofTy decl.ty⟩

/-- The value of an `Expr` that is a literal, or the minus of an integer literal. -/
def Expr.constant? : Expr → Option Constant
  | .literal value _ _ => some (.ofLiteral value)
  | .unary .neg (.literal (.int value) _ _) _ _ => some (.int (-value))
  | _ => none

namespace Declarations

def report (d : Declarations) (fault : Diagnostic) : Declarations :=
  { d with faults := d.faults ++ [fault] }

/-- Define a name, or report that it is taken. -/
def define (d : Declarations) (name : String) (span : Span) (definition : Definition) :
    Declarations :=
  match d.scope.defineAs name span definition with
  | .ok scope => { d with scope := scope }
  | .error e => d.report (.symbol e)

/-- A function takes the next number even if its name is taken. -/
def addFunction (d : Declarations) (decl : FunctionDecl) : Declarations :=
  let id := d.functions.length
  { d with functions := d.functions ++ [decl] }.define decl.id.name decl.id.span
    (.function id decl.params.length (!decl.returnType.isVoid))

def addConst (d : Declarations) (decl : ConstDecl) : Declarations :=
  match decl.value.constant? with
  | some value => d.define decl.id.name decl.id.span (.constant value)
  | none => d.report (.symbol (.invalidConstant decl.id.name decl.value.span))

/-- A static variable takes the next slot even if its name is taken. -/
def addStatic (d : Declarations) (decl : StaticDecl) : Declarations :=
  let index := d.statics.length
  { d with statics := d.statics ++ [decl] }.define decl.id.name decl.id.span
    (.slot .static index true)

/-- Items that describe the host are bound elsewhere. -/
def addItem (d : Declarations) : Item → Declarations
  | .function decl => if decl.body.isSome then d.addFunction decl else d
  | .const decl => d.addConst decl
  | .static decl => d.addStatic decl
  | .interface _ | .object _ => d
  | .other kind span => d.report (.lowering (.unsupported kind span))

/-- The function that fills the static slots, if there are any. -/
def addInitializer (d : Declarations) : Declarations :=
  match d.statics with
  | [] => d
  | first :: _ =>
    let id := d.functions.length
    { d with initializer := some id }.define initializerName first.span (.function id 0 false)

end Declarations

/-- The global scope of a `Program` over what the host provides. -/
def declare (registry : Registry) (p : Program) : Declarations :=
  (p.items.foldl Declarations.addItem { scope := Scope.root "global" registry }).addInitializer

end ContractScript
