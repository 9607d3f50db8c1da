import ContractScript.Symbol.Marker

/-!
# Binding declarations to the host

Every declaration without a body is turned into a symbol of the registry, as its markers say:

- functions without a body;
- interfaces that stand for a native contract or have a tagged member;
- global objects that have such an interface, wherever it stands in the program.

Other interfaces are plain types. Every declaration is looked at, whatever went wrong before, so
that all faults are reported together.
-/

namespace ContractScript

/-- What a declaration says about its own use. -/
structure Signature where
  name : String
  params : List Param
  returns : Bool
  isProperty : Bool
  span : Span

/-- The `Slot`s of parameters. -/
def slotsOf (params : List Param) : List Slot :=
  params.map fun p => ⟨p.id.name, ParamType.ofTy p.ty⟩

/-- A method of a contract with the signature of a declaration. -/
def bindMethod (hash : Hash160) (method : String) (sig : Signature) :
    Except BindingError Definition :=
  if sig.params.length ≤ 65535 then
    .ok (.method ⟨hash, method, sig.params.length, sig.returns, .all, sig.isProperty⟩)
  else
    .error (.unsupported sig.name
      (Text.decimalNat sig.params.length ++ " parameters exceed a method token") sig.span)

/-- Operations with the signature of a declaration. -/
def bindOperations (ops : List Operation) (sig : Signature) : Definition :=
  .host ⟨ops, sig.params.length, sig.returns, sig.isProperty⟩

/-- What a `Marker` makes of a declaration. -/
def Marker.bind (m : Marker) (sig : Signature) : Except BindingError (Option Definition) :=
  match m with
  | .service s => .ok (some (bindOperations [.service s] sig))
  | .operations ops => .ok (some (bindOperations ops sig))
  | .methodToken hash method => some <$> bindMethod hash (method.getD sig.name) sig
  | .event name => .ok (some (.event (name.getD sig.name) sig.params.length))
  | .nativeContract _ =>
    .error (.unsupported "@nativeContract" ("applies to interfaces, not " ++ quoted sig.name)
      sig.span)
  | .safe => .ok none

/-- What the `Marker`s of a declaration make of it. Without a marker that binds, a member of a
native contract is its method of that name, and anything else is nothing. -/
def bindMarkers (markers : List Marker) (sig : Signature) (contract : Option Hash160) :
    Except BindingError (Option Definition) :=
  match markers.filter (!·.isSafe), contract with
  | _ :: extra :: _, _ =>
    .error (.unsupported ("@" ++ extra.tagName)
      (quoted sig.name ++ " already has a builtin marker") sig.span)
  | [m], _ => m.bind sig
  | [], some hash => some <$> bindMethod hash sig.name sig
  | [], none => .ok none

/-- The `Registry` so far, and the faults on the way. -/
structure Binder where
  registry : Registry := {}
  faults : List Diagnostic := []
deriving Inhabited

namespace Binder

def report (b : Binder) (d : Diagnostic) : Binder :=
  { b with faults := b.faults ++ [d] }

def reportBinding (b : Binder) (e : BindingError) : Binder :=
  b.report (.binding e)

/-- Add a symbol, or report that its name is taken. -/
def define (b : Binder) (id : Ident) (definition : Definition) : Binder :=
  match b.registry.define ⟨id.name, builtinScope, id.span, definition⟩ with
  | .ok r => { b with registry := r }
  | .error e => b.report (.symbol e)

/-! ## Functions -/

/-- A function without a body becomes the symbol that its markers say. -/
def bindFunction (b : Binder) (decl : FunctionDecl) : Binder :=
  match parseMarkers decl.tags with
  | .error e => b.reportBinding e
  | .ok markers =>
    let sig : Signature :=
      ⟨decl.id.name, decl.params, !decl.returnType.isVoid, false, decl.span⟩
    match bindMarkers markers sig none with
    | .error e => b.reportBinding e
    | .ok none =>
      b.reportBinding (.unsupported decl.id.name
        "declaration without a body needs a builtin marker" decl.span)
    | .ok (some definition) =>
      let b :=
        match definition with
        | .event name _ =>
          { b with registry := b.registry.addEvent ⟨name, slotsOf decl.params⟩ }
        | _ => b
      b.define decl.id definition

/-- A function with a body may only be marked safe. -/
def checkBody (b : Binder) (decl : FunctionDecl) : Binder :=
  match parseMarkers decl.tags with
  | .error e => b.reportBinding e
  | .ok markers =>
    match markers.find? (!·.isSafe) with
    | none => b
    | some m =>
      let span := ((decl.tags.find? (·.name == m.tagName)).map (·.span)).getD decl.span
      b.reportBinding (.unsupported ("@" ++ m.tagName) (quoted decl.id.name ++ " has a body") span)

/-! ## Interfaces and objects -/

/-- What the markers of an interface member make of it. -/
def memberDefinition (member : InterfaceMember) (contract : Option Hash160) :
    Except BindingError Definition := do
  let markers ← parseMarkers member.tags
  let isProperty := member.kind == .property
  let sig : Signature :=
    ⟨member.id.name, member.params, isProperty || !member.ty.isVoid, isProperty, member.span⟩
  match ← bindMarkers markers sig contract with
  | some (.event _ _) =>
    .error (.unsupported "@event"
      ("interface member " ++ quoted member.id.name ++ " cannot be an event") member.span)
  | some definition => .ok definition
  | none =>
    .error (.unsupported member.id.name "interface member needs a builtin marker" member.span)

/-- Add a member to those of an interface, or report why not. -/
def bindMember (interface : String) (contract : Option Hash160)
    (bm : Binder × List Symbol) (member : InterfaceMember) : Binder × List Symbol :=
  let (b, members) := bm
  match memberDefinition member contract with
  | .error e => (b.reportBinding e, members)
  | .ok definition =>
    match findSymbol members member.id.name with
    | some _ =>
      (b.report (.symbol (.duplicate (interface ++ "." ++ member.id.name) member.span)), members)
    | none => (b, members ++ [⟨member.id.name, builtinScope, member.span, definition⟩])

/-- The contract that the `Marker`s of an interface name last. -/
def nativeContract? (markers : List Marker) : Option Hash160 :=
  (markers.filterMap fun m =>
    match m with
    | .nativeContract hash => some hash
    | _ => none).getLast?

/-- An interface of a native contract, or with a tagged member, is bound. -/
def bindInterface (b : Binder) (decl : InterfaceDecl) : Binder :=
  match parseMarkers decl.tags with
  | .error e => b.reportBinding e
  | .ok markers =>
    let misplaced := markers.filter fun m =>
      match m with
      | .nativeContract _ => false
      | _ => true
    let b := misplaced.foldl (fun b m =>
      b.reportBinding (.unsupported ("@" ++ m.tagName)
        ("not applicable to interface " ++ quoted decl.id.name) decl.span)) b
    let contract := nativeContract? markers
    if contract.isSome || decl.members.any (!·.tags.isEmpty) then
      let (b, members) := decl.members.foldl (bindMember decl.id.name contract) (b, [])
      { b with registry := b.registry.bindInterface decl.id.name members }
    else b

/-- A global object has the members of its interface. -/
def bindObject (b : Binder) (decl : ObjectDecl) : Binder :=
  match b.registry.interface? decl.interface.name with
  | some members => b.define decl.id (.object members)
  | none => b.report (.symbol (.unresolved decl.interface.name decl.interface.span))

/-- An `Item` other than a global object. -/
def bindItem (b : Binder) : Item → Binder
  | .function decl => if decl.body.isSome then b.checkBody decl else b.bindFunction decl
  | .interface decl => b.bindInterface decl
  | .const _ | .static _ | .object _ | .other _ _ => b

end Binder

/-- The global objects of a `Program`. -/
def Program.objects (p : Program) : List ObjectDecl :=
  p.items.filterMap fun item =>
    match item with
    | .object decl => some decl
    | _ => none

/-- What the host provides to a `Program`, and the faults of its declarations. Global objects come
after everything else, so that they may stand before their interface. -/
def bindProgram (p : Program) : Registry × List Diagnostic :=
  let b := p.items.foldl Binder.bindItem {}
  let b := p.objects.foldl Binder.bindObject b
  (b.registry, b.faults)

end ContractScript
