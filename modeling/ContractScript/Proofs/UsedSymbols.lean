import ContractScript.Proofs.GlobalNames
import ContractScript.Proofs.Piecewise

/-!
# The symbols that code uses

The frames inside of a function hold only variables (`Scope.Over`), so whatever code calls, or reads
as a property, is what a global name stands for: a function of the program (`Symbol.Declared`), or
something that the host provides (`Registry.provided`).
-/

namespace ContractScript

open List

variable {d definition : Definition} {argCount : Nat} {ctx ctx' : Context} {ops : List Operation}
  {symbol : Symbol} {name : String} {object e : Expr} {ps : List Piece} {payload : List Char}
  {sig : Signature} {span : Span} {p : Program}

/-! ## Inside of functions -/

/-- Whether a name stands for a variable in a slot. -/
def Definition.isSlot : Definition → Bool
  | .slot _ _ _ => true
  | _ => false

/-- What can be used is no variable. -/
theorem Uses.isSlot_eq_false (h : Uses d argCount ctx ops ctx') : d.isSlot = false := by
  cases h <;> rfl

/-- A `Scope` that has only variables besides what a global one has. -/
structure Scope.Over (global scope : Scope) : Prop where
  builtins_eq : scope.builtins = global.builtins
  root : ∃ slots, scope.rootFrame.symbols = global.rootFrame.symbols ++ slots ∧
    ∀ symbol ∈ slots, symbol.definition.isSlot = true
  inner : ∀ f ∈ scope.inner, ∀ symbol ∈ f.symbols, symbol.definition.isSlot = true

namespace Scope.Over

variable {global scope : Scope}

variable (h : Over global scope)
include h

theorem enter (name : String) : Over global (scope.enter name) :=
  ⟨h.builtins_eq, h.root, forall_mem_cons.mpr ⟨forall_mem_nil _, h.inner⟩⟩

theorem leave : Over global scope.leave :=
  ⟨h.builtins_eq, h.root, fun f hf => h.inner f (mem_of_mem_tail hf)⟩

theorem push (hsymbol : symbol.definition.isSlot = true) : Over global (scope.push symbol) := by
  unfold Scope.push
  cases hinner : scope.inner with
  | nil =>
    obtain ⟨slots, hroot, hslots⟩ := h.root
    refine ⟨h.builtins_eq, ⟨slots ++ [symbol], ?_, ?_⟩, ?_⟩
    · dsimp only
      rw [hroot, append_assoc]
    · exact forall_mem_append.mpr ⟨hslots, forall_mem_singleton.mpr hsymbol⟩
    · exact forall_mem_nil _
  | cons f outer =>
    have hold := h.inner
    rw [hinner] at hold
    obtain ⟨hf, houter⟩ := forall_mem_cons.mp hold
    refine ⟨h.builtins_eq, h.root, forall_mem_cons.mpr ⟨?_, houter⟩⟩
    exact forall_mem_append.mpr ⟨hf, forall_mem_singleton.mpr hsymbol⟩

/-- A name that stands for no variable stands for the same outside (`lookup`). -/
theorem lookup (hglobal : global.inner = []) (hlookup : scope.lookup name = some symbol)
    (hsymbol : symbol.definition.isSlot = false) : global.lookup name = some symbol := by
  obtain ⟨slots, hroot, hslots⟩ := h.root
  have hinner : (scope.inner.findSome? fun f => findSymbol f.symbols name) = none := by
    cases hfound : scope.inner.findSome? fun f => findSymbol f.symbols name with
    | none => rfl
    | some symbol' =>
      rw [Scope.lookup, hfound] at hlookup
      cases hlookup
      obtain ⟨f, hf, hfind⟩ := exists_of_findSome?_eq_some hfound
      rw [h.inner f hf symbol (mem_of_find?_eq_some hfind)] at hsymbol
      cases hsymbol
  rw [Scope.lookup, hinner, hroot, findSymbol_append, h.builtins_eq] at hlookup
  rw [Scope.lookup, hglobal]
  cases hfound : findSymbol global.rootFrame.symbols name with
  | some symbol' =>
    rw [hfound] at hlookup
    exact hlookup
  | none =>
    rw [hfound] at hlookup
    cases hslot : findSymbol slots name with
    | none =>
      rw [hslot] at hlookup
      exact hlookup
    | some symbol' =>
      -- a variable hides what the host provides
      rw [hslot] at hlookup
      cases hlookup
      rw [hslots symbol (mem_of_find?_eq_some hslot)] at hsymbol
      cases hsymbol

/-- A member of an object of the host is the same outside (`member?`). -/
theorem member? (hglobal : global.inner = []) (hmember : scope.member? object name = some symbol) :
    global.member? object name = some symbol := by
  unfold Scope.member? at hmember ⊢
  cases hobject : object.unparenthesized with
  | ident id ty span =>
    rw [hobject] at hmember
    dsimp only at hmember ⊢
    cases hlookup : scope.lookup id.name with
    | none =>
      rw [hlookup] at hmember
      cases hmember
    | some found =>
      obtain ⟨foundName, owner, place, definition⟩ := found
      rw [hlookup] at hmember
      cases definition with
      | object members =>
        rw [h.lookup hglobal hlookup rfl]
        exact hmember
      | _ => cases hmember
  | _ =>
    rw [hobject] at hmember
    cases hmember

/-- What a call names, if it is no variable, it names outside too (`callee?`). -/
theorem callee? (hglobal : global.inner = []) (hcallee : scope.callee? e = some symbol)
    (hsymbol : symbol.definition.isSlot = false) : global.callee? e = some symbol := by
  unfold Scope.callee? at hcallee ⊢
  cases he : e.unparenthesized with
  | ident id ty span =>
    rw [he] at hcallee
    exact h.lookup hglobal hcallee hsymbol
  | member object member ty span =>
    rw [he] at hcallee
    exact h.member? hglobal hcallee
  | _ =>
    rw [he] at hcallee
    cases hcallee

end Scope.Over

/-! ## Pieces -/

variable {global : Scope}

/-- What stands for a symbol stands for one that an expression names in the global `Scope`, with its
number of arguments or as a property; and nothing else is a call. -/
def Piece.Accounted (global : Scope) : Piece → Prop
  | .op operation | .leave _ operation => operation.isCall = false
  | .use symbol argCount _ ops =>
    (∃ e, global.callee? e = some symbol) ∧
      (symbol.definition.paramCount? = some argCount ∨
        symbol.definition.isProperty = true ∧ argCount = 0) ∧
      ∃ ctx ctx', Uses symbol.definition argCount ctx ops ctx'

section

variable (hglobal : global.inner = [])
include hglobal

/-- Inside of functions only variables are defined, and calls are `Accounted` for by global symbols.
-/
theorem piecewise_accounted : Piecewise fun ctx ps ctx' => global.Over ctx.scope →
      global.Over ctx'.scope ∧ ∀ piece ∈ ps, piece.Accounted global where
  nil _ h := ⟨h, forall_mem_nil _⟩
  append h h' hover := by
    obtain ⟨hover₁, hps⟩ := h hover
    obtain ⟨hover₂, hqs⟩ := h' hover₁
    exact ⟨hover₂, forall_mem_append.mpr ⟨hps, hqs⟩⟩
  op hop h := ⟨h, forall_mem_singleton.mpr hop.isCall_eq⟩
  use {ctx ctx' e symbol argCount isWanted ops} hcallee hcount huses h := by
    refine ⟨huses.sameNames.scope_eq ▸ h, forall_mem_singleton.mpr ⟨⟨e, ?_⟩, hcount, ?_⟩⟩
    · exact h.callee? hglobal hcallee huses.isSlot_eq_false
    · exact ⟨ctx, ctx', huses⟩
  leave _ _ exit h := ⟨h, forall_mem_singleton.mpr (isCall_operation exit)⟩
  label _ _ h := ⟨h, forall_mem_nil _⟩
  declareLocal _ _ _ _ h := ⟨h.push rfl, forall_mem_nil _⟩
  enclosed name h hover := by
    obtain ⟨hover', hps⟩ := h (hover.enter name)
    exact ⟨hover'.leave, hps⟩

/-- All pieces of a function are `Accounted` for. -/
theorem FunctionCode.accounted {decl : FunctionDecl} (h : FunctionCode decl ctx ps ctx')
    (hover : global.Over ctx.scope) : ∀ piece ∈ ps, piece.Accounted global :=
  ((piecewise_accounted hglobal).function
    (fun _ _ _ _ h => ⟨h.push rfl, forall_mem_nil _⟩) h hover).2

theorem StaticsCode.accounted {decls : List StaticDecl} {index : Nat}
    (h : StaticsCode decls index ctx ps ctx') (hover : global.Over ctx.scope) :
    ∀ piece ∈ ps, piece.Accounted global :=
  ((piecewise_accounted hglobal).statics h hover).2

end

/-! ## What the host provides -/

/-- Whether an `Operation` can stand for a declaration: it neither branches nor uses a slot. -/
def Operation.isStraight : Operation → Bool
  | .simple _ | .pushInt _ | .convert _ | .isType _ | .service _ => true
  | _ => false

/-- What a declaration for the host can become. -/
def Definition.Provided : Definition → Prop
  | .host call => ∀ op ∈ call.ops, op.isStraight = true
  | .method ref => ref.flags = .all
  | .event _ _ => True
  | .function _ _ _ | .slot _ _ _ | .constant _ | .object _ => False

/-- `parseOperations` gives operations that neither branch nor use a slot. -/
theorem isStraight_of_parseOperations (h : parseOperations payload = .ok ops) :
    ∀ op ∈ ops, op.isStraight = true := by
  refine (forall_of_parseOperations h fun part op hop => ?_).2
  rcases parseOperation_cases hop with ⟨_, _, rfl⟩ | ⟨_, rfl⟩ | ⟨_, rfl⟩ | ⟨_, rfl⟩ <;> rfl

/-- What a declaration for the host can become: a call, whose operations satisfy `P`, a method or
an event. -/
def Definition.ProvidedAs (P : List Operation → Prop) : Definition → Prop
  | .host call => P call.ops
  | .method ref => ref.flags = .all
  | .event _ _ => True
  | .function _ _ _ | .slot _ _ _ | .constant _ | .object _ => False

section ProvidedAs

variable {P : List Operation → Prop}

/-- What the tags of a declaration make of it is a call, a method or an event. -/
theorem Bound.providedAs (h : Bound d) (hservice : ∀ service, P [.service service])
    (hops : ∀ payload ops, parseOperations payload = .ok ops → P ops) : d.ProvidedAs P := by
  obtain ⟨tags, markers, sig, contract, hparse, hbind⟩ := h
  cases makes_of_bindMarkers hbind with
  | service _ => exact hservice _
  | @operations ops hmarkers =>
    have hmem : .operations ops ∈ markers.filter (!·.isSafe) := hmarkers ▸ mem_cons_self
    obtain ⟨tag, -, hsaid⟩ := exists_of_parseMarkers hparse (mem_filter.mp hmem).1
    cases hsaid with
    | operations _ hparsed => exact hops _ ops hparsed
  | methodToken _ => rfl
  | event _ => trivial
  | native _ _ => rfl

end ProvidedAs

/-- What is `Bound` to a declaration is `Provided`. -/
theorem Bound.provided (h : Bound d) : d.Provided := by
  have hstraight := h.providedAs (P := fun ops => ∀ op ∈ ops, op.isStraight = true)
    (fun _ => forall_mem_singleton.mpr rfl) fun _ _ => isStraight_of_parseOperations
  cases d <;> exact hstraight

/-- A call of the host has operations. -/
theorem Bound.ops_ne_nil {call : HostCall} (h : Bound (.host call)) : call.ops ≠ [] :=
  h.providedAs (P := (· ≠ [])) (fun _ => cons_ne_nil _ _)
    fun _ _ h => (forall_of_parseOperations h fun _ _ _ => trivial).1

/-- What the host provides under its names: objects are seen through to their members. -/
def Registry.provided (r : Registry) : List Symbol :=
  r.symbols.flatMap fun symbol =>
    match symbol.definition with
    | .object members => members
    | _ => [symbol]

/-- All that a `Registry` provides, and all members of its interfaces, come from declarations. -/
structure Registry.AllProvided (r : Registry) : Prop where
  symbols : ∀ symbol ∈ r.provided, symbol.definition.Provided
  interfaces : ∀ name members, r.interface? name = some members →
    ∀ member ∈ members, member.definition.Provided

/-- All that a `Registry` provides, and all members of its interfaces, are what tags make of
declarations. -/
structure Registry.AllBound (r : Registry) : Prop where
  symbols : ∀ symbol ∈ r.provided, Bound symbol.definition
  interfaces : ∀ name members, r.interface? name = some members →
    ∀ member ∈ members, Bound member.definition

theorem interface?_bindInterface {r : Registry} {name' : String} {members found : List Symbol}
    (h : (r.bindInterface name members).interface? name' = some found) :
    found = members ∨ r.interface? name' = some found := by
  unfold Registry.interface? Registry.bindInterface at h
  rw [lookup_cons] at h
  split at h
  · cases h
    exact .inl rfl
  · exact .inr h

/-- `bindProgram` provides only what is `Bound` to declarations. -/
theorem allBound_bindProgram (p : Program) : (bindProgram p).1.AllBound := by
  have hlawful : Binder.Lawful fun b => b.registry.AllBound := by
    refine ⟨fun _ hb => hb, fun _ hb => hb, fun symbol hoffers hb => ⟨?_, hb.interfaces⟩,
      fun _ hb => ⟨hb.symbols, hb.interfaces⟩,
      fun name members hmembers hb => ⟨hb.symbols, fun name' found hfound => ?_⟩⟩
    · intro symbol' hsymbol'
      rw [Registry.provided, flatMap_append] at hsymbol'
      rcases mem_append.mp hsymbol' with hold | hnew
      · exact hb.symbols symbol' hold
      · rw [flatMap_singleton] at hnew
        rcases hoffers with hbound | ⟨name, members, hinterface, hdef⟩
        · split at hnew
          · next hdef =>
            rw [hdef] at hbound
            cases hbound.provided
          · cases mem_singleton.mp hnew
            exact hbound
        · rw [hdef] at hnew
          exact hb.interfaces name members hinterface symbol' hnew
    · rcases interface?_bindInterface hfound with rfl | hold
      · exact hmembers
      · exact hb.interfaces name' found hold
  obtain ⟨b, hb, heq⟩ := hlawful.bindProgram
    ⟨forall_mem_nil _, nofun⟩ p
  rw [heq]
  exact hb

/-- All that `bindProgram` yields comes from declarations. -/
theorem allProvided_bindProgram (p : Program) : (bindProgram p).1.AllProvided where
  symbols symbol hsymbol := ((allBound_bindProgram p).symbols symbol hsymbol).provided
  interfaces name members hmembers member hmember :=
    ((allBound_bindProgram p).interfaces name members hmembers member hmember).provided

/-! ## What a program declares -/

/-- What a global name of a program stands for: a variable, a constant, or a function under its
number. -/
inductive Symbol.Declared (functions : List FunctionDecl) (symbol : Symbol) : Prop where
  | value : symbol.definition.hasValue = true → Declared functions symbol
  | function {id : FunctionId} {decl : FunctionDecl} :
    functions[id]? = some decl → symbol.name = decl.id.name →
    symbol.definition = .function id decl.params.length (!decl.returnType.isVoid) →
    Declared functions symbol

theorem Symbol.Declared.append {functions : List FunctionDecl}
    (h : Symbol.Declared functions symbol) (more : List FunctionDecl) :
    Symbol.Declared (functions ++ more) symbol := by
  cases h with
  | value hvalue => exact .value hvalue
  | function hdecl hname hdef =>
    refine .function ?_ hname hdef
    rwa [getElem?_append_left (List.getElem?_eq_some_iff.mp hdecl).1]

namespace Declarations

/-- What holds of the symbols of the global frame and of a new one holds after its definition. -/
theorem forall_define {d : Declarations} (hinner : d.scope.inner = []) {P : Symbol → Prop}
    (h : ∀ symbol ∈ d.scope.rootFrame.symbols, P symbol)
    (hnew : ∀ symbol, symbol.name = name → symbol.definition = definition → P symbol) :
    ∀ symbol ∈ (d.define name span definition).scope.rootFrame.symbols, P symbol := by
  rcases define_cases hinner name span definition with
    ⟨symbol, hname, hdef, hscope, -⟩ | ⟨hscope, -⟩
  · rw [hscope]
    exact forall_mem_append.mpr ⟨h, forall_mem_singleton.mpr (hnew symbol hname hdef)⟩
  · rw [hscope]
    exact h

/-- `addItem` adds symbols that are `Declared`. -/
theorem declared_addItem {d : Declarations} (hinner : d.scope.inner = [])
    (h : ∀ symbol ∈ d.scope.rootFrame.symbols, Symbol.Declared d.functions symbol)
    (item : Item) : ∀ symbol ∈ (d.addItem item).scope.rootFrame.symbols,
      Symbol.Declared (d.addItem item).functions symbol := by
  have hadds := adds_addItem d item
  generalize d.addItem item = d' at hadds ⊢
  cases hadds with
  | nothing => exact h
  | fault fault => exact h
  | function decl =>
    rw [addFunction, functions_define]
    refine forall_define (d := { d with functions := d.functions ++ [decl] }) hinner
      (fun symbol hsymbol => (h symbol hsymbol).append [decl]) fun symbol hname hdef => ?_
    refine .function ?_ hname hdef
    rw [getElem?_append_right (Nat.le_refl _), Nat.sub_self]
    rfl
  | constant name span value =>
    rw [functions_define]
    exact forall_define hinner h fun symbol _ hdef => .value (by rw [hdef]; rfl)
  | static decl =>
    rw [addStatic, functions_define]
    exact forall_define (d := { d with statics := d.statics ++ [decl] }) hinner h
      fun symbol _ hdef => .value (by rw [hdef]; rfl)

/-- All items add symbols that are `Declared`. -/
theorem declared_foldl : ∀ (items : List Item) (d : Declarations), d.scope.inner = [] →
    (∀ symbol ∈ d.scope.rootFrame.symbols, Symbol.Declared d.functions symbol) →
    ∀ symbol ∈ (items.foldl addItem d).scope.rootFrame.symbols,
      Symbol.Declared (items.foldl addItem d).functions symbol
  | [], _, _, h => h
  | item :: rest, d, hinner, h =>
    declared_foldl rest (d.addItem item) ((extends_addItem d hinner item).inner_eq.trans hinner)
      (declared_addItem hinner h item)

end Declarations

open Declarations

/-- A `Symbol` of the global frame: one of an item, or the function that fills the static slots,
which has the number after all others. -/
inductive Symbol.DeclaredBy (p : Program) (symbol : Symbol) : Prop where
  | item : Symbol.Declared p.functions symbol → DeclaredBy p symbol
  | initializer : p.statics ≠ [] → symbol.name = initializerName →
    symbol.definition = .function p.functions.length 0 false → DeclaredBy p symbol

theorem addInitializer_of_statics {d : Declarations} (h : d.statics ≠ []) :
    ∃ span, d.addInitializer = { d with initializer := some d.functions.length }.define
      initializerName span (.function d.functions.length 0 false) := by
  unfold addInitializer
  split
  · next hnil => exact absurd hnil h
  · exact ⟨_, rfl⟩

theorem addInitializer_of_no_statics {d : Declarations} (h : d.statics = []) :
    d.addInitializer = d := by
  unfold addInitializer
  rw [h]

/-- `declare` has only symbols of the program in its global frame. -/
theorem declaredBy_declare (registry : Registry) (p : Program) :
    ∀ symbol ∈ (declare registry p).scope.rootFrame.symbols, Symbol.DeclaredBy p symbol := by
  have hfunctions := functions_declareItems registry p
  have hitems : ∀ symbol ∈ (declareItems registry p).scope.rootFrame.symbols,
      Symbol.DeclaredBy p symbol := by
    intro symbol hsymbol
    have hdeclared := declared_foldl p.items { scope := Scope.root "global" registry } rfl
      (forall_mem_nil _) symbol hsymbol
    exact .item (hfunctions ▸ hdeclared)
  show ∀ symbol ∈ (declareItems registry p).addInitializer.scope.rootFrame.symbols, _
  by_cases hstatics : (declareItems registry p).statics = []
  · rw [addInitializer_of_no_statics hstatics]
    exact hitems
  · obtain ⟨span, heq⟩ := addInitializer_of_statics hstatics
    rw [heq]
    let d := declareItems registry p
    refine forall_define (d := { d with initializer := some d.functions.length })
      (extends_declareItems registry p).inner_eq hitems fun symbol hname hdef => ?_
    rw [statics_declareItems] at hstatics
    refine .initializer hstatics hname (hdef.trans ?_)
    rw [hfunctions]

/-! ## Functions by name -/

namespace Declarations

/-- A definition without a fault is one of a new name. -/
theorem exists_of_define {d : Declarations} (hinner : d.scope.inner = [])
    (h : (d.define name span definition).faults = []) :
    d.faults = [] ∧ findSymbol d.scope.rootFrame.symbols name = none ∧
      ∃ symbol : Symbol, symbol.name = name ∧ symbol.definition = definition ∧
        (d.define name span definition).scope.rootFrame.symbols =
          d.scope.rootFrame.symbols ++ [symbol] := by
  rw [define, Scope.defineAs_eq] at h ⊢
  cases htaken : d.scope.isTaken name with
  | true =>
    rw [htaken] at h
    cases (append_eq_nil_iff.mp h).2
  | false =>
    rw [htaken] at h
    rw [Scope.isTaken, Scope.frame, hinner, Bool.or_eq_false_iff] at htaken
    refine ⟨h, Option.isNone_iff_eq_none.mp (Option.isSome_eq_false_iff.mp htaken.1),
      ⟨name, d.scope.frame.id, span, definition⟩, rfl, rfl, ?_⟩
    show (d.scope.push _).rootFrame.symbols = _
    rw [Scope.push, hinner]

/-- A definition that is no fault is found under its name. -/
theorem findSymbol_of_define {d : Declarations} (hinner : d.scope.inner = [])
    (h : (d.define name span definition).faults = []) :
    d.faults = [] ∧ ∃ symbol, symbol.definition = definition ∧
      findSymbol (d.define name span definition).scope.rootFrame.symbols name = some symbol := by
  obtain ⟨hfaults, hfree, symbol, hname, hdef, hsymbols⟩ := exists_of_define hinner h
  refine ⟨hfaults, symbol, hdef, ?_⟩
  rw [hsymbols, findSymbol_append, hfree, Option.none_or]
  exact find?_cons_of_pos (beq_iff_eq.mpr hname)

/-- Every function so far is found under its name. -/
def FindsFunctions (d : Declarations) : Prop :=
  ∀ (k : Nat) decl, d.functions[k]? = some decl → ∃ symbol,
    symbol.definition = .function k decl.params.length (!decl.returnType.isVoid) ∧
    findSymbol d.scope.rootFrame.symbols decl.id.name = some symbol

theorem FindsFunctions.extend {d d' : Declarations} (h : d.FindsFunctions)
    (hextends : Scope.Extends d.scope d'.scope) (hfunctions : d'.functions = d.functions) :
    d'.FindsFunctions := by
  intro k decl hk
  rw [hfunctions] at hk
  obtain ⟨symbol, hdef, hfound⟩ := h k decl hk
  exact ⟨symbol, hdef, hextends.found hfound⟩

theorem getElem?_concat_cases {α : Type} {xs : List α} {x y : α} {k : Nat}
    (h : (xs ++ [x])[k]? = some y) : xs[k]? = some y ∨ k = xs.length ∧ y = x := by
  rw [getElem?_append, getElem?_singleton] at h
  grind

/-- `addItem` keeps all functions found, unless there is a fault, and the new one is found too. -/
theorem findsFunctions_addItem {d : Declarations} (hinner : d.scope.inner = []) {item : Item}
    (hfaults : (d.addItem item).faults = []) :
    d.faults = [] ∧ (d.FindsFunctions → (d.addItem item).FindsFunctions) := by
  have hextends := extends_addItem d hinner item
  have hadds := adds_addItem d item
  generalize d.addItem item = d' at hfaults hextends hadds ⊢
  cases hadds with
  | nothing => exact ⟨hfaults, id⟩
  | fault fault => cases (append_eq_nil_iff.mp hfaults).2
  | function decl =>
    obtain ⟨hfaults', symbol, hdef, hfound⟩ :=
      findSymbol_of_define (d := { d with functions := d.functions ++ [decl] }) hinner hfaults
    refine ⟨hfaults', fun hfinds k decl' hk => ?_⟩
    rw [addFunction, functions_define] at hk
    rcases getElem?_concat_cases hk with hk | ⟨rfl, rfl⟩
    · obtain ⟨symbol', hdef', hfound'⟩ := hfinds k decl' hk
      exact ⟨symbol', hdef', hextends.found hfound'⟩
    · exact ⟨symbol, hdef, hfound⟩
  | constant name span value =>
    exact ⟨(findSymbol_of_define hinner hfaults).1,
      fun hfinds => hfinds.extend hextends (functions_define _ _ _ _)⟩
  | static decl =>
    have hdefine := findSymbol_of_define (d := { d with statics := d.statics ++ [decl] }) hinner
      hfaults
    exact ⟨hdefine.1, fun hfinds => hfinds.extend hextends (functions_define _ _ _ _)⟩

/-- What every item that is no fault keeps is kept by all items, if none of them is a fault. -/
theorem foldl_addItem {P : Declarations → Prop}
    (hstep : ∀ {d : Declarations}, d.scope.inner = [] → ∀ {item : Item},
      (d.addItem item).faults = [] → d.faults = [] ∧ (P d → P (d.addItem item))) :
    ∀ (items : List Item) (d : Declarations), d.scope.inner = [] →
      (items.foldl addItem d).faults = [] →
      d.faults = [] ∧ (P d → P (items.foldl addItem d))
  | [], _, _, hfaults => ⟨hfaults, id⟩
  | item :: rest, d, hinner, hfaults => by
    have hinner' := (extends_addItem d hinner item).inner_eq.trans hinner
    obtain ⟨hfaults', hrest⟩ := foldl_addItem hstep rest (d.addItem item) hinner' hfaults
    obtain ⟨hfaults'', hitem⟩ := hstep hinner hfaults'
    exact ⟨hfaults'', fun h => hrest (hitem h)⟩

end Declarations

/-- `declare` finds each function under its name, if there is no fault. -/
theorem findsFunctions_declare {registry : Registry} (h : (declare registry p).faults = []) :
    (declare registry p).FindsFunctions := by
  have hinner : (declareItems registry p).scope.inner = [] :=
    (extends_declareItems registry p).inner_eq
  have hitems : (declareItems registry p).faults = [] → (declareItems registry p).FindsFunctions :=
    fun hfaults => (foldl_addItem findsFunctions_addItem p.items
      { scope := Scope.root "global" registry } rfl hfaults).2 nofun
  have hextends := extends_declare registry p
  rcases addInitializer_cases (declareItems registry p) with heq | ⟨span, heq⟩
  · refine (hitems ?_).extend hextends ?_
    · exact heq ▸ h
    · exact congrArg Declarations.functions heq
  · let d := declareItems registry p
    have hdefine := findSymbol_of_define (d := { d with initializer := some d.functions.length })
      hinner ((congrArg faults heq).symm.trans h)
    refine (hitems hdefine.1).extend hextends ?_
    exact (congrArg Declarations.functions heq).trans (functions_define _ _ _ _)

/-! ## Symbols that can be used -/

/-- Whether a `Definition` can be called, or read as a property. -/
def Definition.isUsable : Definition → Bool
  | .function _ _ _ | .host _ | .event _ _ | .method _ => true
  | .slot _ _ _ | .constant _ | .object _ => false

theorem Uses.isUsable (h : Uses d argCount ctx ops ctx') : d.isUsable = true := by
  cases h <;> rfl

theorem Definition.isUsable_of_hasValue (h : d.hasValue = true) : d.isUsable = false := by
  cases d with
  | slot | constant => rfl
  | _ => cases h

/-- What a name of a global scope stands for. -/
theorem lookup_cases (h : (declare (bindProgram p).1 p).scope.lookup name = some symbol) :
    (Symbol.DeclaredBy p symbol ∨ symbol ∈ (bindProgram p).1.symbols) ∧ symbol.name = name := by
  have hbuiltins : (declare (bindProgram p).1 p).scope.builtins = (bindProgram p).1 :=
    ((extends_declareItems _ p).trans (extends_declare _ p)).builtins_eq
  have hmem {symbols : List Symbol} (hfind : findSymbol symbols name = some symbol) :
      symbol ∈ symbols ∧ symbol.name = name := by
    have hname : (symbol.name == name) = true :=
      find?_some (p := fun s : Symbol => s.name == name) hfind
    exact ⟨mem_of_find?_eq_some hfind, beq_iff_eq.mp hname⟩
  rw [Scope.lookup, inner_declare, hbuiltins] at h
  cases hroot : findSymbol (declare (bindProgram p).1 p).scope.rootFrame.symbols name with
  | some found =>
    rw [hroot] at h
    cases h
    exact ⟨.inl (declaredBy_declare _ p symbol (hmem hroot).1), (hmem hroot).2⟩
  | none =>
    rw [hroot] at h
    exact ⟨.inr (hmem h).1, (hmem h).2⟩

/-- An object is one of the host, and its members are what it provides. -/
theorem provided_of_member?
    (h : (declare (bindProgram p).1 p).scope.member? object name = some symbol) :
    symbol ∈ (bindProgram p).1.provided := by
  unfold Scope.member? at h
  split at h
  · split at h
    · next members hlookup =>
      rcases (lookup_cases hlookup).1 with hdeclared | hmem
      · cases hdeclared with
        | item hitem =>
          cases hitem with
          | value hvalue => cases hvalue
          | function _ _ hdef => cases hdef
        | initializer _ _ hdef => cases hdef
      · exact mem_flatMap.mpr ⟨_, hmem, mem_of_find?_eq_some h⟩
    · cases h
  · cases h

/-- Whatever can be used in a program is `provided` by the host, or one of its own functions under
its name. -/
theorem provided_or_declared (h : (declare (bindProgram p).1 p).scope.callee? e = some symbol)
    (husable : symbol.definition.isUsable = true) :
    symbol ∈ (bindProgram p).1.provided ∨ (Symbol.DeclaredBy p symbol ∧
      (declare (bindProgram p).1 p).scope.lookup symbol.name = some symbol) := by
  unfold Scope.callee? at h
  cases he : e.unparenthesized with
  | ident id ty span =>
    rw [he] at h
    obtain ⟨hcases, hname⟩ := lookup_cases h
    rcases hcases with hdeclared | hmem
    · exact .inr ⟨hdeclared, hname ▸ h⟩
    · refine .inl (mem_flatMap.mpr ⟨symbol, hmem, ?_⟩)
      split
      · next hdef =>
        rw [hdef] at husable
        cases husable
      · exact mem_singleton.mpr rfl
  | member object member ty span =>
    rw [he] at h
    exact .inl (provided_of_member? h)
  | _ =>
    rw [he] at h
    cases h

/-- What can be used and is no function is `provided` by the host. -/
theorem provided_of_callee? (h : (declare (bindProgram p).1 p).scope.callee? e = some symbol)
    (husable : symbol.definition.isUsable = true)
    (hfunction : ∀ id paramCount returns, symbol.definition ≠ .function id paramCount returns) :
    symbol ∈ (bindProgram p).1.provided := by
  rcases provided_or_declared h husable with hprovided | ⟨hdeclared, -⟩
  · exact hprovided
  · cases hdeclared with
    | item hitem =>
      cases hitem with
      | value hvalue => cases (Definition.isUsable_of_hasValue hvalue).symm.trans husable
      | function _ _ hdef => exact absurd hdef (hfunction _ _ _)
    | initializer _ _ hdef => exact absurd hdef (hfunction _ _ _)

end ContractScript
