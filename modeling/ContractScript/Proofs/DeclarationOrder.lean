import ContractScript.Proofs.BindingOrder
import ContractScript.Proofs.UsedSymbols

/-!
# Declaring in any order

Functions and static variables are numbered in order, and every global name is defined once. So the
items of a program can be declared in any order that keeps functions and static variables one after
the other as they were: the names stand for the same.
-/

namespace ContractScript

open List

variable {d : Declarations} {name : String} {span : Span} {definition : Definition}

/-- The items of a `Program` in another order, in which functions with a body, static variables and
declarations of events come one after the other as before. -/
structure Program.Reorders (p p' : Program) : Prop where
  files_eq : p'.files = p.files
  items_perm : p'.items.Perm p.items
  functions_eq : p'.functions = p.functions
  statics_eq : p'.statics = p.statics
  eventDecls_eq : p'.eventDecls = p.eventDecls

/-! ## Global names -/

/-- The names that an `Item` defines in the global scope. -/
def Item.declaredNames : Item → List String
  | .function decl => if decl.body.isSome then [decl.id.name] else []
  | .const decl => [decl.id.name]
  | .static decl => [decl.id.name]
  | _ => []

/-- Whether an `Item` can stand at the top level. -/
def Item.isDeclarable : Item → Bool
  | .const decl => decl.value.constant?.isSome
  | .other _ _ => false
  | _ => true

/-- The `Symbol` of a function. -/
def FunctionDecl.symbol (index : FunctionId) (decl : FunctionDecl) : Symbol :=
  ⟨decl.id.name, builtinScope + 1, decl.id.span,
    .function index decl.params.length (!decl.returnType.isVoid)⟩

/-- The `Symbol` of a static variable. -/
def StaticDecl.symbol (index : Nat) (decl : StaticDecl) : Symbol :=
  ⟨decl.id.name, builtinScope + 1, decl.id.span, .slot .static index true⟩

/-- The `Symbol` of an item that is a constant. -/
def Item.constantSymbols : Item → List Symbol
  | .const decl => (decl.value.constant?.map fun value =>
    ⟨decl.id.name, builtinScope + 1, decl.id.span, .constant value⟩).toList
  | _ => []

namespace Declarations

/-- A global scope over what the host provides, without faults so far. -/
structure Clean (registry : Registry) (d : Declarations) : Prop where
  faults_eq : d.faults = []
  builtins_eq : d.scope.builtins = registry
  inner_eq : d.scope.inner = []
  id_eq : d.scope.rootFrame.id = builtinScope + 1

/-- The names that are taken: those of the host and those of the program. -/
def names (d : Declarations) : List String :=
  d.scope.builtins.symbols.map Named.name ++ d.scope.rootFrame.symbols.map Named.name

/-- The `Symbol`s of the program. -/
def symbols (d : Declarations) : List Symbol :=
  d.scope.rootFrame.symbols

variable {registry : Registry}

theorem clean_congr {d' : Declarations} (hscope : d.scope = d'.scope)
    (hfaults : d.faults = d'.faults) : d.Clean registry ↔ d'.Clean registry := by
  constructor
  · exact fun h => ⟨hfaults ▸ h.1, hscope ▸ h.2, hscope ▸ h.3, hscope ▸ h.4⟩
  · exact fun h => ⟨hfaults ▸ h.1, hscope ▸ h.2, hscope ▸ h.3, hscope ▸ h.4⟩

/-- In the global scope, `isTaken` asks for the names of the host and of the program. -/
theorem isTaken_iff (hinner : d.scope.inner = []) :
    d.scope.isTaken name = true ↔ name ∈ d.names := by
  have hfound : ∀ symbols : List Symbol,
      (findSymbol symbols name).isSome = true ↔ name ∈ symbols.map Named.name := fun symbols => by
    rw [Option.isSome_iff_ne_none, ne_eq, findSymbol_eq_none_iff, Decidable.not_not]
  rw [Scope.isTaken, Scope.frame, hinner, names, mem_append, Bool.or_eq_true]
  exact Iff.trans (or_congr (hfound _) (hfound _)) or_comm

theorem define_of_taken (h : d.scope.isTaken name = true) (span : Span) (definition : Definition) :
    d.define name span definition = d.report (.symbol (.duplicate name span)) := by
  rw [define, Scope.defineAs_eq, if_pos h]

/-- `define` adds a symbol for a name that is free. -/
theorem define_of_free (hinner : d.scope.inner = []) (h : d.scope.isTaken name = false)
    (span : Span) (definition : Definition) :
    d.define name span definition = { d with scope := { d.scope with
      rootFrame := { d.scope.rootFrame with symbols := d.scope.rootFrame.symbols ++
        [⟨name, d.scope.rootFrame.id, span, definition⟩] } } } := by
  rw [define, Scope.defineAs_eq, h, Scope.frame, hinner]
  show { d with scope := d.scope.push _ } = _
  rw [Scope.push, hinner]
  dsimp only
  rw [hinner]
  rfl

theorem inner_of_define (h : (d.define name span definition).scope.inner = []) :
    d.scope.inner = [] := by
  rw [define, Scope.defineAs_eq] at h
  split at h
  · next scope hscope =>
    split at hscope
    · cases hscope
    · cases hscope
      unfold Scope.push at h
      split at h
      · assumption
      · cases h
  · exact h

/-- `define` keeps a scope `Clean` exactly if the name is new. -/
theorem clean_define_iff (d : Declarations) (name : String) (span : Span)
    (definition : Definition) :
    (d.define name span definition).Clean registry ↔ d.Clean registry ∧ name ∉ d.names := by
  by_cases hinner : d.scope.inner = []
  · cases htaken : d.scope.isTaken name with
    | true =>
      rw [define_of_taken htaken]
      refine iff_of_false (fun h => ?_) fun h => h.2 ((isTaken_iff hinner).mp htaken)
      exact append_ne_nil_of_right_ne_nil _ (cons_ne_nil _ _) h.faults_eq
    | false =>
      have hnew : name ∉ d.names := fun hmem =>
        Bool.false_ne_true (htaken.symm.trans ((isTaken_iff hinner).mpr hmem))
      rw [define_of_free hinner htaken]
      exact ⟨fun h => ⟨⟨h.1, h.2, h.3, h.4⟩, hnew⟩, fun h => ⟨h.1.1, h.1.2, h.1.3, h.1.4⟩⟩
  · exact iff_of_false (fun h => hinner (inner_of_define h.inner_eq)) fun h => hinner h.1.inner_eq

/-- `define` adds its symbol after the others. -/
theorem symbols_define (h : (d.define name span definition).Clean registry) :
    (d.define name span definition).symbols =
      d.symbols ++ [⟨name, builtinScope + 1, span, definition⟩] := by
  obtain ⟨hd, hnew⟩ := (clean_define_iff d name span definition).mp h
  have hfree : d.scope.isTaken name = false :=
    Bool.eq_false_iff.mpr fun htaken => hnew ((isTaken_iff hd.inner_eq).mp htaken)
  rw [define_of_free hd.inner_eq hfree, ← hd.id_eq]
  rfl

theorem names_define (h : (d.define name span definition).Clean registry) :
    (d.define name span definition).names = d.names ++ [name] := by
  have hd := ((clean_define_iff d name span definition).mp h).1
  rw [names, h.builtins_eq, names, hd.builtins_eq]
  show _ ++ (d.define name span definition).symbols.map Named.name = _
  rw [symbols_define h, map_append, ← append_assoc]
  rfl

/-! ## Items -/

/-- `addItem` reports nothing if the item can be declared and its name is new. -/
theorem clean_addItem_iff (d : Declarations) (item : Item) :
    (d.addItem item).Clean registry ↔ d.Clean registry ∧ item.isDeclarable ∧
      ∀ name ∈ item.declaredNames, name ∉ d.names := by
  have hreport : ∀ fault, ¬(d.report fault).Clean registry := fun fault h =>
    append_ne_nil_of_right_ne_nil _ (cons_ne_nil _ _) h.faults_eq
  have hnone : d.Clean registry ↔ d.Clean registry ∧ true = true ∧ ∀ name ∈ [], name ∉ d.names :=
    ⟨fun h => ⟨h, rfl, forall_mem_nil _⟩, fun h => h.1⟩
  -- the number that an item takes makes no difference
  have hone : ∀ {d' : Declarations} (name' : String), d'.scope = d.scope → d'.faults = d.faults →
      (d'.Clean registry ∧ name' ∉ d'.names ↔
        d.Clean registry ∧ true = true ∧ ∀ name ∈ [name'], name ∉ d.names) := by
    intro d' name' hscope hfaults
    rw [clean_congr hscope hfaults, names, hscope, forall_mem_singleton]
    exact ⟨fun h => ⟨h.1, rfl, h.2⟩, fun h => ⟨h.1, h.2.2⟩⟩
  cases item with
  | function decl =>
    rw [addItem, Item.declaredNames]
    split
    · rw [addFunction, clean_define_iff]
      exact hone decl.id.name rfl rfl
    · exact hnone
  | const decl =>
    rw [addItem, addConst, Item.declaredNames, Item.isDeclarable]
    split
    · next value hvalue =>
      rw [clean_define_iff, hvalue]
      exact hone decl.id.name rfl rfl
    · next hvalue =>
      rw [hvalue]
      exact iff_of_false (hreport _) fun h => Bool.false_ne_true h.2.1
  | static decl =>
    rw [addItem, addStatic, clean_define_iff, Item.declaredNames]
    exact hone decl.id.name rfl rfl
  | other kind span => exact iff_of_false (hreport _) fun h => Bool.false_ne_true h.2.1
  | _ => exact hnone

/-- `addItem` takes the `declaredNames` of the item. -/
theorem names_addItem (d : Declarations) (item : Item) (h : (d.addItem item).Clean registry) :
    (d.addItem item).names = d.names ++ item.declaredNames := by
  cases item with
  | function decl =>
    rw [addItem] at h ⊢
    rw [Item.declaredNames]
    split at h
    · next hbody =>
      rw [if_pos hbody, if_pos hbody]
      exact names_define h
    · next hbody =>
      rw [if_neg hbody, if_neg hbody, append_nil]
  | const decl =>
    obtain ⟨value, hvalue⟩ :=
      Option.isSome_iff_exists.mp ((clean_addItem_iff d (.const decl)).mp h).2.1
    simp only [addItem, addConst, hvalue] at h ⊢
    exact names_define h
  | static decl => exact names_define h
  | other kind span =>
    exact absurd ((clean_addItem_iff d (.other kind span)).mp h).2.1 Bool.false_ne_true
  | _ => exact (append_nil _).symm

theorem nodup_declaredNames (item : Item) : item.declaredNames.Nodup := by
  cases item with
  | function decl =>
    rw [Item.declaredNames]
    split
    · exact nodup_singleton _
    · exact nodup_nil
  | const decl => exact nodup_singleton _
  | static decl => exact nodup_singleton _
  | _ => exact nodup_nil

/-- The `Symbol`s of the functions and static variables, by number. -/
def numberedSymbols (d : Declarations) : List Symbol :=
  d.functions.mapIdx FunctionDecl.symbol ++ d.statics.mapIdx StaticDecl.symbol

theorem perm_insert {symbols before after : List Symbol} (h : symbols.Perm (before ++ after))
    (symbol : Symbol) : (symbols ++ [symbol]).Perm (before ++ symbol :: after) :=
  (perm_append_singleton symbol symbols).trans
    ((h.cons symbol).trans perm_middle.symm)

/-- `addItem` adds the symbol of an item to those of its kind. -/
theorem symbols_addItem {item : Item} (h : (d.addItem item).Clean registry)
    {constants : List Symbol} (hd : d.symbols.Perm (d.numberedSymbols ++ constants)) :
    (d.addItem item).symbols.Perm
      ((d.addItem item).numberedSymbols ++ (constants ++ item.constantSymbols)) := by
  have hsame : d.symbols.Perm (d.numberedSymbols ++ (constants ++ [])) := by
    rw [append_nil]
    exact hd
  cases item with
  | function decl =>
    rw [addItem] at h ⊢
    show List.Perm _ (_ ++ (constants ++ []))
    split at h
    · next hbody =>
      rw [numberedSymbols, append_assoc] at hsame
      have hperm := perm_insert hsame (decl.symbol d.functions.length)
      rw [if_pos hbody, addFunction, symbols_define h, numberedSymbols, functions_define,
        statics_define, mapIdx_concat, append_assoc, append_assoc]
      exact hperm
    · next hbody =>
      rw [if_neg hbody]
      exact hsame
  | const decl =>
    obtain ⟨value, hvalue⟩ :=
      Option.isSome_iff_exists.mp ((clean_addItem_iff d (.const decl)).mp h).2.1
    simp only [addItem, addConst, hvalue, Item.constantSymbols] at h ⊢
    rw [symbols_define h, numberedSymbols, functions_define, statics_define, ← append_assoc]
    exact hd.append_right _
  | static decl =>
    show List.Perm _ (_ ++ (constants ++ []))
    have hperm := perm_insert hsame (decl.symbol d.statics.length)
    rw [numberedSymbols, append_assoc] at hperm
    rw [addItem, addStatic, symbols_define h, numberedSymbols, functions_define, statics_define,
      mapIdx_concat, append_assoc, append_assoc]
    exact hperm
  | other kind span =>
    exact absurd ((clean_addItem_iff d (.other kind span)).mp h).2.1 Bool.false_ne_true
  | _ => exact hsame

-- the induction is on the items; `constants` are the symbols of the constants before them
/-- The symbols of items are those of functions and static variables, by number, and those of
constants. -/
theorem symbols_foldl : ∀ {items : List Item} {d : Declarations} (constants : List Symbol),
    (items.foldl addItem d).Clean registry → d.symbols.Perm (d.numberedSymbols ++ constants) →
    (items.foldl addItem d).symbols.Perm ((items.foldl addItem d).numberedSymbols ++
      (constants ++ items.flatMap Item.constantSymbols))
  | [], _, _, _, hd => by
    rw [flatMap_nil, append_nil]
    exact hd
  | item :: rest, d, constants, h, hd => by
    have hfirst : (d.addItem item).Clean registry :=
      clean_of_foldl (fun d item hd => ((clean_addItem_iff d item).mp hd).1) h
    rw [foldl_cons] at h ⊢
    rw [flatMap_cons, ← append_assoc constants]
    exact symbols_foldl _ h (symbols_addItem hfirst hd)

end Declarations

/-! ## Programs -/

open Declarations

/-- The `Symbol` of the function that fills the static slots. -/
def Program.initializerSymbols (p : Program) : List Symbol :=
  match p.statics with
  | [] => []
  | first :: _ =>
    [⟨initializerName, builtinScope + 1, first.span, .function p.functions.length 0 false⟩]

section OneOrder

variable {registry : Registry} {p : Program}

theorem clean_root : Clean registry { scope := Scope.root "global" registry } :=
  ⟨rfl, rfl, rfl, rfl⟩

theorem names_root :
    names { scope := Scope.root "global" registry } = registry.symbols.map Named.name :=
  append_nil _

/-- Without faults the global scope is `Clean`. -/
theorem clean_of_faults (h : (declare registry p).faults = []) :
    (declare registry p).Clean registry := by
  have hextends := (extends_declareItems registry p).trans (extends_declare registry p)
  exact ⟨h, hextends.builtins_eq, hextends.inner_eq, hextends.id_eq⟩

/-- `declareItems` reports nothing if all items can be declared, and their names are new and
distinct. -/
theorem clean_declareItems_iff (hregistry : (registry.symbols.map Named.name).Nodup) :
    (declareItems registry p).Clean registry ↔ (∀ item ∈ p.items, item.isDeclarable) ∧
      (registry.symbols.map Named.name ++ p.items.flatMap Item.declaredNames).Nodup := by
  have hfold := clean_foldl_iff (C := Clean registry) clean_addItem_iff names_addItem
    nodup_declaredNames p.items { scope := Scope.root "global" registry }
    (names_root ▸ hregistry)
  rw [names_root] at hfold
  exact hfold.trans ⟨fun h => h.2, fun h => ⟨clean_root, h⟩⟩

theorem names_declareItems (h : (declareItems registry p).Clean registry) :
    (declareItems registry p).names =
      registry.symbols.map Named.name ++ p.items.flatMap Item.declaredNames := by
  have hfold := foldl_adds (fun d item hd => ((clean_addItem_iff d item).mp hd).1) names_addItem h
  rw [names_root] at hfold
  exact hfold

/-- What the functions, static variables and constants of a program are declared as. -/
theorem symbols_declareItems (h : (declareItems registry p).Clean registry) :
    (declareItems registry p).symbols.Perm
      (p.functions.mapIdx FunctionDecl.symbol ++ p.statics.mapIdx StaticDecl.symbol ++
        p.items.flatMap Item.constantSymbols) := by
  have hfunctions := functions_declareItems registry p
  have hfold := symbols_foldl [] h (List.Perm.refl _)
  have hnumbered : (declareItems registry p).numberedSymbols =
      p.functions.mapIdx FunctionDecl.symbol ++ p.statics.mapIdx StaticDecl.symbol := by
    rw [numberedSymbols, hfunctions, statics_declareItems]
  rw [← hnumbered]
  exact hfold

/-- What the function that fills the static slots adds to the items. -/
theorem declare_cases (registry : Registry) (p : Program) :
    (p.statics = [] ∧ declare registry p = declareItems registry p) ∨
      ∃ first rest, p.statics = first :: rest ∧
        declare registry p =
          { declareItems registry p with initializer := some p.functions.length }.define
            initializerName first.span (.function p.functions.length 0 false) := by
  have hfunctions := functions_declareItems registry p
  rw [← hfunctions, ← statics_declareItems registry p]
  show (_ ∧ (declareItems registry p).addInitializer = _) ∨
    ∃ first rest, _ ∧ (declareItems registry p).addInitializer = _
  unfold addInitializer
  split
  · next hnone => exact .inl ⟨hnone, rfl⟩
  · next first rest hsome => exact .inr ⟨first, rest, hsome, rfl⟩

/-- `declare` reports nothing if `declareItems` does not and the name of the initializer is free. -/
theorem clean_declare_iff : (declare registry p).Clean registry ↔
    (declareItems registry p).Clean registry ∧
      ∀ symbol ∈ p.initializerSymbols, symbol.name ∉ (declareItems registry p).names := by
  unfold Program.initializerSymbols
  rcases declare_cases registry p with ⟨hstatics, heq⟩ | ⟨first, rest, hstatics, heq⟩
  · rw [heq, hstatics]
    exact ⟨fun h => ⟨h, forall_mem_nil _⟩, fun h => h.1⟩
  · rw [heq, hstatics, clean_define_iff, forall_mem_singleton]
    exact and_congr_left fun _ => clean_congr rfl rfl

theorem symbols_declare (h : (declare registry p).Clean registry) :
    (declare registry p).symbols = (declareItems registry p).symbols ++ p.initializerSymbols := by
  unfold Program.initializerSymbols
  rcases declare_cases registry p with ⟨hstatics, heq⟩ | ⟨first, rest, hstatics, heq⟩
  · rw [heq, hstatics, append_nil]
  · rw [heq] at h
    rw [heq, hstatics, symbols_define h]
    rfl

/-- Every global name is defined once. -/
theorem nodup_declare (hregistry : (registry.symbols.map Named.name).Nodup)
    (h : (declare registry p).Clean registry) :
    ((declare registry p).symbols.map Named.name).Nodup := by
  obtain ⟨hitems, hnew⟩ := clean_declare_iff.mp h
  have hnames : (declareItems registry p).names.Nodup := by
    rw [names_declareItems hitems]
    exact ((clean_declareItems_iff hregistry).mp hitems).2
  rw [symbols_declare h, map_append, nodup_append]
  refine ⟨(nodup_append.mp hnames).2.1, ?_, fun name hname name' hname' heq => ?_⟩
  · unfold Program.initializerSymbols
    split
    · exact nodup_nil
    · exact nodup_singleton _
  · obtain ⟨symbol, hsymbol, rfl⟩ := mem_map.mp hname'
    exact hnew symbol hsymbol (mem_append_right _ (heq ▸ hname))

theorem statics_declare (registry : Registry) (p : Program) :
    (declare registry p).statics = p.statics := by
  rcases declare_cases registry p with ⟨-, heq⟩ | ⟨first, rest, -, heq⟩
  · rw [heq, statics_declareItems]
  · rw [heq, statics_define]
    exact statics_declareItems registry p

end OneOrder

/-! ## Another order -/

namespace Program.Reorders

variable {p p' : Program} (h : p.Reorders p') {registry registry' : Registry}
include h

theorem initializerSymbols_eq : p'.initializerSymbols = p.initializerSymbols := by
  unfold initializerSymbols
  rw [h.statics_eq, h.functions_eq]

/-- `Reorders` keeps the number of the initializer. -/
theorem initializer_eq :
    (declare registry' p').initializer = (declare registry p).initializer := by
  rcases declare_cases registry p with ⟨hnone, heq⟩ | ⟨first, rest, hsome, heq⟩
  · rcases declare_cases registry' p' with ⟨-, heq'⟩ | ⟨first', rest', hsome', -⟩
    · rw [heq, heq', initializer_declareItems, initializer_declareItems]
    · cases hnone.symm.trans (h.statics_eq.symm.trans hsome')
  · rcases declare_cases registry' p' with ⟨hnone', -⟩ | ⟨first', rest', hsome', heq'⟩
    · cases hsome.symm.trans (h.statics_eq.symm.trans hnone')
    · rw [heq, heq', initializer_define, initializer_define, h.functions_eq]

/-- Items in another order are declared without a fault, over the same names of the host, and give
the same names. -/
theorem clean_declare (hregistry : registry'.symbols.Perm registry.symbols)
    (hnodup : (registry.symbols.map Named.name).Nodup)
    (hclean : (declare registry p).Clean registry) :
    (declare registry' p').Clean registry' ∧
      (declare registry' p').symbols.Perm (declare registry p).symbols := by
  have hnodup' : (registry'.symbols.map Named.name).Nodup :=
    (hregistry.map Named.name).nodup_iff.mpr hnodup
  obtain ⟨hitems, hinitializer⟩ := clean_declare_iff.mp hclean
  have hnames := (hregistry.map Named.name).append
    (h.items_perm.flatMap_right Item.declaredNames)
  have hitems' : (declareItems registry' p').Clean registry' := by
    obtain ⟨hdeclarable, hdistinct⟩ := (clean_declareItems_iff hnodup).mp hitems
    exact (clean_declareItems_iff hnodup').mpr
      ⟨fun item hitem => hdeclarable item (h.items_perm.mem_iff.mp hitem),
        hnames.nodup_iff.mpr hdistinct⟩
  have hclean' : (declare registry' p').Clean registry' := by
    refine clean_declare_iff.mpr ⟨hitems', fun symbol hsymbol hmem => ?_⟩
    rw [h.initializerSymbols_eq] at hsymbol
    rw [names_declareItems hitems', hnames.mem_iff, ← names_declareItems hitems] at hmem
    exact hinitializer symbol hsymbol hmem
  refine ⟨hclean', ?_⟩
  rw [symbols_declare hclean, symbols_declare hclean', h.initializerSymbols_eq]
  refine List.Perm.append_right _ ?_
  have hperm := symbols_declareItems hitems'
  rw [h.functions_eq, h.statics_eq] at hperm
  have hconstants := h.items_perm.flatMap_right Item.constantSymbols
  exact (hperm.trans (hconstants.append_left _)).trans (symbols_declareItems hitems).symm

end Program.Reorders

end ContractScript
