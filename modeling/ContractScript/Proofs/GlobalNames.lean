import ContractScript.Proofs.BinderSteps
import ContractScript.Proofs.Variables
import ContractScript.Symbol.Declarations

/-!
# What global names stand for

The global scope is filled item by item: the first item that defines a name counts, and a name of
the host cannot be defined at all. So a name stands for what it means in the program.
-/

namespace ContractScript

open List

variable {V : Type} {symbol : Symbol} {d : Declarations} {name : String}

/-! ## Names of the host -/

/-- No name of a `Registry` has a value. -/
def ValueFree (r : Registry) : Prop :=
  ∀ symbol ∈ r.symbols, symbol.definition.hasValue = false

theorem stands_of_not_hasValue {I : Interpretation V} (h : symbol.definition.hasValue = false)
    (count : Nat) (global : Option (Global V)) : Stands I count symbol global := by
  refine ⟨fun _ _ _ hdef => ?_, fun _ hdef => ?_⟩
  · rw [hdef] at h
    cases h
  · rw [hdef] at h
    cases h

/-- `bindProgram` provides calls, methods and events, which have no value. -/
theorem valueFree_bindProgram (p : Program) : ValueFree (bindProgram p).1 := by
  have hlawful : Binder.Lawful fun b => ValueFree b.registry := by
    refine ⟨fun _ hb => hb, fun _ hb => hb, fun symbol hsymbol hb => ?_, fun _ hb => hb,
      fun _ _ _ hb => hb⟩
    exact forall_mem_append.mpr
      ⟨hb, forall_mem_singleton.mpr (hasValue_of_offers hsymbol)⟩
  obtain ⟨b, hb, heq⟩ := hlawful.bindProgram (forall_mem_nil _) p
  rw [heq]
  exact hb

/-! ## The global scope -/

theorem findSymbol_append (symbols symbols' : List Symbol) (name : String) :
    findSymbol (symbols ++ symbols') name =
      (findSymbol symbols name).or (findSymbol symbols' name) :=
  find?_append

/-- What the next items do to the global `Scope`: what is defined stays defined, and a name of the
host stays undefined. -/
structure Scope.Extends (s s' : Scope) : Prop where
  builtins_eq : s'.builtins = s.builtins
  inner_eq : s'.inner = s.inner
  id_eq : s'.rootFrame.id = s.rootFrame.id
  found : ∀ {name symbol}, findSymbol s.rootFrame.symbols name = some symbol →
    findSymbol s'.rootFrame.symbols name = some symbol
  hidden : ∀ {name symbol}, s.builtins.lookup name = some symbol →
    findSymbol s.rootFrame.symbols name = none → findSymbol s'.rootFrame.symbols name = none

theorem Scope.Extends.refl (s : Scope) : Extends s s :=
  ⟨rfl, rfl, rfl, id, fun _ h => h⟩

theorem Scope.Extends.trans {s s' s'' : Scope} (h : Extends s s') (h' : Extends s' s'') :
    Extends s s'' := by
  refine ⟨h'.builtins_eq.trans h.builtins_eq, h'.inner_eq.trans h.inner_eq,
    h'.id_eq.trans h.id_eq, fun hfound => h'.found (h.found hfound), fun hbuiltin hfree => ?_⟩
  exact h'.hidden (h.builtins_eq ▸ hbuiltin) (h.hidden hbuiltin hfree)

namespace Declarations

/-- `define` adds a symbol unless its name is taken. -/
theorem define_cases (hinner : d.scope.inner = []) (name : String) (span : Span)
    (definition : Definition) : (∃ symbol, symbol.name = name ∧ symbol.definition = definition ∧
      (d.define name span definition).scope = { d.scope with
        rootFrame := { d.scope.rootFrame with
          symbols := d.scope.rootFrame.symbols ++ [symbol] } } ∧
      d.scope.builtins.lookup name = none) ∨
    ((d.define name span definition).scope = d.scope ∧
      ((findSymbol d.scope.rootFrame.symbols name).isSome ∨
        (d.scope.builtins.lookup name).isSome)) := by
  have htaken : d.scope.isTaken name = ((findSymbol d.scope.rootFrame.symbols name).isSome ||
      (d.scope.builtins.lookup name).isSome) := by
    rw [Scope.isTaken, Scope.frame, hinner]
    rfl
  rw [define, Scope.defineAs_eq]
  cases h : d.scope.isTaken name with
  | true =>
    rw [htaken, Bool.or_eq_true] at h
    exact .inr ⟨rfl, h⟩
  | false =>
    rw [htaken, Bool.or_eq_false_iff] at h
    refine .inl ⟨⟨name, d.scope.frame.id, span, definition⟩, rfl, rfl, ?_, ?_⟩
    · show d.scope.push _ = _
      rw [Scope.push, hinner]
      dsimp only
      rw [hinner]
    · exact Option.isNone_iff_eq_none.mp (Option.isSome_eq_false_iff.mp h.2)

section

variable (d)

@[simp] theorem functions_define (name : String) (span : Span) (definition : Definition) :
    (d.define name span definition).functions = d.functions := by
  unfold define
  split <;> rfl

@[simp] theorem statics_define (name : String) (span : Span) (definition : Definition) :
    (d.define name span definition).statics = d.statics := by
  unfold define
  split <;> rfl

@[simp] theorem initializer_define (name : String) (span : Span) (definition : Definition) :
    (d.define name span definition).initializer = d.initializer := by
  unfold define
  split <;> rfl

/-- `define` only `Extends` the global scope. -/
theorem extends_define (hinner : d.scope.inner = []) (name : String) (span : Span)
    (definition : Definition) : Scope.Extends d.scope (d.define name span definition).scope := by
  obtain ⟨symbol, rfl, -, hscope, hbuiltin⟩ | ⟨hscope, -⟩ :=
    define_cases hinner name span definition
  · rw [hscope]
    refine ⟨rfl, rfl, rfl, fun hfound => ?_, fun {name'} _ hsome hfree => ?_⟩
    · rw [findSymbol_append, hfound]
      rfl
    · have hne : symbol.name ≠ name' := by
        rintro rfl
        cases hbuiltin.symm.trans hsome
      rw [findSymbol_append, hfree, Option.none_or]
      exact find?_cons_of_neg fun heq => hne (beq_iff_eq.mp heq)
  · rw [hscope]
    exact .refl _

/-- After `define` a free name is found if it is the one that was defined. -/
theorem findSymbol_define (hinner : d.scope.inner = [])
    (hfree : findSymbol d.scope.rootFrame.symbols name = none)
    (hbuiltin : d.scope.builtins.lookup name = none) (name' : String) (span : Span)
    (definition : Definition) : (name' ≠ name ∧
      findSymbol (d.define name' span definition).scope.rootFrame.symbols name = none) ∨
    (name' = name ∧ ∃ symbol, symbol.definition = definition ∧
      findSymbol (d.define name' span definition).scope.rootFrame.symbols name = some symbol) := by
  obtain ⟨symbol, rfl, hdef, hscope, -⟩ | ⟨hscope, htaken⟩ :=
    define_cases hinner name' span definition
  · rw [hscope, findSymbol_append, hfree, Option.none_or]
    by_cases hname : symbol.name = name
    · exact .inr ⟨hname, symbol, hdef, find?_cons_of_pos (beq_iff_eq.mpr hname)⟩
    · exact .inl ⟨hname, find?_cons_of_neg fun heq => hname (beq_iff_eq.mp heq)⟩
  · -- the name that was taken is another one
    refine .inl ⟨?_, hscope.symm ▸ hfree⟩
    rintro rfl
    rw [hfree, hbuiltin] at htaken
    exact absurd htaken (by decide)

/-- What an item adds to the declarations before it: nothing, a fault, or a name. -/
inductive Adds : Declarations → Prop where
  | nothing : Adds d
  | fault (fault : Diagnostic) : Adds (d.report fault)
  | function (decl : FunctionDecl) : Adds (d.addFunction decl)
  | constant (name : String) (span : Span) (value : Constant) :
    Adds (d.define name span (.constant value))
  | static (decl : StaticDecl) : Adds (d.addStatic decl)

/-- `addItem` does one of what `Adds` lists. -/
theorem adds_addItem (item : Item) : d.Adds (d.addItem item) := by
  cases item with
  | function decl =>
    rw [addItem]
    split
    · exact .function decl
    · exact .nothing
  | const decl =>
    rw [addItem, addConst]
    split
    · exact .constant _ _ _
    · exact .fault _
  | static decl => exact .static decl
  | interface decl => exact .nothing
  | object decl => exact .nothing
  | other kind span => exact .fault _

/-- `addItem` only `Extends` the global scope. -/
theorem extends_addItem (hinner : d.scope.inner = []) (item : Item) :
    Scope.Extends d.scope (d.addItem item).scope := by
  have hadds := adds_addItem d item
  generalize d.addItem item = d' at hadds ⊢
  cases hadds with
  | nothing => exact .refl _
  | fault fault => exact .refl _
  | function decl =>
    exact extends_define { d with functions := d.functions ++ [decl] } hinner _ _ _
  | constant name span value => exact extends_define d hinner _ _ _
  | static decl => exact extends_define { d with statics := d.statics ++ [decl] } hinner _ _ _

end

theorem extends_foldl : ∀ (items : List Item) (d : Declarations), d.scope.inner = [] →
    Scope.Extends d.scope (items.foldl addItem d).scope
  | [], d, _ => .refl _
  | item :: rest, d, hinner => by
    have hitem := extends_addItem d hinner item
    exact hitem.trans (extends_foldl rest (d.addItem item) (hitem.inner_eq.trans hinner))

/-- `literalValue?` is the value of the constant that is folded. -/
theorem literalValue?_eq (I : Interpretation V) (e : Expr) :
    I.literalValue? e = e.constant?.map I.constant := by
  unfold Interpretation.literalValue?
  split
  · rfl
  · exact congrArg some (I.unary_neg _)
  · next hliteral hneg =>
    have hnone : e.constant? = none := by
      unfold Expr.constant?
      split
      · exact absurd rfl (hliteral _ _ _)
      · exact absurd rfl (hneg _ _ _ _ _)
      · rfl
    rw [hnone]
    rfl

/-- An item defines a free name as what it means, or leaves it free. -/
theorem addItem_cases {I : Interpretation V} (hinner : d.scope.inner = [])
    (hfree : findSymbol d.scope.rootFrame.symbols name = none)
    (hbuiltin : d.scope.builtins.lookup name = none) (item : Item) (rest : List Item) :
    (findSymbol (d.addItem item).scope.rootFrame.symbols name = none ∧
      I.globalFrom name d.statics.length (item :: rest) =
        I.globalFrom name (d.addItem item).statics.length rest) ∨
    ∃ symbol, findSymbol (d.addItem item).scope.rootFrame.symbols name = some symbol ∧
      Stands I (d.addItem item).statics.length symbol
        (I.globalFrom name d.statics.length (item :: rest)) := by
  cases item with
  | function decl =>
    rw [addItem, Interpretation.globalFrom]
    by_cases hbody : decl.body.isSome = true
    · rw [if_pos hbody, addFunction, statics_define]
      rcases findSymbol_define { d with functions := d.functions ++ [decl] } hinner hfree hbuiltin
        decl.id.name decl.id.span
        (.function d.functions.length decl.params.length (!decl.returnType.isVoid)) with
        ⟨hne, hnone⟩ | ⟨heq, symbol, hdef, hfound⟩
      · exact .inl ⟨hnone, if_neg fun h => hne h.2⟩
      · exact .inr ⟨symbol, hfound, stands_of_not_hasValue (by rw [hdef]; rfl) _ _⟩
    · rw [if_neg hbody]
      exact .inl ⟨hfree, if_neg fun h => hbody h.1⟩
  | const decl =>
    rw [addItem, addConst, Interpretation.globalFrom, literalValue?_eq]
    cases hvalue : decl.value.constant? with
    | none => exact .inl ⟨hfree, rfl⟩
    | some c =>
      dsimp only [Option.map_some]
      rw [statics_define]
      rcases findSymbol_define d hinner hfree hbuiltin decl.id.name decl.id.span (.constant c) with
        ⟨hne, hnone⟩ | ⟨heq, symbol, hdef, hfound⟩
      · exact .inl ⟨hnone, if_neg hne⟩
      · refine .inr ⟨symbol, hfound, fun _ _ _ h => ?_, fun c' h => ?_⟩
        · cases hdef.symm.trans h
        · cases hdef.symm.trans h
          exact if_pos heq
  | static decl =>
    rw [addItem, addStatic, Interpretation.globalFrom, statics_define, length_append]
    rcases findSymbol_define { d with statics := d.statics ++ [decl] } hinner hfree hbuiltin
      decl.id.name decl.id.span (.slot .static d.statics.length true) with
      ⟨hne, hnone⟩ | ⟨heq, symbol, hdef, hfound⟩
    · exact .inl ⟨hnone, if_neg hne⟩
    · refine .inr ⟨symbol, hfound, fun kind index isMutable h => ?_, fun _ h => ?_⟩
      · cases hdef.symm.trans h
        exact ⟨rfl, Nat.lt_succ_self _, if_pos heq⟩
      · cases hdef.symm.trans h
  | interface decl => exact .inl ⟨hfree, rfl⟩
  | object decl => exact .inl ⟨hfree, rfl⟩
  | other kind span => exact .inl ⟨hfree, rfl⟩

/-! ## Numbers -/

/-- `addItem` numbers the functions in order. -/
theorem functions_addItem (d : Declarations) (item : Item) :
    (d.addItem item).functions = d.functions ++ Program.functions ⟨[], [item]⟩ := by
  cases item with
  | function decl =>
    by_cases hbody : decl.body.isSome = true
    · simp [addItem, addFunction, Program.functions, hbody]
    · simp [addItem, Program.functions, hbody]
  | const decl =>
    rw [addItem, addConst]
    split <;> simp [report, Program.functions]
  | static decl => simp [addItem, addStatic, Program.functions]
  | _ => simp [addItem, report, Program.functions]

theorem statics_addItem (d : Declarations) (item : Item) :
    (d.addItem item).statics = d.statics ++ Program.statics ⟨[], [item]⟩ := by
  cases item with
  | function decl =>
    by_cases hbody : decl.body.isSome = true
    · simp [addItem, addFunction, Program.statics, hbody]
    · simp [addItem, Program.statics, hbody]
  | const decl =>
    rw [addItem, addConst]
    split <;> simp [report, Program.statics]
  | static decl => simp [addItem, addStatic, Program.statics]
  | _ => simp [addItem, report, Program.statics]

theorem functions_foldl : ∀ (items : List Item) (d : Declarations),
    (items.foldl addItem d).functions = d.functions ++ Program.functions ⟨[], items⟩
  | [], d => (append_nil _).symm
  | item :: rest, d => by
    have happend : Program.functions ⟨[], item :: rest⟩ =
        Program.functions ⟨[], [item]⟩ ++ Program.functions ⟨[], rest⟩ :=
      filterMap_append (l := [item])
    rw [foldl_cons, functions_foldl rest, functions_addItem, happend, append_assoc]

theorem statics_foldl : ∀ (items : List Item) (d : Declarations),
    (items.foldl addItem d).statics = d.statics ++ Program.statics ⟨[], items⟩
  | [], d => (append_nil _).symm
  | item :: rest, d => by
    have happend : Program.statics ⟨[], item :: rest⟩ =
        Program.statics ⟨[], [item]⟩ ++ Program.statics ⟨[], rest⟩ :=
      filterMap_append (l := [item])
    rw [foldl_cons, statics_foldl rest, statics_addItem, happend, append_assoc]

theorem initializer_addItem (d : Declarations) (item : Item) :
    (d.addItem item).initializer = d.initializer := by
  have hadds := adds_addItem d item
  generalize d.addItem item = d' at hadds ⊢
  cases hadds with
  | nothing => rfl
  | fault fault => rfl
  | _ => exact initializer_define _ _ _ _

/-- The function that fills the static slots takes the next number. -/
theorem addInitializer_cases (d : Declarations) :
    d.addInitializer = d ∨ ∃ span, d.addInitializer =
      { d with initializer := some d.functions.length }.define initializerName span
        (.function d.functions.length 0 false) := by
  unfold addInitializer
  split
  · exact .inl rfl
  · exact .inr ⟨_, rfl⟩

/-! ## Meaning -/

/-- A name that items define `Stands` for what it means in them. -/
theorem stands_foldl {I : Interpretation V} {name : String} : ∀ (items : List Item)
    (d : Declarations), d.scope.inner = [] →
    findSymbol d.scope.rootFrame.symbols name = none → d.scope.builtins.lookup name = none →
    ∀ symbol, findSymbol (items.foldl addItem d).scope.rootFrame.symbols name = some symbol →
      Stands I (items.foldl addItem d).statics.length symbol
        (I.globalFrom name d.statics.length items)
  | [], d, _, hfree, _, symbol, hfound => by
    rw [foldl_nil, hfree] at hfound
    cases hfound
  | item :: rest, d, hinner, hfree, hbuiltin, symbol, hfound => by
    have hitem := extends_addItem d hinner item
    have hinner' := hitem.inner_eq.trans hinner
    rcases addItem_cases hinner hfree hbuiltin item rest with
      ⟨hfree', hglobal⟩ | ⟨symbol', hfound', hstands⟩
    · rw [hglobal]
      refine stands_foldl rest (d.addItem item) hinner' hfree' ?_ symbol hfound
      rw [hitem.builtins_eq]
      exact hbuiltin
    · -- the items after the first one that defines the name do not matter
      cases ((extends_foldl rest (d.addItem item) hinner').found hfound').symm.trans hfound
      refine hstands.mono ?_
      rw [foldl_cons, statics_foldl, length_append]
      exact Nat.le_add_right _ _

/-- The function that fills the static slots has no value. -/
theorem stands_addInitializer {I : Interpretation V} (hinner : d.scope.inner = [])
    (hfree : findSymbol d.scope.rootFrame.symbols name = none)
    (hbuiltin : d.scope.builtins.lookup name = none)
    (hfound : findSymbol d.addInitializer.scope.rootFrame.symbols name = some symbol)
    (count : Nat) (global : Option (Global V)) : Stands I count symbol global := by
  rcases addInitializer_cases d with heq | ⟨span, heq⟩
  · rw [heq, hfree] at hfound
    cases hfound
  · rw [heq] at hfound
    rcases findSymbol_define { d with initializer := some d.functions.length } hinner hfree
      hbuiltin initializerName span (.function d.functions.length 0 false) with
      ⟨-, hnone⟩ | ⟨-, symbol', hdef, hfound'⟩
    · cases hnone.symm.trans hfound
    · cases hfound'.symm.trans hfound
      exact stands_of_not_hasValue (by rw [hdef]; rfl) count global

end Declarations

open Declarations

/-- The global scope before the last function is declared. -/
def declareItems (registry : Registry) (p : Program) : Declarations :=
  p.items.foldl addItem { scope := Scope.root "global" registry }

section

variable (registry : Registry)

theorem functions_declareItems (p : Program) : (declareItems registry p).functions = p.functions :=
  functions_foldl p.items _

/-- `declare` lists the functions of the program in order. -/
theorem functions_declare (p : Program) : (declare registry p).functions = p.functions := by
  have hitems := functions_declareItems registry p
  show (declareItems registry p).addInitializer.functions = _
  rcases addInitializer_cases (declareItems registry p) with heq | ⟨span, heq⟩
  · rw [heq, hitems]
  · rw [heq, functions_define, hitems]

/-- Static variables are numbered in order. -/
theorem statics_declareItems (p : Program) : (declareItems registry p).statics = p.statics :=
  statics_foldl p.items _

theorem initializer_declareItems (p : Program) : (declareItems registry p).initializer = none :=
  List.foldlRecOn (motive := fun d : Declarations => d.initializer = none) p.items _ rfl
    fun d hd item _ => (initializer_addItem d item).trans hd

end

/-- The function that fills the static slots comes after all others. -/
theorem initializer_declare {registry : Registry} {p : Program} {id : FunctionId}
    (h : (declare registry p).initializer = some id) : id = p.functions.length := by
  have hitems := functions_declareItems registry p
  have hnone := initializer_declareItems registry p
  rcases addInitializer_cases (declareItems registry p) with heq | ⟨span, heq⟩
  · cases hnone.symm.trans ((congrArg initializer heq).symm.trans h)
  · have hid := (congrArg initializer heq).symm.trans h
    rw [initializer_define] at hid
    cases hid
    rw [hitems]

section

variable (registry : Registry)

theorem extends_declareItems (p : Program) :
    Scope.Extends (Scope.root "global" registry) (declareItems registry p).scope :=
  extends_foldl p.items { scope := Scope.root "global" registry } rfl

/-- The initializer only `Extends` the scope of the items. -/
theorem extends_declare (p : Program) :
    Scope.Extends (declareItems registry p).scope (declare registry p).scope := by
  show Scope.Extends _ (declareItems registry p).addInitializer.scope
  rcases addInitializer_cases (declareItems registry p) with heq | ⟨span, heq⟩
  · rw [heq]
    exact .refl _
  · rw [heq]
    let d := declareItems registry p
    exact extends_define { d with initializer := some d.functions.length }
      (extends_declareItems registry p).inner_eq _ _ _

theorem inner_declare (p : Program) : (declare registry p).scope.inner = [] :=
  (extends_declare registry p).inner_eq.trans (extends_declareItems registry p).inner_eq

end

/-- Every global name of a program stands for what it means: `declare` `Describes` its `globals`. -/
theorem describes_declare (I : Interpretation V) (p : Program) :
    Describes I (I.globals p) p.statics.length (declare (bindProgram p).1 p).scope := by
  have hitems := extends_declareItems (bindProgram p).1 p
  have hall := hitems.trans (extends_declare (bindProgram p).1 p)
  intro name symbol hfind
  rw [hall.builtins_eq] at hfind
  have hroot : (Scope.root "global" (bindProgram p).1).builtins = (bindProgram p).1 := rfl
  rw [hroot] at hfind
  cases hbuiltin : (bindProgram p).1.lookup name with
  | some builtin =>
    -- a name of the host is no name of the program
    rw [hall.hidden hbuiltin rfl, hbuiltin] at hfind
    cases hfind
    have hfree := valueFree_bindProgram p symbol (mem_of_find?_eq_some hbuiltin)
    exact stands_of_not_hasValue hfree _ _
  | none =>
    rw [hbuiltin] at hfind
    have hdeclared : findSymbol (declare (bindProgram p).1 p).scope.rootFrame.symbols name =
        some symbol := by
      cases hsymbol : findSymbol (declare (bindProgram p).1 p).scope.rootFrame.symbols name with
      | none =>
        rw [hsymbol] at hfind
        cases hfind
      | some symbol' =>
        rw [hsymbol] at hfind
        exact hfind
    cases hitem : findSymbol (declareItems (bindProgram p).1 p).scope.rootFrame.symbols name with
    | some symbol' =>
      -- an item defines the name, and what is declared after it does not change that
      cases ((extends_declare (bindProgram p).1 p).found hitem).symm.trans hdeclared
      have hstands := stands_foldl (I := I) p.items
        { scope := Scope.root "global" (bindProgram p).1 } rfl rfl hbuiltin symbol hitem
      rw [← statics_declareItems (bindProgram p).1 p]
      exact hstands
    | none =>
      refine stands_addInitializer hitems.inner_eq hitem ?_ hdeclared _ _
      rw [hitems.builtins_eq]
      exact hbuiltin

end ContractScript
