import ContractScript.Proofs.DeclarationOrder
import ContractScript.Proofs.Independence

/-!
# Items in another order

Of the order of the items of a program a contract shows that of functions with a body, of static
variables and of events. If these orders are kept, and no two interfaces have one name, the program
compiles to the same contract.
-/

namespace ContractScript

open Lower

/-! ## Equal tables -/

/-- Equal tables go together. -/
def exactly : TokenPairing where
  tables := Eq
  indices _ _ := Eq
  spent _ := False
  mono _ _ _ h := h
  add {t t'} token h := by
    subst h
    cases hadd : (t.add token).1 with
    | some i => exact .inl ⟨i, i, rfl, rfl, rfl, rfl⟩
    | none => exact .inr (.inl ⟨rfl, rfl⟩)

theorem plain_exactly (op : Operation) : exactly.Plain op := by
  intro t t'
  cases op with
  | callToken i => exact .token rfl
  | _ => exact .same rfl

/-- Routines over equal indices are equal. -/
theorem Routine.Alike.eq {r r' : Routine} (h : r.Alike Eq r') : r' = r := by
  obtain ⟨ops, rfl, hops⟩ := h
  have heq : r.ops = ops := by
    rw [← List.forall₂_eq_eq_eq]
    refine hops.imp fun op op' hop => ?_
    obtain ⟨hoperation, hlocation⟩ := hop
    obtain ⟨operation, location⟩ := op
    obtain ⟨operation', location'⟩ := op'
    cases hlocation
    cases hoperation with
    | same => rfl
    | token hindex => rw [hindex]
  rw [← heq]

/-! ## Runs over the same names -/

/-- Runs that cannot be told apart. -/
structure Lowering.Same (l l' : Lowering) : Prop where
  scope : l.scope.Alike exactly.Plain l'.scope
  tokens_eq : l.tokens = l'.tokens
  routines_eq : l.routines = l'.routines
  faults_eq : l.faults = l'.faults

namespace Lowering.Same

variable {l l' : Lowering} (h : l.Same l')
include h

theorem start (id : FunctionId) (name : String) :
    (l.start id name).Alike exactly (l'.start id name) :=
  ⟨⟨#[], rfl, .nil⟩, h.scope, h.tokens_eq⟩

/-- `collect` keeps runs the `Same`. -/
theorem collect {result result' : EStateM.Result Diagnostic LowerState Routine}
    (hends : Ends exactly (RoutinesAlike exactly) result result') :
    (l.collect result).Same (l'.collect result') := by
  cases hends with
  | ok hr hs =>
    have hroutine := Routine.Alike.eq hr
    subst hroutine
    exact ⟨hs.scope, hs.tables, congrArg (· ++ _) h.routines_eq, h.faults_eq⟩
  | error hs => exact ⟨hs.scope, hs.tables, h.routines_eq, congrArg (· ++ _) h.faults_eq⟩
  | spentLeft hspent => exact hspent.elim
  | spentRight hspent => exact hspent.elim

omit h in
theorem addFunctions : ∀ {l l' : Lowering} (_ : l.Same l') (id : FunctionId)
    (decls : List FunctionDecl), (l.addFunctions id decls).Same (l'.addFunctions id decls)
  | _, _, h, _, [] => h
  | _, _, h, id, decl :: rest =>
    addFunctions (h.collect (lowerFunction_agree decl (h.start id decl.id.name))) (id + 1) rest

end Lowering.Same

/-- `lowerStatics` does the same twice, with the same faults. -/
theorem lowerStatics_alike : ∀ (statics : List StaticDecl) (index : Nat) {s s' : LowerState},
    s.Alike exactly s' →
    (lowerStatics statics index s).1 = (lowerStatics statics index s').1 ∧
      (lowerStatics statics index s).2.Alike exactly (lowerStatics statics index s').2
  | [], _, _, _, hs => ⟨rfl, hs⟩
  | decl :: rest, index, s, s', hs => by
    have hstatic := lowerStatic_agree decl index s s' hs
    rw [lowerStatics, lowerStatics]
    generalize lowerStatic decl index s = result at hstatic ⊢
    generalize lowerStatic decl index s' = result' at hstatic ⊢
    cases hstatic with
    | ok _ ht => exact lowerStatics_alike rest (index + 1) ht
    | error ht =>
      obtain ⟨hfaults, hstate⟩ := lowerStatics_alike rest (index + 1) ht
      exact ⟨congrArg (_ :: ·) hfaults, hstate⟩
    | spentLeft hspent => exact hspent.elim
    | spentRight hspent => exact hspent.elim

/-- The initializer is the `Same` in both runs. -/
theorem Lowering.Same.addInitializer {l l' : Lowering} (h : l.Same l') (id : FunctionId)
    (statics : List StaticDecl) :
    (l.addInitializer id statics).Same (l'.addInitializer id statics) := by
  have hstart := h.start id initializerName
  have hopened : LowerState.Alike exactly
      { l.start id initializerName with
        draft := (l.start id initializerName).draft.emit (.initStatics statics.length) }
      { l'.start id initializerName with
        draft := (l'.start id initializerName).draft.emit (.initStatics statics.length) } :=
    ⟨hstart.draft.emitAt (.same rfl) none, hstart.scope, hstart.tables⟩
  obtain ⟨hfaults, hstate⟩ := lowerStatics_alike statics 0 hopened
  rw [Lowering.addInitializer, Lowering.addInitializer]
  dsimp only
  rw [← hfaults]
  have hreported : Same { l with faults := l.faults ++ (lowerStatics statics 0
        { l.start id initializerName with
          draft := (l.start id initializerName).draft.emit (.initStatics statics.length) }).1 }
      { l' with faults := l'.faults ++ (lowerStatics statics 0
        { l.start id initializerName with
          draft := (l.start id initializerName).draft.emit (.initStatics statics.length) }).1 } :=
    ⟨h.scope, h.tokens_eq, h.routines_eq, congrArg (· ++ _) h.faults_eq⟩
  refine hreported.collect ((finishDraft_agree hstate).bind fun r r' t t' hr ht => ?_)
  obtain ⟨ops, rfl, hops⟩ := hr
  exact .ok ⟨ops, rfl, hops⟩ ht

/-- `lowerProgram` does the same for declarations with the same names, functions and static
variables. -/
theorem lowerProgram_same {d d' : Declarations} (hscope : d.scope.Alike exactly.Plain d'.scope)
    (hfunctions : d'.functions = d.functions) (hstatics : d'.statics = d.statics)
    (hinitializer : d'.initializer = d.initializer) :
    (lowerProgram d).Same (lowerProgram d') := by
  have hrun : Lowering.Same { scope := d.scope } { scope := d'.scope } := ⟨hscope, rfl, rfl, rfl⟩
  unfold lowerProgram
  rw [hfunctions, hstatics, hinitializer]
  dsimp only
  split
  · exact hrun.addFunctions 0 d.functions
  · exact (hrun.addFunctions 0 d.functions).addInitializer _ d.statics

/-! ## Programs -/

/-- Tables of distinct names stand for the same in any order. -/
theorem symbolsAlike_perm {symbols symbols' : List Symbol} (h : symbols'.Perm symbols)
    (hnodup : (symbols.map Named.name).Nodup) : SymbolsAlike exactly.Plain symbols symbols' := by
  intro name
  rw [← findSymbol_perm h.symm hnodup]
  exact symbolsAlike_refl (fun _ _ op _ => plain_exactly op) name

/-- The documents of a script depend on the files of its program only. -/
theorem artifacts_of_files (a : Assembly) {p : Program} (h : p.files = a.program.files)
    (withDebug : Bool) : { a with program := p }.artifacts withDebug = a.artifacts withDebug := by
  obtain ⟨name, ⟨files, items⟩, routines, script, events, statics⟩ := a
  obtain ⟨files', items'⟩ := p
  cases h
  rfl

/-- The stages before the script end in the same way for the items of a program in another order. -/
theorem Program.Reorders.lowered {p p' : Program} (h : p.Reorders p')
    (hnames : p.interfaceNames.Nodup) (hbound : (bindProgram p).2 = [])
    (hdeclared : p.declared.faults = []) :
    (bindProgram p').2 = [] ∧ (bindProgram p').1.events = (bindProgram p).1.events ∧
      p'.declared.faults = [] ∧ p.lowered.Same p'.lowered := by
  obtain ⟨hbound', hsymbols, hevents⟩ :=
    bindProgram_perm h.items_perm h.eventDecls_eq hnames hbound
  have hregistry := nodup_bindProgram hbound
  have hclean := clean_of_faults hdeclared
  obtain ⟨hclean', hglobals⟩ := h.clean_declare hsymbols hregistry hclean
  refine ⟨hbound', hevents, hclean'.faults_eq, lowerProgram_same ⟨?_, ?_, ?_⟩ ?_ ?_ ?_⟩
  · rw [hclean.inner_eq, hclean'.inner_eq]
    exact .nil
  · exact symbolsAlike_perm hglobals (nodup_declare hregistry hclean)
  · rw [hclean.builtins_eq, hclean'.builtins_eq]
    exact symbolsAlike_perm hsymbols hregistry
  · rw [functions_declare, functions_declare, h.functions_eq]
  · rw [statics_declare, statics_declare, h.statics_eq]
  · exact h.initializer_eq

/-- A program whose interfaces have distinct names compiles to the same contract in every order of
its items that it `Reorders` to: functions with a body, static variables and declarations of events
come one after the other as before. -/
theorem compile_reorders {p p' : Program} (h : p.Reorders p') (hnames : p.interfaceNames.Nodup)
    {options : CompileOptions} {contract : Contract} (hcompile : compile p options = .ok contract) :
    compile p' options = .ok contract := by
  obtain ⟨script, hcompiled⟩ := compiled_of_compile hcompile
  obtain ⟨hbound', hevents, hdeclared', hsame⟩ :=
    h.lowered hnames hcompiled.bound hcompiled.declared
  have hlowered' : p'.lowered.faults = [] := hsame.faults_eq ▸ hcompiled.lowered
  have hslots : p'.declared.staticSlots = p.declared.staticSlots := by
    rw [Declarations.staticSlots, Declarations.staticSlots, statics_declare, statics_declare,
      h.statics_eq]
  rw [← hcompile]
  unfold compile
  dsimp only
  rw [checkpoint_bind hcompiled.bound, checkpoint_bind hcompiled.declared,
    checkpoint_bind hcompiled.lowered, checkpoint_bind hbound', checkpoint_bind hdeclared',
    checkpoint_bind hlowered', ← hsame.tokens_eq, ← hsame.routines_eq, hevents, hslots]
  cases buildScript p.lowered.tokens p.lowered.routines options.optimize with
  | error faults => rfl
  | ok script =>
    -- of the program itself only the files are left
    have hartifacts := artifacts_of_files
      { name := options.name, program := p, routines := p.lowered.routines, script := script,
        events := (bindProgram p).1.events, statics := p.declared.staticSlots }
      h.files_eq options.debugInfo
    dsimp only
    rw [hartifacts]

/-- Items of every kind, in an order in which every name is used after its item. -/
def counter : Program where
  files := [⟨0, "counter.ts"⟩]
  items := [
    .const ⟨⟨"first", {}⟩, .integer, .literal (.int 3) .integer {}, {}⟩,
    .interface ⟨⟨"Units", {}⟩,
      [⟨⟨"one", {}⟩, .property, [], .integer,
        [⟨"methodToken", "0x0000000000000000000000000000000000000000", {}⟩], {}⟩], [], {}⟩,
    .object ⟨⟨"units", {}⟩, ⟨"Units", {}⟩, {}⟩,
    .function {
      id := ⟨"counted", {}⟩, params := [⟨⟨"count", {}⟩, .integer, {}⟩], returnType := .void
      body := none, isExport := false, isSafe := false, tags := [⟨"event", "", {}⟩], span := {} },
    .static ⟨⟨"count", {}⟩, .integer, some (.ident ⟨"first", {}⟩ .integer {}), {}⟩,
    .function {
      id := ⟨"next", {}⟩, params := [], returnType := .void
      body := some ⟨[.expr (.assign (some .add) (.ident ⟨"count", {}⟩ .integer {})
        (.member (.ident ⟨"units", {}⟩ .any {}) ⟨"one", {}⟩ .integer {}) {}) {}], {}⟩
      isExport := true, isSafe := false, tags := [], span := {} }]

/-- What the host provides to them. -/
def counterRegistry : Registry :=
  let one : Symbol := ⟨"one", builtinScope, {}, .method ⟨.zero, "one", 0, true, .all, true⟩⟩
  { symbols := [⟨"counted", builtinScope, {}, .event "counted" 1⟩,
      ⟨"units", builtinScope, {}, .object [one]⟩]
    interfaces := [("Units", [one])]
    events := [⟨"counted", [⟨"count", .integer⟩]⟩] }

theorem bindProgram_counter : bindProgram counter = (counterRegistry, []) := by
  rfl

/-- The same items from the last to the first. -/
def counterReversed : Program :=
  { counter with items := counter.items.reverse }

theorem compile_reorders_counter : ∃ contract,
    counter.Reorders counterReversed ∧ counter.interfaceNames.Nodup ∧
      compile counter {} = .ok contract ∧ compile counterReversed {} = .ok contract := by
  have hreorders : counter.Reorders counterReversed :=
    ⟨rfl, List.reverse_perm _, rfl, rfl, rfl⟩
  have hnames : counter.interfaceNames.Nodup := List.nodup_singleton "Units"
  obtain ⟨contract, hcontract⟩ : ∃ contract, compile counter {} = .ok contract := by
    refine exists_compile ?_ ?_ ?_ ?_
    · rw [bindProgram_counter]
    all_goals
      simp only [Program.lowered, Program.declared, bindProgram_counter]
      cbv
  exact ⟨contract, hreorders, hnames, hcontract, compile_reorders hreorders hnames hcontract⟩

end ContractScript
