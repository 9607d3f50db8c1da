import ContractScript.Proofs.NeverRejected
import ContractScript.Proofs.Provenance
import ContractScript.Proofs.UsedSymbols

/-!
# The code of a program

A program that compiles has no faults at any stage. So each of its functions is lowered, in the
order of their numbers, and the operations of each are those that the rules of constructs give for
its declaration. The operations are then found in the script.
-/

namespace ContractScript

open List

variable {faults : List Diagnostic} {p : Program} {options : CompileOptions} {l : Lowering}
  {r : Routine} {routines : List Routine} {ps : List Piece} {tokens before after : TokenTable}
  {k j : Nat} {op : Op} {optimize : Bool} {script : Script}

open Lower

/-- The global scope of a `Program`. -/
abbrev Program.declared (p : Program) : Declarations :=
  declare (bindProgram p).1 p

/-- The functions of a `Program`, lowered. -/
abbrev Program.lowered (p : Program) : Lowering :=
  lowerProgram p.declared

/-! ## Stages -/

/-- A contract of a `Program`, with the script that its functions become. -/
structure Compiled (p : Program) (options : CompileOptions) (contract : Contract)
    (script : Script) : Prop where
  bound : (bindProgram p).2 = []
  declared : p.declared.faults = []
  lowered : p.lowered.faults = []
  built : buildScript p.lowered.tokens p.lowered.routines options.optimize = .ok script
  script_eq : contract.script = script.bytes
  methods_eq : contract.methods = script.methods
  tokens_eq : contract.tokens = p.lowered.tokens.tokens.toList

theorem checkpoint_eq_ok (h : checkpoint faults = .ok ()) : faults = [] := by
  unfold checkpoint Log.checkpoint at h
  split at h
  · next hempty => exact List.isEmpty_iff.mp hempty
  · cases h

theorem checkpoint_bind {α : Type} (h : faults = []) (next : Except (List Diagnostic) α) :
    (checkpoint faults >>= fun _ => next) = next := by
  subst h
  rfl

/-- The documents of `compile` are those of its script and its routines. -/
theorem documents_of_compile {contract : Contract} (h : compile p options = .ok contract) :
    ∃ script a, Compiled p options contract script ∧
      a.routines = p.lowered.routines ∧ a.script = script ∧
      contract.manifest = Assembly.manifest a ∧
      contract.debug = if options.debugInfo then some a.debugInfo else none := by
  unfold compile at h
  obtain ⟨_, hbound, h⟩ := bind_eq_ok.mp h
  obtain ⟨_, hdeclared, h⟩ := bind_eq_ok.mp h
  obtain ⟨_, hlowered, h⟩ := bind_eq_ok.mp h
  split at h
  · cases h
  · next script hbuilt =>
    cases h
    exact ⟨script, _, ⟨checkpoint_eq_ok hbound, checkpoint_eq_ok hdeclared,
      checkpoint_eq_ok hlowered, hbuilt, rfl, rfl, rfl⟩, rfl, rfl, rfl, rfl⟩

theorem compiled_of_compile {contract : Contract} (h : compile p options = .ok contract) :
    ∃ script, Compiled p options contract script :=
  have ⟨script, _, hcompiled, _⟩ := documents_of_compile h
  ⟨script, hcompiled⟩

/-- `compile` accepts a program without faults at any stage, whose script can be built. -/
theorem exists_compile (hbound : (bindProgram p).2 = []) (hdeclared : p.declared.faults = [])
    (hlowered : p.lowered.faults = [])
    (hbuilt : (buildScript p.lowered.tokens p.lowered.routines options.optimize).toOption.isSome) :
    ∃ contract, compile p options = .ok contract := by
  unfold compile
  dsimp only
  rw [checkpoint_bind hbound, checkpoint_bind hdeclared, checkpoint_bind hlowered]
  cases hscript : buildScript p.lowered.tokens p.lowered.routines options.optimize with
  | ok script => exact ⟨_, rfl⟩
  | error e =>
    rw [hscript] at hbuilt
    cases hbuilt

/-! ## Functions -/

/-- What a `Routine` of a program comes from: the declaration with its number, or the static
variables. The tokens are those before and after it. -/
inductive RoutineCode (p : Program) (r : Routine) : TokenTable → List Piece → TokenTable → Prop where
  | function {decl : FunctionDecl} {scope : Scope} {tokens : TokenTable} {ps : List Piece}
    {ctx : Context} :
    p.functions[r.id]? = some decl → r.name = decl.id.name → SameGlobals p.declared.scope scope →
    FunctionCode decl ⟨scope, #[], #[], 1, tokens⟩ ps ctx → r.params = ctx.params.toList →
    r.ops.map Op.operation = finishedCode ps ctx → RoutineCode p r tokens ps ctx.tokens
  | initializer {scope : Scope} {tokens : TokenTable} {ps : List Piece} {ctx : Context} :
    p.statics ≠ [] → r.id = p.functions.length → r.name = initializerName →
    SameGlobals p.declared.scope scope →
    StaticsCode p.statics 0 ⟨scope, #[], #[], 1, tokens⟩ ps ctx → r.params = ctx.params.toList →
    r.ops.map Op.operation = finishedCode (.op (.initStatics p.statics.length) :: ps) ctx →
    RoutineCode p r tokens (.op (.initStatics p.statics.length) :: ps) ctx.tokens

/-- Routines in the order of their numbers, each with the tokens that those before it left. -/
inductive RoutinesCode (p : Program) : List Routine → List Piece → TokenTable → Prop where
  | nil : RoutinesCode p [] [] .empty
  | snoc {routines : List Routine} {r : Routine} {ps qs : List Piece}
    {tokens tokens' : TokenTable} :
    RoutinesCode p routines ps tokens → r.id = routines.length → RoutineCode p r tokens qs tokens' →
    RoutinesCode p (routines ++ [r]) (ps ++ qs) tokens'

namespace Lowering

/-- `collect` without faults has a routine. -/
theorem faults_collect {result : EStateM.Result Diagnostic LowerState Routine}
    (h : (l.collect result).faults = []) : l.faults = [] ∧ ∃ r s, result = .ok r s := by
  cases result with
  | ok r s => exact ⟨h, r, s, rfl⟩
  | error e s => cases (append_eq_nil_iff.mp h).2

theorem faults_addFunctions : ∀ {decls : List FunctionDecl} {l : Lowering} {id : FunctionId},
    (l.addFunctions id decls).faults = [] → l.faults = []
  | [], _, _, h => h
  | _ :: _, _, _, h => (faults_collect (faults_addFunctions h)).1

/-- The functions so far are those of a `Program`, and they were lowered in its global scope. -/
structure Follows (l : Lowering) (p : Program) : Prop where
  scope : SameGlobals p.declared.scope l.scope
  code : ∃ ps, RoutinesCode p l.routines ps l.tokens

/-- The next function of a program is lowered. -/
theorem Follows.collect (h : l.Follows p) {decl : FunctionDecl}
    (hdecl : p.functions[l.routines.length]? = some decl) {s : LowerState}
    (hlower : lowerFunction decl (l.start l.routines.length decl.id.name) = .ok r s) :
    (l.collect (.ok r s)).Follows p := by
  have howner := owner_lowerFunction hlower
  have hid : r.id = l.routines.length := congrArg Prod.fst howner
  obtain ⟨ps, hps⟩ := h.code
  obtain ⟨qs, hcode, hparams, hops⟩ := lowerFunction_code hlower
  constructor
  · have hsame := sameGlobals_lowerFunction decl (l.start l.routines.length decl.id.name)
    rw [hlower] at hsame
    exact h.scope.trans hsame
  · refine ⟨ps ++ qs, .snoc hps hid (.function ?_ (congrArg Prod.snd howner) h.scope hcode hparams
      hops)⟩
    rw [hid]
    exact hdecl

/-- `addFunctions` `Follows` the program if it reports nothing. -/
theorem Follows.addFunctions : ∀ {decls : List FunctionDecl} {l : Lowering},
    l.Follows p → (∀ k decl, decls[k]? = some decl →
      p.functions[l.routines.length + k]? = some decl) →
    (l.addFunctions l.routines.length decls).faults = [] →
    (l.addFunctions l.routines.length decls).Follows p ∧
      (l.addFunctions l.routines.length decls).routines.length = l.routines.length + decls.length
  | [], l, h, _, _ => ⟨h, rfl⟩
  | decl :: rest, l, h, hdecls, hfaults => by
    rw [Lowering.addFunctions] at hfaults ⊢
    obtain ⟨-, r, s, hlower⟩ := faults_collect (faults_addFunctions hfaults)
    rw [hlower] at hfaults ⊢
    have hlength : (l.collect (.ok r s)).routines.length = l.routines.length + 1 :=
      length_append
    rw [← hlength] at hfaults ⊢
    have hnext : ∀ k decl', rest[k]? = some decl' →
        p.functions[(l.collect (.ok r s)).routines.length + k]? = some decl' := by
      intro k decl' hk
      rw [hlength, Nat.add_assoc, Nat.add_comm 1 k]
      exact hdecls (k + 1) decl' hk
    have hfirst := h.collect (hdecls 0 decl rfl) hlower
    obtain ⟨hfollows, hcount⟩ := hfirst.addFunctions hnext hfaults
    refine ⟨hfollows, hcount.trans ?_⟩
    rw [hlength, length_cons]
    omega

/-- The state in which the function that fills the static slots has opened them. -/
def opened (l : Lowering) (id : FunctionId) (count : Nat) : LowerState :=
  ⟨({ id := id, name := initializerName } : Draft).emit (.initStatics count), l.scope, l.tokens⟩

/-- `addInitializer`, if it reports nothing. -/
theorem addInitializer_eq {id : FunctionId} {statics : List StaticDecl}
    (h : (l.addInitializer id statics).faults = []) :
    ∃ s finished, lowerStatics statics 0 (l.opened id statics.length) = ([], s) ∧
      s.draft.finish = .ok finished ∧ (finished.id, finished.name) = (id, initializerName) ∧
      l.addInitializer id statics = l.collect (.ok { finished with isExport := true } s) := by
  have howner := owner_lowerStatics statics 0 (l.opened id statics.length)
  unfold Lowering.addInitializer at h ⊢
  dsimp only at h ⊢
  obtain ⟨hbefore, r, s, hfinished⟩ := faults_collect h
  have hnone := (append_eq_nil_iff.mp hbefore).2
  rw [hfinished, hnone, append_nil]
  obtain ⟨finished, s', hfinish, hlast⟩ := exists_of_bind hfinished
  cases hlast
  obtain ⟨hroutine, rfl⟩ := finishDraft_eq_ok hfinish
  exact ⟨_, finished, Prod.ext hnone rfl, hroutine, (owner_of_finish hroutine).trans howner, rfl⟩

/-- The function that fills the static slots comes last. -/
theorem Follows.addInitializer (h : l.Follows p) (hstatics : p.statics ≠ [])
    (hcount : l.routines.length = p.functions.length)
    (hfaults : (l.addInitializer l.routines.length p.statics).faults = []) :
    (∃ ps, RoutinesCode p (l.addInitializer l.routines.length p.statics).routines ps
      (l.addInitializer l.routines.length p.statics).tokens) ∧
    (l.addInitializer l.routines.length p.statics).routines.length = l.routines.length + 1 := by
  obtain ⟨s, finished, hlowered, hfinish, howner, heq⟩ := addInitializer_eq hfaults
  rw [heq]
  obtain ⟨qs, hcode, hwrites⟩ := lowerStatics_code hlowered
  have hwritten : s.draft.code = codeOf (.op (.initStatics p.statics.length) :: qs) :=
    hwrites.code_eq
  have hops := finishedCode_of_finish hfinish hwritten
  obtain ⟨ps, hps⟩ := h.code
  refine ⟨⟨ps ++ (.op (.initStatics p.statics.length) :: qs),
    .snoc hps (congrArg Prod.fst howner) ?_⟩, length_append⟩
  refine .initializer hstatics ?_ ?_ h.scope hcode ?_ ?_
  · exact (congrArg Prod.fst howner).trans hcount
  · exact congrArg Prod.snd howner
  · exact (operations_of_finish hfinish).1
  · exact hops

end Lowering

/-- The function that fills the static slots is numbered exactly if there are any. -/
theorem initializer_declared (p : Program) :
    p.declared.initializer = if p.statics = [] then none else some p.functions.length := by
  have hstatics := statics_declareItems (bindProgram p).1 p
  have hnone : (declareItems (bindProgram p).1 p).initializer = none :=
    List.foldlRecOn (motive := fun d : Declarations => d.initializer = none) p.items _ rfl
      fun d hd item _ => (Declarations.initializer_addItem d item).trans hd
  show (declareItems (bindProgram p).1 p).addInitializer.initializer = _
  by_cases h : p.statics = []
  · rw [if_pos h, addInitializer_of_no_statics (hstatics.trans h)]
    exact hnone
  · obtain ⟨span, heq⟩ := addInitializer_of_statics (hstatics.symm ▸ h)
    rw [if_neg h, heq, Declarations.initializer_define, ← functions_declare (bindProgram p).1 p]
    show _ = some (declareItems (bindProgram p).1 p).addInitializer.functions.length
    rw [heq, Declarations.functions_define]

/-- Static variables are declared in order. -/
theorem statics_declared (p : Program) : p.declared.statics = p.statics := by
  have hstatics := statics_declareItems (bindProgram p).1 p
  show (declareItems (bindProgram p).1 p).addInitializer.statics = _
  rcases Declarations.addInitializer_cases (declareItems (bindProgram p).1 p) with heq | ⟨span, heq⟩
  · rw [heq, hstatics]
  · rw [heq, Declarations.statics_define, hstatics]

/-- The declared functions of a `Program`, lowered. -/
abbrev Program.loweredFunctions (p : Program) : Lowering :=
  Lowering.addFunctions { scope := p.declared.scope } 0 p.functions

theorem lowered_of_no_statics (h : p.statics = []) : p.lowered = p.loweredFunctions := by
  unfold Program.lowered lowerProgram
  rw [initializer_declared, functions_declare, if_pos h]

/-- What fills the static slots is lowered last. -/
theorem lowered_of_statics (h : p.statics ≠ []) :
    p.lowered = p.loweredFunctions.addInitializer p.functions.length p.statics := by
  unfold Program.lowered lowerProgram
  rw [initializer_declared, functions_declare, statics_declared, if_neg h]

theorem follows_loweredFunctions (h : p.loweredFunctions.faults = []) :
    p.loweredFunctions.Follows p ∧ p.loweredFunctions.routines.length = p.functions.length := by
  have hstart : Lowering.Follows { scope := p.declared.scope } p := ⟨⟨rfl, rfl, rfl⟩, [], .nil⟩
  have hfirst : ∀ k decl, p.functions[k]? = some decl →
      p.functions[([] : List Routine).length + k]? = some decl := by
    intro k decl hk
    rw [length_nil, Nat.zero_add]
    exact hk
  obtain ⟨hfollows, hcount⟩ := hstart.addFunctions hfirst h
  exact ⟨hfollows, hcount.trans (Nat.zero_add _)⟩

/-- Without faults there are none in the functions. -/
theorem faults_loweredFunctions (h : p.lowered.faults = []) : p.loweredFunctions.faults = [] := by
  by_cases hstatics : p.statics = []
  · rw [← lowered_of_no_statics hstatics]
    exact h
  · rw [lowered_of_statics hstatics] at h
    exact (append_eq_nil_iff.mp (Lowering.faults_collect h).1).1

/-- All functions of a program without faults are lowered in order, and then the one that fills its
static slots: `RoutinesCode` says from what. -/
theorem routinesCode_lowered (h : p.lowered.faults = []) :
    (∃ ps, RoutinesCode p p.lowered.routines ps p.lowered.tokens) ∧
      p.lowered.routines.length = p.functions.length + if p.statics = [] then 0 else 1 := by
  obtain ⟨hfollows, hcount⟩ := follows_loweredFunctions (faults_loweredFunctions h)
  by_cases hstatics : p.statics = []
  · rw [lowered_of_no_statics hstatics, if_pos hstatics]
    exact ⟨hfollows.code, hcount⟩
  · rw [lowered_of_statics hstatics, ← hcount] at h ⊢
    rw [if_neg hstatics]
    exact hfollows.addInitializer hstatics hcount h

/-- The routine at a place has that number and `RoutineCode` of its own. -/
theorem RoutinesCode.get (h : RoutinesCode p routines ps tokens) (hk : routines[k]? = some r) :
    r.id = k ∧ ∃ before qs after, RoutineCode p r before qs after ∧ qs ⊆ ps := by
  induction h with
  | nil => cases hk
  | @snoc routines r' ps qs before after hcode hid hlast ih =>
    by_cases hlt : k < routines.length
    · rw [getElem?_append_left hlt] at hk
      obtain ⟨hid', before', qs', after', hcode', hsub⟩ := ih hk
      exact ⟨hid', before', qs', after', hcode', subset_append_of_subset_left _ hsub⟩
    · have hbound := (List.getElem?_eq_some_iff.mp hk).1
      rw [length_append, length_singleton] at hbound
      have hk' : k = routines.length := by omega
      subst hk'
      rw [getElem?_append_right (Nat.le_refl _), Nat.sub_self] at hk
      cases hk
      exact ⟨hid, before, qs, after, hlast, subset_append_right ps qs⟩

/-! ## Pieces of a function -/

theorem over_of_sameGlobals {scope : Scope} (h : SameGlobals p.declared.scope scope) :
    p.declared.scope.Over scope := by
  refine ⟨h.builtins_eq, ⟨[], ?_, forall_mem_nil _⟩, ?_⟩
  · rw [h.rootFrame_eq, append_nil]
  · rw [h.inner_eq, inner_declare]
    exact forall_mem_nil _

/-- Every piece of a routine is accounted for in the global scope. -/
theorem RoutineCode.accounted (h : RoutineCode p r before ps after) :
    ∀ piece ∈ ps, piece.Accounted p.declared.scope := by
  cases h with
  | function _ _ hscope hcode _ _ =>
    exact hcode.accounted (inner_declare _ p) (over_of_sameGlobals hscope)
  | initializer _ _ _ hscope hcode _ _ =>
    have hstatics := hcode.accounted (inner_declare _ p) (over_of_sameGlobals hscope)
    exact forall_mem_cons.mpr ⟨rfl, hstatics⟩

theorem RoutinesCode.accounted (h : RoutinesCode p routines ps tokens) :
    ∀ piece ∈ ps, piece.Accounted p.declared.scope := by
  induction h with
  | nil => exact forall_mem_nil _
  | snoc _ _ hlast ih => exact forall_mem_append.mpr ⟨ih, hlast.accounted⟩

theorem elide_sublist : ∀ code : List Operation, (elide code).Sublist code
  | [] => .slnil
  | op :: rest => by
    rw [elide]
    split
    · exact (elide_sublist rest).cons op
    · exact (elide_sublist rest).cons_cons op

/-- The operations of a routine are its `finishedCode`. -/
theorem RoutineCode.ops_eq (h : RoutineCode p r before ps after) :
    ∃ ctx, r.params = ctx.params.toList ∧ r.ops.map Op.operation = finishedCode ps ctx := by
  cases h with
  | function _ _ _ _ hparams hops => exact ⟨_, hparams, hops⟩
  | initializer _ _ _ _ _ hparams hops => exact ⟨_, hparams, hops⟩

/-- A call in the finished code of a function is one of its pieces. -/
theorem RoutineCode.exists_use (h : RoutineCode p r before ps after) (hop : op ∈ r.ops)
    (hcall : op.operation.isCall = true) :
    ∃ symbol argCount isWanted ops, Piece.use symbol argCount isWanted ops ∈ ps ∧
      op.operation ∈ ops := by
  obtain ⟨ctx, -, hops⟩ := h.ops_eq
  have hmem : op.operation ∈ finishedCode ps ctx := hops ▸ mem_map_of_mem hop
  have hcode : op.operation ∈ codeOf ps := by
    rcases mem_append.mp hmem with hopening | hbody
    · split at hopening
      · cases hopening
      · rw [mem_singleton.mp hopening] at hcall
        cases hcall
    · rcases mem_append.mp ((elide_sublist _).mem hbody) with hcode | hend
      · exact hcode
      · rcases mem_cons.mp hend with heq | hend
        · rw [heq] at hcall
          cases hcall
        · rw [mem_singleton.mp hend] at hcall
          cases hcall
  obtain ⟨piece, hpiece, hin⟩ := mem_flatMap.mp hcode
  have haccounted := h.accounted piece hpiece
  cases piece with
  | op operation =>
    rw [mem_singleton.mp hin, haccounted] at hcall
    cases hcall
  | use symbol argCount isWanted ops => exact ⟨symbol, argCount, isWanted, ops, hpiece, hin⟩
  | leave hasValue operation =>
    rw [mem_singleton.mp hin, haccounted] at hcall
    cases hcall

/-! ## Instructions -/

/-- Every cell that is no marker has an instruction, at its place among them. -/
theorem Written.getElem?_located {t : Targets} {a b : Nat} {cells : List Cell} {is : List Located}
    (h : Written t a cells is b) {cell : Cell} (hj : cells[j]? = some cell)
    (hm : cell.op.operation.isMarker = false) :
    ∃ i, is[codeCount ((cells.map Cell.op).take j)]? = some i ∧
      i.address = a + totalWidth (cells.take j) ∧
      cell.op.operation.instruction t i.address cell.form = .ok (some i.toInstruction) := by
  obtain ⟨i, hi, haddress, hinstruction⟩ := h.exists_located hj hm
  have hbound := h.getElem?_bounds (Nat.le_of_lt (List.getElem?_eq_some_iff.mp hj).1)
  rw [← haddress] at hbound
  -- no two bounds are the same, so the instruction is the one at that place
  obtain ⟨n, hn⟩ := mem_iff_getElem?.mp hi
  have hn' : (bounds is b)[n]? = some i.address := by
    rw [bounds, getElem?_append_left (by
      rw [length_map]
      exact (List.getElem?_eq_some_iff.mp hn).1), getElem?_map, hn]
    rfl
  have heq := (eq_iff_index_eq h.tiles.nodup_bounds hn' hbound).mp rfl
  exact ⟨i, heq ▸ hn, haddress, hinstruction⟩

/-- `buildScript` encodes the routines, with branches as short as they are. -/
theorem exists_shortens (h : buildScript tokens routines optimize = .ok script) :
    ∃ chunks, Shortens tokens (routines.map Chunk.ofRoutine) chunks ∧
      encode tokens chunks = .ok script := by
  cases optimize with
  | false => exact ⟨_, .none, (buildScript_long_iff.mp h).1⟩
  | true =>
    obtain ⟨long, chunks, -, hshorten, hencode, -⟩ := buildScript_short_iff.mp h
    exact ⟨chunks, shortens_of_shorten .none hshorten, hencode⟩

/-- Whether an `Operation` opens a region, whose handlers are told from its own address. -/
def Operation.opensRegion : Operation → Bool
  | .try _ _ => true
  | _ => false

/-- In a script, with short branches or not, an operation that is no marker and opens no region is
`CarriedBy` the instruction at its place. -/
theorem exists_carrier (h : buildScript tokens routines optimize = .ok script)
    (hk : routines[k]? = some r) (hj : r.ops[j]? = some op)
    (hmarker : op.operation.isMarker = false) (hopens : op.operation.opensRegion = false) :
    ∃ m is i t, script.methods[k]? = some m ∧ script.decodeMethod m = .ok is ∧
      is[codeCount (r.ops.take j)]? = some i ∧ t.starts = script.methods.map (·.start) ∧
      op.operation.CarriedBy t i := by
  obtain ⟨chunks, hshortens, hencode⟩ := exists_shortens h
  have hencodes := encodes_of_encode hencode
  -- shortening changes forms, and the operations are those of the routine
  have hops : chunks[k]?.map Chunk.ops = some r.ops := by
    rw [← getElem?_map, map_ops_of_shortens_routines hshortens, getElem?_map, hk]
    rfl
  obtain ⟨c, hc, hcops⟩ := Option.map_eq_some_iff.mp hops
  obtain ⟨is, hw, hdecode⟩ := hencodes.decodeMethod_eq hc
  rw [← hcops, Chunk.ops, getElem?_map] at hj
  obtain ⟨cell, hcell, rfl⟩ := Option.map_eq_some_iff.mp hj
  obtain ⟨i, hi, haddress, hinstruction⟩ := Written.getElem?_located hw hcell hmarker
  refine ⟨methodAt chunks k c, is, i, targetsOf tokens chunks k c, ?_, hdecode, ?_, ?_, ?_⟩
  · rw [hencodes.method, hc]
    rfl
  · rw [← hcops]
    exact hi
  · exact hencodes.starts_eq.symm
  · refine carriedBy_of_instruction tokens.size_le hinstruction (fun offsets hoffsets => ?_) ?_
    · refine offsetsFit tokens hencodes.fits (shortReach_of_shortens hshortens) hc hcell ?_
      rw [← haddress]
      exact hoffsets
    · cases hop : cell.op.operation with
      | «try» handler finalizer =>
        rw [hop] at hopens
        cases hopens
      | _ => trivial

end ContractScript
