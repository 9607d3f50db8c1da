import ContractScript.Proofs.SlotAccesses

/-!
# Slot safety

What the routines of a program without faults do with slots (`Routine.WorksOn`). A function opens
its slots first, one for each parameter and one for each declaration of a local variable, and then
makes the accesses that its source has. The function that fills the static slots opens them first.
-/

namespace ContractScript

open List

/-! ## Finished code -/

variable {p : Program} {ctx : Context} {kind : SlotKind} {index : Nat}

/-- What stands for a function or for a declaration of the host uses no slot. -/
theorem filter_uses {symbol : Symbol} {e : Expr} {argCount : Nat} {ctx' : Context}
    {ops : List Operation} (hcallee : p.declared.scope.callee? e = some symbol)
    (h : Uses symbol.definition argCount ctx ops ctx') : ops.filter Operation.isOnSlots = [] := by
  have hprovided : (∀ id paramCount returns, symbol.definition ≠ .function id paramCount returns) →
      symbol.definition.Provided := by
    intro hfunction
    exact (allProvided_bindProgram p).symbols symbol
      (provided_of_callee? hcallee h.isUsable hfunction)
  generalize symbol.definition = definition at h hprovided
  cases h with
  | function => rfl
  | host =>
    rw [filter_eq_nil_iff]
    intro op hop
    have hhost := hprovided fun _ _ _ hdef => by cases hdef
    have hstraight := hhost op hop
    cases op <;> cases hstraight <;> simp [Operation.isOnSlots]
  | method _ => rfl
  | event => rfl

/-- All operations on slots are of the constructs themselves. -/
theorem filter_codeOf {ps : List Piece} (h : ∀ piece ∈ ps, piece.Accounted p.declared.scope) :
    (codeOf ps).filter Operation.isOnSlots = slotCode ps := by
  induction ps with
  | nil => rfl
  | cons piece ps ih =>
    obtain ⟨hpiece, hps⟩ := forall_mem_cons.mp h
    have hfirst : piece.ops.filter Operation.isOnSlots =
        piece.ownOps.filter Operation.isOnSlots := by
      cases piece with
      | op operation => rfl
      | leave hasValue operation => rfl
      | use symbol argCount isWanted ops =>
        obtain ⟨⟨e, hcallee⟩, -, ctx, ctx', huses⟩ := hpiece
        exact filter_uses hcallee huses
    rw [codeOf_cons, filter_append, ih hps, hfirst, slotCode, slotCode, ownCode_cons,
      filter_append]

/-- `elide` drops no operation on slots. -/
theorem filter_elide (code : List Operation) :
    (elide code).filter Operation.isOnSlots = code.filter Operation.isOnSlots := by
  induction code with
  | nil => rfl
  | cons op rest ih =>
    rw [elide]
    split
    · next hfalls =>
      obtain ⟨l, _, _, rfl, -, -⟩ := exists_of_fallsThrough hfalls
      exact ih
    · rw [filter_cons, filter_cons, ih]

/-! ## Routines -/

/-- The `Slot`s of each kind that a routine of a program has. -/
def Routine.slots (p : Program) (r : Routine) : SlotKind → List Slot :=
  slotsByKind r.params r.locals p.declared.staticSlots

/-- How a `Routine` opens its slots, if it has any. -/
def Routine.opening (r : Routine) : List Operation :=
  if r.locals = [] ∧ r.params = [] then [] else [.initSlots r.locals.length r.params.length]

/-- Whether an `Operation` opens slots. -/
def Operation.opensSlots : Operation → Bool
  | .initSlots _ _ | .initStatics _ => true
  | _ => false

/-- A `Routine` opens slots first, and all that it does with slots afterwards are accesses to the
innermost variables of names. -/
structure Routine.WorksOn (p : Program) (r : Routine) (first : List Operation)
    (accesses : List Access) : Prop where
  opens : ∀ op ∈ first, op.opensSlots = true
  code : ∃ body, r.ops.map Op.operation = first ++ body ∧
    body.filter Operation.isOnSlots = accesses.map Access.operation
  sound : ∀ a ∈ accesses, a.Sound (r.slots p)

theorem Routine.opensSlots_opening (r : Routine) : ∀ op ∈ r.opening, op.opensSlots = true := by
  unfold Routine.opening
  split
  · exact forall_mem_nil _
  · exact forall_mem_singleton.mpr rfl

theorem Access.slot_of_operation {a : Access}
    (h : a.operation = .load kind index ∨ a.operation = .store kind index) :
    a.slot = (kind, index) := by
  obtain ⟨name, isWrite, vars, slot⟩ := a
  cases isWrite <;> rcases h with h | h <;> cases h <;> rfl

theorem Access.not_opensSlots (a : Access) : a.operation.opensSlots = false := by
  unfold Access.operation
  cases a.isWrite <;> rfl

namespace Routine.WorksOn

variable {p : Program} {r : Routine} {first body : List Operation} {accesses : List Access}

theorem exists_access (hbody : body.filter Operation.isOnSlots = accesses.map Access.operation)
    {op : Operation} (hop : op ∈ body) (hslots : op.isOnSlots = true) :
    ∃ a ∈ accesses, a.operation = op := by
  have hmem : op ∈ body.filter Operation.isOnSlots := mem_filter.mpr ⟨hop, hslots⟩
  rw [hbody] at hmem
  exact mem_map.mp hmem

/-- Every slot that is read or written is one of `Routine.slots`. -/
theorem lt_length (h : r.WorksOn p first accesses) {op : Op} (hop : op ∈ r.ops)
    (haccess : op.operation = .load kind index ∨ op.operation = .store kind index) :
    index < (r.slots p kind).length := by
  obtain ⟨body, hcode, hbody⟩ := h.code
  have hmem : op.operation ∈ first ++ body := hcode ▸ mem_map_of_mem hop
  have hslots : op.operation.isOnSlots = true := by
    rcases haccess with heq | heq <;> rw [heq] <;> rfl
  rcases mem_append.mp hmem with hfirst | hin
  · have hopens := h.opens _ hfirst
    rcases haccess with heq | heq <;> rw [heq] at hopens <;> cases hopens
  · obtain ⟨a, ha, heq⟩ := exists_access hbody hin hslots
    rw [← heq] at haccess
    have hlt := (h.sound a ha).owned.lt
    rw [Access.slot_of_operation haccess] at hlt
    exact hlt

/-- Slots are opened nowhere else. -/
theorem not_opensSlots (hbody : body.filter Operation.isOnSlots = accesses.map Access.operation) :
    ∀ op ∈ body, op.opensSlots = false := by
  intro op hop
  by_contra hopens
  rw [Bool.not_eq_false] at hopens
  have hslots : op.isOnSlots = true := by
    cases op <;> first | rfl | cases hopens
  obtain ⟨a, -, heq⟩ := exists_access hbody hop hslots
  rw [← heq, a.not_opensSlots] at hopens
  cases hopens

end Routine.WorksOn

/-- `Routine.opening` is what a finished function starts with. -/
theorem opening_eq {r : Routine} (hparams : r.params = ctx.params.toList)
    (hlocals : r.locals = ctx.locals.toList) : (if ctx.params.isEmpty && ctx.locals.isEmpty then []
      else [Operation.initSlots ctx.locals.size ctx.params.size]) = r.opening := by
  rw [Routine.opening, hparams, hlocals, Array.length_toList, Array.length_toList]
  simp only [Array.isEmpty_iff, Bool.and_eq_true, Array.toList_eq_nil_iff, and_comm]

theorem staticSlots_declared (p : Program) :
    p.declared.staticSlots.map Slot.name = p.statics.map (·.id.name) := by
  rw [Declarations.staticSlots, statics_declared, map_map]
  rfl

/-- `SameGlobals` keeps what names stand for. -/
theorem resolves_of_sameGlobals {p : Program} {scope : Scope} {vars : Variables}
    (h : p.declared.scope.Resolves vars) (hscope : SameGlobals p.declared.scope scope) :
    scope.Resolves vars := by
  intro name
  rw [Scope.lookup, hscope.builtins_eq, hscope.rootFrame_eq, hscope.inner_eq]
  exact h name

namespace Origin

variable {p : Program} {r : Routine}

/-- A function has a slot for each of its parameters and declarations, opens them first, and makes
the accesses of its source (`FunctionDecl.survey`). -/
theorem worksOn_function (h : Origin p r) (hfaults : p.declared.faults = []) {decl : FunctionDecl}
    (hdecl : p.functions[r.id]? = some decl) :
    r.params = slotsOf decl.params ∧ r.locals = decl.declared ∧
      r.WorksOn p r.opening (decl.survey p.staticVariables).accesses := by
  cases h with
  | initializer _ hlast _ _ _ _ =>
    have hlt := (List.getElem?_eq_some_iff.mp hdecl).1
    rw [hlast] at hlt
    exact absurd hlt (Nat.lt_irrefl _)
  | @function decl' scope tokens ps ctx hdecl' hscope hcode hr hops =>
    rw [hdecl] at hdecl'
    cases hdecl'
    have hparams : r.params = ctx.params.toList := congrArg Routine.params hr
    have hlocals : r.locals = ctx.locals.toList := congrArg Routine.locals hr
    have hslots : r.params = slotsOf decl.params := hparams.trans hcode.params_eq
    obtain ⟨hsame, haccesses⟩ := hcode.surveys
      (resolves_of_sameGlobals (resolves_declared hfaults).1 hscope)
    have hdeclared : r.locals = decl.declared :=
      (hlocals.trans hsame).trans (decl.locals_survey _)
    have haccounted := hcode.accounted (inner_declare _ p) (over_of_sameGlobals hscope)
    refine ⟨hslots, hdeclared, r.opensSlots_opening,
      ⟨elide (codeOf ps ++ [Operation.label Draft.returnTarget, .return]), ?_, ?_⟩, ?_⟩
    · rw [hops, finishedCode, opening_eq hparams hlocals]
    · rw [filter_elide, filter_append, filter_codeOf haccounted, haccesses]
      exact append_nil _
    · have hsound := (decl.sound_survey (staticSlots_declared p)).accesses
      rw [decl.locals_survey, ← hdeclared, ← hslots] at hsound
      exact hsound

/-- The function that fills the static slots has no slots of its own, opens the static ones first,
and makes the accesses of the values. -/
theorem worksOn_initializer (h : Origin p r) (hfaults : p.declared.faults = [])
    (hlast : r.id = p.functions.length) :
    r.name = initializerName ∧ r.params = [] ∧ r.locals = [] ∧
      r.WorksOn p [.initStatics p.statics.length] p.staticSurvey.accesses := by
  cases h with
  | function hdecl _ _ _ _ =>
    have hlt := (List.getElem?_eq_some_iff.mp hdecl).1
    rw [hlast] at hlt
    exact absurd hlt (Nat.lt_irrefl _)
  | @initializer scope tokens ps ctx _ _ hscope hcode hr hops =>
    obtain ⟨hresolves, hfound⟩ := resolves_declared hfaults
    obtain ⟨hmirrors, haccesses⟩ := hcode.surveys (x := ⟨p.staticVariables, [], []⟩)
      ⟨resolves_of_sameGlobals hresolves hscope, rfl⟩ fun k decl hk => by
        rw [Nat.zero_add]
        exact hfound k decl hk
    have hparams : r.params = [] :=
      (congrArg Routine.params hr).trans (congrArg Array.toList (piecewise_params.statics hcode))
    have hlocals : r.locals = [] :=
      ((congrArg Routine.locals hr).trans hmirrors.locals_eq).trans p.locals_staticSurvey
    have haccounted := hcode.accounted (inner_declare _ p) (over_of_sameGlobals hscope)
    refine ⟨congrArg Routine.name hr, hparams, hlocals, forall_mem_singleton.mpr rfl,
      ⟨elide (codeOf ps ++ [Operation.label Draft.returnTarget, .return]), ?_, ?_⟩, ?_⟩
    · rw [hops, finishedCode, opening_eq (congrArg Routine.params hr) (congrArg Routine.locals hr),
        Routine.opening, if_pos ⟨hlocals, hparams⟩]
      rfl
    · rw [filter_elide, filter_append, filter_codeOf haccounted]
      exact (append_nil _).trans haccesses.symm
    · have hsound := (Program.sound_staticSurvey (staticSlots_declared p)).accesses
      rw [p.locals_staticSurvey] at hsound
      rw [Routine.slots, hparams, hlocals]
      exact hsound

/-- Every routine keeps to its slots, and opens them first and only then. -/
theorem keepsToSlots (h : Origin p r) (hfaults : p.declared.faults = []) :
    (∀ op ∈ r.ops, ∀ kind index,
      op.operation = .load kind index ∨ op.operation = .store kind index →
        index < (r.slots p kind).length) ∧
    ∃ body, r.ops.map Op.operation = r.opening ++ body ∧
      ∀ locals params, Operation.initSlots locals params ∉ body := by
  by_cases hlast : r.id = p.functions.length
  · obtain ⟨-, hparams, hlocals, hworks⟩ := h.worksOn_initializer hfaults hlast
    refine ⟨fun op hop kind index => hworks.lt_length hop, ?_⟩
    obtain ⟨body, hcode, hbody⟩ := hworks.code
    rw [Routine.opening, if_pos ⟨hlocals, hparams⟩]
    refine ⟨.initStatics p.statics.length :: body, hcode, fun locals params hmem => ?_⟩
    rcases mem_cons.mp hmem with heq | hmem
    · cases heq
    · cases Routine.WorksOn.not_opensSlots hbody _ hmem
  · have hdecl : ∃ decl, p.functions[r.id]? = some decl := by
      cases h with
      | function hdecl _ _ _ _ => exact ⟨_, hdecl⟩
      | initializer _ hlast' _ _ _ _ => exact absurd hlast' hlast
    obtain ⟨decl, hdecl⟩ := hdecl
    obtain ⟨-, -, hworks⟩ := h.worksOn_function hfaults hdecl
    refine ⟨fun op hop kind index => hworks.lt_length hop, ?_⟩
    obtain ⟨body, hcode, hbody⟩ := hworks.code
    refine ⟨body, hcode, fun locals params hmem => ?_⟩
    cases Routine.WorksOn.not_opensSlots hbody _ hmem

end Origin

/-- In a program without faults every routine keeps to the slots it has and opens them first, and
only then. The slots of a function are its parameters and its declarations, one each, and what it
reads and writes is what the names in its source stand for (`Routine.WorksOn`,
`FunctionDecl.survey`). After the declared functions there is one that opens and fills the static
slots, if there are any. -/
theorem slots_follow_scopes {p : Program} (hdeclared : p.declared.faults = [])
    (hlowered : p.lowered.faults = []) :
    (∀ r ∈ p.lowered.routines,
      (∀ op ∈ r.ops, ∀ kind index,
        op.operation = .load kind index ∨ op.operation = .store kind index →
          index < (r.slots p kind).length) ∧
      ∃ body, r.ops.map Op.operation = r.opening ++ body ∧
        ∀ locals params, Operation.initSlots locals params ∉ body) ∧
    (∀ (k : Nat) decl, p.functions[k]? = some decl → ∃ r, p.lowered.routines[k]? = some r ∧
      r.params = slotsOf decl.params ∧ r.locals = decl.declared ∧
      r.WorksOn p r.opening (decl.survey p.staticVariables).accesses) ∧
    p.lowered.routines.map Routine.name = p.functions.map (·.id.name) ++
      (if p.statics = [] then [] else [initializerName]) ∧
    ((∃ r, p.lowered.routines[p.functions.length]? = some r) ↔ p.statics ≠ []) ∧
    ∀ r, p.lowered.routines[p.functions.length]? = some r →
      r.name = initializerName ∧ r.params = [] ∧ r.locals = [] ∧
      r.WorksOn p [.initStatics p.statics.length] p.staticSurvey.accesses := by
  obtain ⟨⟨ps, hcode⟩, hcount⟩ := routinesCode_lowered hlowered
  refine ⟨fun r hr => ?_, fun k decl hk => ?_, hcode.map_name hcount, ?_, fun r hr => ?_⟩
  · obtain ⟨k, hk⟩ := getElem?_of_mem hr
    exact (origin_of_lowered hlowered hk).2.keepsToSlots hdeclared
  · have hlt : k < p.lowered.routines.length := by
      have hbound := (List.getElem?_eq_some_iff.mp hk).1
      omega
    have hr := getElem?_eq_getElem hlt
    obtain ⟨hid, horigin⟩ := origin_of_lowered hlowered hr
    rw [← hid] at hk
    exact ⟨_, hr, horigin.worksOn_function hdeclared hk⟩
  · rw [← Option.isSome_iff_exists, ← Option.isNone_eq_false_iff, ← Bool.not_eq_true,
      Option.isNone_iff_eq_none, List.getElem?_eq_none_iff, hcount]
    by_cases hstatics : p.statics = [] <;> simp [hstatics]
  · obtain ⟨hid, horigin⟩ := origin_of_lowered hlowered hr
    exact horigin.worksOn_initializer hdeclared hid

/-- A `Program` where a block and a handler hide a variable of the function, and the function
changes static variables. -/
def shadowing : Program :=
  let x : Expr := .ident ⟨"x", {}⟩ .integer {}
  let total : Expr := .ident ⟨"total", {}⟩ .integer {}
  let inner : Block := ⟨[.declare ⟨"x", {}⟩ .integer (some total) false {}, .throw x {}], {}⟩
  let handler : CatchClause :=
    ⟨some ⟨"x", {}⟩, ⟨[.expr (.assign none (.ident ⟨"last", {}⟩ .any {}) x {}) {}], {}⟩, {}⟩
  ⟨[], [.static ⟨⟨"total", {}⟩, .integer, some (.literal (.int 1) .integer {}), {}⟩,
    .static ⟨⟨"last", {}⟩, .any, none, {}⟩,
    .function { returning "main" x with
      body := some ⟨[.declare ⟨"x", {}⟩ .integer (some (.ident ⟨"n", {}⟩ .integer {})) true {},
        .try inner (some handler) none {}, .expr (.assign (some .add) total x {}) {},
        .return (some x) {}], {}⟩ }]⟩

/-- Each `x` has a slot of its own, and names stand for the innermost one. -/
theorem slots_follow_scopes_shadowing :
    shadowing.declared.faults = [] ∧ shadowing.lowered.faults = [] ∧
    (∃ r body, shadowing.lowered.routines[0]? = some r ∧ r.params.map Slot.name = ["n"] ∧
      r.locals.map Slot.name = ["x", "x", "x"] ∧
      r.ops.map Op.operation = .initSlots 3 1 :: body ∧
      body.filter Operation.isOnSlots =
        [.load .argument 0, .store .local 0, .load .static 0, .store .local 1, .load .local 1,
          .store .local 2, .load .local 2, .store .static 1, .load .static 0, .load .local 0,
          .store .static 0, .load .local 0]) ∧
    ∃ r body, shadowing.lowered.routines[1]? = some r ∧ r.name = "_initialize" ∧
      r.ops.map Op.operation = .initStatics 2 :: body ∧
      body.filter Operation.isOnSlots = [.store .static 0] := by
  have hdeclared : shadowing.declared.faults = [] := List.isEmpty_iff.mp (by decide +kernel)
  have hlowered : shadowing.lowered.faults = [] := List.isEmpty_iff.mp (by decide +kernel)
  obtain ⟨-, hfunctions, -, hexists, hinitializer⟩ := slots_follow_scopes hdeclared hlowered
  refine ⟨hdeclared, hlowered, ?_, ?_⟩
  · obtain ⟨r, hr, hparams, hlocals, hworks⟩ := hfunctions 0 _ rfl
    obtain ⟨body, hcode, hbody⟩ := hworks.code
    refine ⟨r, body, hr, by rw [hparams]; rfl, by rw [hlocals]; rfl, ?_, hbody.trans rfl⟩
    rw [hcode, Routine.opening, hlocals, hparams]
    rfl
  · obtain ⟨r, hr⟩ := hexists.mpr (cons_ne_nil _ _)
    obtain ⟨hname, -, -, hworks⟩ := hinitializer r hr
    obtain ⟨body, hcode, hbody⟩ := hworks.code
    exact ⟨r, body, hr, hname, hcode, hbody.trans rfl⟩

end ContractScript
