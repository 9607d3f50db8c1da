import ContractScript.Proofs.ProgramCode

/-!
# Calls lead to the functions they name

The number of a function is its place: among the declarations, among the lowered functions, and
among the methods of the script. A call holds the number that the name of the callee stands for,
so it leads to what became of that declaration.
-/

namespace ContractScript

open List

variable {p : Program} {symbol : Symbol} {id : FunctionId} {paramCount argCount : Nat}
  {returns : Bool} {routines : List Routine} {ps : List Piece} {tokens before after : TokenTable}
  {r : Routine} {d : Definition} {ctx ctx' : Context} {ops : List Operation} {op : Op}

/-! ## Names of functions -/

/-- A global name stands for the function with a number, which takes so many parameters: the only
declaration of that name, or the function that fills the static slots. -/
structure Names (p : Program) (symbol : Symbol) (id : FunctionId) (paramCount : Nat) : Prop where
  lookup : p.declared.scope.lookup symbol.name = some symbol
  declared : Symbol.DeclaredBy p symbol
  only : ∀ (k : Nat) decl, p.functions[k]? = some decl → decl.id.name = symbol.name → k = id
  definition : ∃ returns, symbol.definition = .function id paramCount returns

/-- What `callee?` finds is the function that a global name stands for. -/
theorem names_of_callee? (hfaults : p.declared.faults = []) {e : Expr}
    (h : p.declared.scope.callee? e = some symbol)
    (hdef : symbol.definition = .function id paramCount returns) :
    Names p symbol id paramCount := by
  have husable : symbol.definition.isUsable = true := by
    rw [hdef]
    rfl
  rcases provided_or_declared h husable with hprovided | ⟨hdeclared, hlookup⟩
  · -- the host provides no functions
    have := (allProvided_bindProgram p).symbols symbol hprovided
    rw [hdef] at this
    cases this
  · refine ⟨hlookup, hdeclared, fun k decl hk hname => ?_, returns, hdef⟩
    rw [← functions_declare (bindProgram p).1 p] at hk
    obtain ⟨symbol', hdef', hfound⟩ := findsFunctions_declare hfaults k decl hk
    rw [hname] at hfound
    rw [Scope.lookup, inner_declare, hfound] at hlookup
    cases hlookup
    cases hdef.symm.trans hdef'
    rfl

/-! ## Functions by number -/

/-- Routines are numbered in order. -/
theorem RoutinesCode.map_id (h : RoutinesCode p routines ps tokens) :
    routines.map Routine.id = List.range routines.length := by
  induction h with
  | nil => rfl
  | snoc _ hid _ ih =>
    rw [map_append, ih, length_append, length_singleton, range_succ,
      map_singleton, hid]

/-- A routine has the name of its declaration, or of the initializer. -/
theorem RoutineCode.name_eq (h : RoutineCode p r before ps after) :
    (p.functions.map (·.id.name) ++ [initializerName])[r.id]? = some r.name := by
  cases h with
  | function hdecl hname _ _ _ _ =>
    rw [getElem?_append_left, getElem?_map, hdecl, hname]
    · rfl
    · rw [length_map]
      exact (List.getElem?_eq_some_iff.mp hdecl).1
  | initializer _ hid hname _ _ _ _ =>
    rw [hid, hname, getElem?_append_right, length_map, Nat.sub_self]
    · rfl
    · exact Nat.le_of_eq (by rw [length_map])

/-- The number of parameters of a routine is that of its declaration. -/
theorem RoutineCode.length_params (h : RoutineCode p r before ps after) :
    (∃ decl, p.functions[r.id]? = some decl ∧ r.params.length = decl.params.length) ∨
      (r.id = p.functions.length ∧ r.params.length = 0) := by
  cases h with
  | function hdecl _ _ hcode hparams _ =>
    refine .inl ⟨_, hdecl, ?_⟩
    rw [hparams, Array.length_toList, hcode.params_size]
    exact Nat.zero_add _
  | initializer _ hid _ _ hcode hparams _ =>
    refine .inr ⟨hid, ?_⟩
    rw [hparams, Array.length_toList, piecewise_params.statics hcode]
    rfl

/-- A name `Names` the routine at its number, which has that name and takes the parameters of its
declaration. -/
theorem RoutinesCode.get_of_names (h : RoutinesCode p routines ps tokens)
    (hcount : routines.length = p.functions.length + if p.statics = [] then 0 else 1)
    (hnames : Names p symbol id paramCount) :
    ∃ callee, routines[id]? = some callee ∧ callee.name = symbol.name ∧
      callee.params.length = paramCount := by
  obtain ⟨returns, hdef⟩ := hnames.definition
  -- the routine at each position is the one with that number
  have hget : ∀ {k : Nat}, k < routines.length → ∃ callee before qs after,
      routines[k]? = some callee ∧ callee.id = k ∧ RoutineCode p callee before qs after := by
    intro k hk
    have hcallee := getElem?_eq_getElem hk
    obtain ⟨hid, before, qs, after, hcode, -⟩ := h.get hcallee
    exact ⟨_, before, qs, after, hcallee, hid, hcode⟩
  cases hnames.declared with
  | item hitem =>
    cases hitem with
    | value hvalue =>
      rw [hdef] at hvalue
      cases hvalue
    | @function _ decl hdecl hname hdef' =>
      cases hdef.symm.trans hdef'
      have hlt := (List.getElem?_eq_some_iff.mp hdecl).1
      obtain ⟨callee, _, _, _, hcallee, hid, hcode⟩ := hget (k := id) (by omega)
      refine ⟨callee, hcallee, ?_, ?_⟩
      · have hnamed := hcode.name_eq
        rw [hid, getElem?_append_left (by rwa [length_map]), getElem?_map,
          hdecl] at hnamed
        exact (Option.some.inj hnamed).symm.trans hname.symm
      · rcases hcode.length_params with ⟨decl', hdecl', hlength⟩ | ⟨hlast, -⟩
        · rw [hid, hdecl] at hdecl'
          cases hdecl'
          exact hlength
        · rw [hid] at hlast
          exact absurd hlast (Nat.ne_of_lt hlt)
  | initializer hstatics hname hdef' =>
    cases hdef.symm.trans hdef'
    rw [if_neg hstatics] at hcount
    obtain ⟨callee, _, _, _, hcallee, hid, hcode⟩ := hget (k := p.functions.length) (by omega)
    refine ⟨callee, hcallee, ?_, ?_⟩
    · have hnamed := hcode.name_eq
      rw [hid, getElem?_append_right (Nat.le_of_eq (by rw [length_map])),
        length_map, Nat.sub_self] at hnamed
      exact (Option.some.inj hnamed).symm.trans hname.symm
    · rcases hcode.length_params with ⟨decl', hdecl', -⟩ | ⟨-, hlength⟩
      · rw [hid, getElem?_eq_none (Nat.le_refl _)] at hdecl'
        cases hdecl'
      · exact hlength

theorem RoutinesCode.map_name (h : RoutinesCode p routines ps tokens)
    (hcount : routines.length = p.functions.length + if p.statics = [] then 0 else 1) :
    routines.map Routine.name =
      p.functions.map (·.id.name) ++ if p.statics = [] then [] else [initializerName] := by
  have htake : p.functions.map (·.id.name) ++ (if p.statics = [] then [] else [initializerName]) =
      (p.functions.map (·.id.name) ++ [initializerName]).take routines.length := by
    rw [hcount]
    by_cases hstatics : p.statics = []
    · rw [if_pos hstatics, if_pos hstatics, append_nil, take_left']
      exact length_map _
    · rw [if_neg hstatics, if_neg hstatics, take_of_length_le]
      have hlength : (p.functions.map (·.id.name) ++ [initializerName]).length =
          p.functions.length + 1 := by
        simp
      exact Nat.le_of_eq hlength
  rw [htake]
  refine ext_getElem? fun k => ?_
  rw [getElem?_map]
  by_cases hk : k < routines.length
  · obtain ⟨r, hr⟩ : ∃ r, routines[k]? = some r := ⟨_, getElem?_eq_getElem hk⟩
    obtain ⟨hid, before, qs, after, hcode, -⟩ := h.get hr
    rw [getElem?_take_of_lt hk, hr, ← hid, hcode.name_eq]
    rfl
  · rw [getElem?_eq_none (Nat.le_of_not_lt hk), getElem?_eq_none]
    · rfl
    · rw [length_take]
      omega

/-! ## Calls -/

/-- What stands for a function is one call. -/
theorem Uses.ops_of_function (h : Uses d argCount ctx ops ctx')
    (hdef : d = .function id paramCount returns) : ops = [.call id] := by
  subst hdef
  cases h
  rfl

/-- What stands for a symbol of the host is no call of a function. -/
theorem Uses.not_call (h : Uses d argCount ctx ops ctx') (hprovided : d.Provided)
    (id : FunctionId) : Operation.call id ∉ ops := by
  intro hmem
  cases h with
  | function => cases hprovided
  | host => cases hprovided _ hmem
  | method _ => simp at hmem
  | event => simp at hmem

/-- A function is called with its number of arguments: what a call uses `Names` one. -/
theorem names_of_use (hfaults : p.declared.faults = []) {isWanted : Bool}
    (h : (Piece.use symbol argCount isWanted ops).Accounted p.declared.scope)
    (hdef : symbol.definition = .function id paramCount returns) :
    ops = [.call id] ∧ Names p symbol id argCount := by
  obtain ⟨⟨e, hcallee⟩, hcount, ctx, ctx', huses⟩ := h
  have hnames := names_of_callee? hfaults hcallee hdef
  rw [hdef] at hcount
  rcases hcount with hcount | ⟨hproperty, -⟩
  · cases hcount
    exact ⟨huses.ops_of_function hdef, hnames⟩
  · cases hproperty

/-- Each call of a function stands for one that a name stands for. -/
theorem RoutineCode.exists_names (hfaults : p.declared.faults = [])
    (h : RoutineCode p r before ps after) (hop : op ∈ r.ops) (hcall : op.operation = .call id) :
    ∃ symbol argCount isWanted, Piece.use symbol argCount isWanted [.call id] ∈ ps ∧
      Names p symbol id argCount := by
  obtain ⟨symbol, argCount, isWanted, ops, hpiece, hmem⟩ := h.exists_use hop (by rw [hcall]; rfl)
  rw [hcall] at hmem
  have haccounted := h.accounted _ hpiece
  obtain ⟨⟨e, hcallee⟩, -, ctx, ctx', huses⟩ := haccounted
  by_cases hfunction : ∃ id' paramCount returns,
      symbol.definition = .function id' paramCount returns
  · obtain ⟨id', paramCount, returns, hdef⟩ := hfunction
    obtain ⟨rfl, hnames⟩ := names_of_use hfaults (h.accounted _ hpiece) hdef
    cases mem_singleton.mp hmem
    exact ⟨symbol, argCount, isWanted, hpiece, hnames⟩
  · have hprovided := provided_of_callee? hcallee huses.isUsable fun id' paramCount returns hdef =>
      hfunction ⟨id', paramCount, returns, hdef⟩
    exact absurd hmem (huses.not_call ((allProvided_bindProgram p).symbols symbol hprovided) id)

/-- In the script of `buildScript` a call leads to the start of the method with its number. -/
theorem exists_call {optimize : Bool} {script : Script}
    (h : buildScript tokens routines optimize = .ok script) {k : Nat} (hk : routines[k]? = some r)
    {j : Nat} (hj : r.ops[j]? = some op) (hcall : op.operation = .call id) :
    ∃ m target is i, script.methods[k]? = some m ∧ script.methods[id]? = some target ∧
      script.decodeMethod m = .ok is ∧ is[codeCount (r.ops.take j)]? = some i ∧
      (i.opcode = .call ∨ i.opcode = .callL) ∧ i.branchTargets = [(target.start : Int)] := by
  obtain ⟨m, is, i, t, hm, hdecode, hi, hstarts, hcarried⟩ :=
    exists_carrier h hk hj (by rw [hcall]; rfl) (by rw [hcall]; rfl)
  rw [hcall] at hcarried
  obtain ⟨hopcode, hleads⟩ := hcarried
  obtain ⟨target, htargets, address, haddress, rfl⟩ : ∃ target, i.branchTargets = [target] ∧
      ∃ address : Nat, t.function id = .ok address ∧ target = address := by
    unfold Located.LeadsTo at hleads
    cases hbranch : i.branchTargets with
    | nil =>
      rw [hbranch] at hleads
      cases hleads
    | cons target rest =>
      rw [hbranch] at hleads
      obtain ⟨hfirst, hrest⟩ := forall₂_cons.mp hleads
      cases hrest
      exact ⟨target, rfl, hfirst⟩
  have hstart := function_eq_ok_iff.mp haddress
  rw [hstarts, getElem?_map] at hstart
  obtain ⟨target, htarget, rfl⟩ := Option.map_eq_some_iff.mp hstart
  exact ⟨m, target, is, i, hm, htarget, hdecode, hi, Opcode.longForm_eq_callL_iff.mp hopcode,
    htargets⟩

/-! ## Programs -/

/-- The functions of a program that `compile` accepts are numbered in the order of their
declaration, and the one that fills the static slots comes last. Every call stands for a name and
has the number of the only function that the name stands for (`Names`), which takes as many
parameters as there are arguments; and in the script, with short branches or not, the call leads to
the start of its method. -/
theorem calls_lead_to_callees (p : Program) (options : CompileOptions) (contract : Contract)
    (h : compile p options = .ok contract) :
    let routines := p.lowered.routines
    routines.map Routine.id = List.range routines.length ∧
    routines.map Routine.name =
      p.functions.map (·.id.name) ++ (if p.statics = [] then [] else [initializerName]) ∧
    ∀ (k : Nat) caller, routines[k]? = some caller → ∃ before ps after,
      RoutineCode p caller before ps after ∧
      (∀ symbol argCount isWanted ops, Piece.use symbol argCount isWanted ops ∈ ps →
        ∀ id paramCount returns, symbol.definition = .function id paramCount returns →
        ops = [.call id] ∧ Names p symbol id argCount ∧
        ∃ callee, routines[id]? = some callee ∧ callee.name = symbol.name ∧
          callee.params.length = argCount) ∧
      ∀ (j : Nat) op id, caller.ops[j]? = some op → op.operation = .call id →
        (∃ symbol argCount isWanted, Piece.use symbol argCount isWanted [.call id] ∈ ps ∧
          Names p symbol id argCount) ∧
        ∃ method target is i, contract.methods[k]? = some method ∧
          contract.methods[id]? = some target ∧
          Script.decodeMethod ⟨contract.script, contract.methods⟩ method = .ok is ∧
          is[codeCount (caller.ops.take j)]? = some i ∧
          (i.opcode = .call ∨ i.opcode = .callL) ∧
          i.branchTargets = [(target.start : Int)] := by
  intro routines
  obtain ⟨script, hcompiled⟩ := compiled_of_compile h
  obtain ⟨⟨all, hall⟩, hcount⟩ := routinesCode_lowered hcompiled.lowered
  refine ⟨hall.map_id, hall.map_name hcount, fun k caller hk => ?_⟩
  obtain ⟨-, before, ps, after, hcode, -⟩ := hall.get hk
  refine ⟨before, ps, after, hcode, ?_, ?_⟩
  · intro symbol argCount isWanted ops hpiece id paramCount returns hdef
    obtain ⟨hops, hnames⟩ := names_of_use hcompiled.declared (hcode.accounted _ hpiece) hdef
    exact ⟨hops, hnames, hall.get_of_names hcount hnames⟩
  · intro j op id hj hcall
    refine ⟨hcode.exists_names hcompiled.declared (mem_of_getElem? hj) hcall, ?_⟩
    rw [hcompiled.script_eq, hcompiled.methods_eq]
    exact exists_call hcompiled.built hk hj hcall

/-- A function with one parameter, whose body returns a value. -/
def returning (name : String) (value : Expr) : FunctionDecl where
  id := ⟨name, {}⟩
  params := [⟨⟨"n", {}⟩, .integer, {}⟩]
  returnType := .integer
  body := some ⟨[.return (some value) {}], {}⟩
  isExport := true
  isSafe := false
  tags := []
  span := {}

/-- A function that calls one that is declared after it, and a static variable in between. -/
def callingProgram : Program :=
  let n : Expr := .ident ⟨"n", {}⟩ .integer {}
  ⟨[], [.function (returning "main" (.call (.ident ⟨"twice", {}⟩ .any {}) [n] .integer {})),
    .static ⟨⟨"total", {}⟩, .integer, none, {}⟩,
    .function (returning "twice" (.binary .add n n .integer {}))]⟩

theorem calls_lead_to_callees_calling : ∃ contract method target is i,
    compile callingProgram { optimize := true } = .ok contract ∧
      callingProgram.lowered.routines.map Routine.name = ["main", "twice", "_initialize"] ∧
      contract.methods[0]? = some method ∧ contract.methods[1]? = some target ∧
      Script.decodeMethod ⟨contract.script, contract.methods⟩ method = .ok is ∧
      is[2]? = some i ∧ i.branchTargets = [(target.start : Int)] := by
  have hok : (compile callingProgram { optimize := true }).toOption.isSome = true := by
    decide +kernel
  obtain ⟨contract, hcontract⟩ : ∃ contract,
      compile callingProgram { optimize := true } = .ok contract := by
    cases hcompile : compile callingProgram { optimize := true } with
    | ok contract => exact ⟨contract, rfl⟩
    | error faults =>
      rw [hcompile] at hok
      cases hok
  have hops : callingProgram.lowered.routines[0]?.map (·.ops.map Op.operation) =
      some [.initSlots 0 1, .anchor, .load .argument 0, .call 1, .anchor, .label 0, .return] := by
    decide +kernel
  obtain ⟨caller, hcaller, hops⟩ := Option.map_eq_some_iff.mp hops
  obtain ⟨-, hnames, hcalls⟩ := calls_lead_to_callees callingProgram _ contract hcontract
  obtain ⟨_, _, _, -, -, hlinked⟩ := hcalls 0 caller hcaller
  have hcall : caller.ops[3]?.map Op.operation = some (.call 1) := by
    rw [← getElem?_map, hops]
    rfl
  obtain ⟨op, hop, hcall⟩ := Option.map_eq_some_iff.mp hcall
  obtain ⟨-, method, target, is, i, hmethod, htarget, hdecode, hi, -, hbranch⟩ :=
    hlinked 3 op 1 hop hcall
  have hplace : codeCount (caller.ops.take 3) = 2 := by
    have hcount : codeCount (caller.ops.take 3) =
        ((caller.ops.map Op.operation).take 3).countP fun op => !op.isMarker := by
      rw [← map_take, countP_map]
      rfl
    rw [hcount, hops]
    rfl
  rw [hplace] at hi
  exact ⟨contract, method, target, is, i, hcontract, hnames, hmethod, htarget, hdecode, hi, hbranch⟩

end ContractScript
