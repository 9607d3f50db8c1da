import Mathlib
import ContractScript.Proofs.ProgramCode

/-!
# The tokens of methods

All functions of a program share one table of the methods that they call, and a method of a
contract has one entry in it: that of its first use. So a call names the contract and the method
that its symbol stands for, and it names all of it if the declarations of a method agree.
-/

namespace ContractScript

open List

variable {t t' before after tokens : TokenTable} {token : MethodToken} {ps : List Piece}
  {symbol : Symbol} {argCount : Nat} {isWanted : Bool} {ops : List Operation} {p : Program}
  {r : Routine} {routines : List Routine} {ref : MethodRef}

/-! ## Tables -/

namespace TokenTable

/-- The entry of a method of a contract. -/
def find? (t : TokenTable) (key : MethodToken.Key) : Option MethodToken :=
  t.index[key]?.bind t.get?

/-- Every index of a table is that of an entry for its method. -/
def Indexed (t : TokenTable) : Prop :=
  ∀ key i, t.index[key]? = some i → ∃ token, t.get? i = some token ∧ token.key = key

theorem indexed_empty : empty.Indexed := by
  intro key i h
  simp [empty] at h

theorem find?_empty (key : MethodToken.Key) : empty.find? key = none := by
  simp [find?, empty]

/-- An addition keeps all indices, gives one to the method, and makes its token the entry unless
there is one. -/
structure Adds (t : TokenTable) (token : MethodToken) (i : Nat) (t' : TokenTable) : Prop where
  indexed : t'.Indexed
  index_eq : t'.index[token.key]? = some i
  kept : ∀ {key : MethodToken.Key} {j}, t.index[key]? = some j → t'.index[key]? = some j
  find?_eq : ∀ key, t'.find? key = (t.find? key).or ([token].find? (·.key == key))

/-- `add` does what `Adds` says if it gives an index. -/
theorem add_eq_some {i : Nat} (h : t.Indexed) (hadd : t.add token = (some i, t')) :
    Adds t token i t' := by
  unfold add at hadd
  split at hadd
  · -- the method has an entry, and the table stays as it is
    next j hj =>
    cases hadd
    refine ⟨h, hj, id, fun key => ?_⟩
    by_cases hkey : token.key = key
    · obtain ⟨entry, hentry, -⟩ := h token.key i hj
      have hfound : t.find? key = some entry := by
        rw [find?, ← hkey, hj]
        exact hentry
      rw [hfound]
      rfl
    · rw [find?_cons_of_neg (by simpa using hkey), find?_nil, Option.or_none]
  · next hnone =>
    split at hadd
    · -- the new entry comes last, and the others keep their places
      next hlt =>
      cases hadd
      have hget : ∀ {j entry}, t.get? j = some entry → (t.tokens.push token)[j]? = some entry := by
        intro j entry hj
        have hbound := (Array.getElem?_eq_some_iff.mp hj).1
        rw [Array.getElem?_push, if_neg (Nat.ne_of_lt hbound)]
        exact hj
      have hlast : (t.tokens.push token)[t.tokens.size]? = some token := Array.getElem?_push_size
      have hindex : ∀ key, (t.index.insert token.key t.tokens.size)[key]? =
          if token.key = key then some t.tokens.size else t.index[key]? := by
        intro key
        rw [Std.HashMap.getElem?_insert]
        simp only [beq_iff_eq]
      refine ⟨fun key j hj => ?_, ?_, fun {key j} hj => ?_, fun key => ?_⟩
      · have hj : (t.index.insert token.key t.tokens.size)[key]? = some j := hj
        rw [hindex] at hj
        split at hj
        · next hkey =>
          cases hj
          exact ⟨token, hlast, hkey⟩
        · obtain ⟨entry, hentry, hkey⟩ := h key j hj
          exact ⟨entry, hget hentry, hkey⟩
      · exact (hindex token.key).trans (if_pos rfl)
      · refine (hindex key).trans ?_
        rw [if_neg, hj]
        rintro rfl
        cases hnone.symm.trans hj
      · show ((t.index.insert token.key t.tokens.size)[key]?).bind
          (fun i => (t.tokens.push token)[i]?) = _
        rw [hindex, find?]
        by_cases hkey : token.key = key
        · rw [if_pos hkey, ← hkey, hnone, find?_cons_of_pos (by simp)]
          exact hlast
        · rw [if_neg hkey, find?_cons_of_neg (by simpa using hkey), find?_nil,
            Option.or_none]
          cases hj : t.index[key]? with
          | none => rfl
          | some j =>
            obtain ⟨entry, hentry, -⟩ := h key j hj
            exact (hget hentry).trans hentry.symm
    · cases hadd

end TokenTable

/-! ## Uses of methods -/

/-- The token of the method that a `Piece` stands for. -/
def Piece.token? : Piece → Option MethodToken
  | .use ⟨_, _, _, .method ref⟩ _ _ _ => some ref.token
  | _ => none

/-- The methods that `Piece`s stand for, in order. -/
def usedTokens (ps : List Piece) : List MethodToken :=
  ps.filterMap Piece.token?

/-- A `Piece` that stands for a method holds its index. -/
def Piece.Indexed (t : TokenTable) (piece : Piece) : Prop :=
  ∀ symbol argCount isWanted ops ref, piece = .use symbol argCount isWanted ops →
    symbol.definition = .method ref → ∃ i, ops = [.callToken i] ∧ t.index[ref.token.key]? = some i

/-- Code fills a table: what was there stays, each method that the code uses has its index, and the
entry of a method is the one that was there or else that of its first use. -/
structure Fills (t : TokenTable) (ps : List Piece) (t' : TokenTable) : Prop where
  indexed : t'.Indexed
  kept : ∀ {key : MethodToken.Key} {i}, t.index[key]? = some i → t'.index[key]? = some i
  pieces : ∀ piece ∈ ps, piece.Indexed t'
  find?_eq : ∀ key, t'.find? key = (t.find? key).or ((usedTokens ps).find? (·.key == key))

/-- Code `Fills` a table part by part. -/
theorem Fills.trans {t'' : TokenTable} {qs : List Piece} (h : Fills t ps t')
    (h' : Fills t' qs t'') : Fills t (ps ++ qs) t'' where
  indexed := h'.indexed
  kept hi := h'.kept (h.kept hi)
  pieces := by
    refine forall_mem_append.mpr ⟨fun piece hpiece => ?_, h'.pieces⟩
    intro symbol argCount isWanted ops ref heq hdef
    obtain ⟨i, hops, hi⟩ := h.pieces piece hpiece symbol argCount isWanted ops ref heq hdef
    exact ⟨i, hops, h'.kept hi⟩
  find?_eq key := by
    rw [h'.find?_eq, h.find?_eq, usedTokens, usedTokens, usedTokens, filterMap_append,
      find?_append, Option.or_assoc]

/-- Pieces that stand for no method leave a table as it is. -/
theorem Fills.of_token?_eq_none (h : t.Indexed) (hps : ∀ piece ∈ ps, piece.token? = none) :
    Fills t ps t where
  indexed := h
  kept := id
  pieces := by
    rintro _ hpiece ⟨name, scope, span, definition⟩ argCount isWanted ops ref rfl hdef
    have hnone := hps _ hpiece
    cases hdef
    cases hnone
  find?_eq key := by
    rw [usedTokens, filterMap_eq_nil_iff.mpr hps, find?_nil, Option.or_none]

/-- What stands for a method adds its token. -/
theorem Uses.fills {ctx ctx' : Context} (h : Uses symbol.definition argCount ctx ops ctx')
    (hindexed : ctx.tokens.Indexed) :
    Fills ctx.tokens [.use symbol argCount isWanted ops] ctx'.tokens := by
  obtain ⟨name, scope, span, definition⟩ := symbol
  cases h with
  | function | host | event =>
    exact .of_token?_eq_none hindexed (forall_mem_singleton.mpr rfl)
  | @method ref _ _ index tokens hadd =>
    have hadds := TokenTable.add_eq_some hindexed hadd
    refine ⟨hadds.indexed, hadds.kept, forall_mem_singleton.mpr ?_, hadds.find?_eq⟩
    rintro _ _ _ _ ref' heq hdef
    cases heq
    cases hdef
    exact ⟨index, rfl, hadds.index_eq⟩

/-- The code of a function `Fills` the table of tokens. -/
theorem piecewise_tokens :
    Piecewise fun ctx ps ctx' => ctx.tokens.Indexed → Fills ctx.tokens ps ctx'.tokens where
  nil _ h := .of_token?_eq_none h (forall_mem_nil _)
  append h h' hindexed := (h hindexed).trans (h' (h hindexed).indexed)
  op _ h := .of_token?_eq_none h (forall_mem_singleton.mpr rfl)
  use _ _ huses h := huses.fills h
  leave _ _ _ h := .of_token?_eq_none h (forall_mem_singleton.mpr rfl)
  label _ _ h := .of_token?_eq_none h (forall_mem_nil _)
  declareLocal _ _ _ _ h := .of_token?_eq_none h (forall_mem_nil _)
  enclosed _ h hindexed := h hindexed

theorem RoutineCode.fills (h : RoutineCode p r before ps after) (hindexed : before.Indexed) :
    Fills before ps after := by
  cases h with
  | function _ _ _ hcode _ _ =>
    exact piecewise_tokens.function
      (fun _ _ _ _ h => .of_token?_eq_none h (forall_mem_nil _)) hcode hindexed
  | initializer _ _ _ _ hcode _ _ =>
    have hopening : Fills before [.op (.initStatics p.statics.length)] before :=
      .of_token?_eq_none hindexed (forall_mem_singleton.mpr rfl)
    exact hopening.trans (piecewise_tokens.statics hcode hindexed)

/-- All functions together fill the empty table. -/
theorem RoutinesCode.fills (h : RoutinesCode p routines ps tokens) : Fills .empty ps tokens := by
  induction h with
  | nil => exact .of_token?_eq_none TokenTable.indexed_empty (forall_mem_nil _)
  | snoc _ _ hlast ih => exact ih.trans (hlast.fills ih.indexed)

/-! ## Declarations of methods -/

/-- All declarations of the method that one refers to have the same signature. -/
def Registry.Agrees (r : Registry) (ref : MethodRef) : Prop :=
  ∀ symbol ∈ r.provided, ∀ other, symbol.definition = .method other →
    other.token.key = ref.token.key →
      other.paramCount = ref.paramCount ∧ other.returns = ref.returns

/-- A method is used with its number of arguments, or as a property, and it is one that the host
provides. -/
theorem provided_of_use (h : (Piece.use symbol argCount isWanted ops).Accounted p.declared.scope)
    (hdef : symbol.definition = .method ref) :
    symbol ∈ (bindProgram p).1.provided ∧ ref.flags = .all ∧
      (argCount = ref.paramCount ∨ ref.isProperty = true ∧ argCount = 0) := by
  obtain ⟨⟨e, hcallee⟩, hcount, ctx, ctx', huses⟩ := h
  have hprovided : symbol ∈ (bindProgram p).1.provided :=
    provided_of_callee? hcallee huses.isUsable fun _ _ _ hdef' => nomatch hdef.symm.trans hdef'
  have hflags := (allProvided_bindProgram p).symbols symbol hprovided
  rw [hdef] at hflags hcount
  refine ⟨hprovided, hflags, ?_⟩
  rcases hcount with hcount | hproperty
  · exact .inl (Option.some.inj hcount).symm
  · exact .inr hproperty

/-- The token of a use is that of a declaration that `bindProgram` has provided. -/
theorem RoutinesCode.exists_provided (h : RoutinesCode p routines ps tokens)
    (htoken : token ∈ usedTokens ps) : ∃ symbol ∈ (bindProgram p).1.provided, ∃ ref,
      symbol.definition = .method ref ∧ ref.flags = .all ∧ ref.token = token := by
  obtain ⟨piece, hpiece, htoken⟩ := mem_filterMap.mp htoken
  have haccounted := h.accounted piece hpiece
  unfold Piece.token? at htoken
  split at htoken
  · cases htoken
    obtain ⟨hprovided, hflags, -⟩ := provided_of_use haccounted rfl
    exact ⟨_, hprovided, _, rfl, hflags, rfl⟩
  · cases htoken

/-- The entry of a method that code uses: that of its first use, which names the same contract,
method and permissions, and the same signature if the declarations agree. -/
theorem RoutinesCode.exists_entry (h : RoutinesCode p routines ps tokens)
    (hpiece : Piece.use symbol argCount isWanted ops ∈ ps)
    (hdef : symbol.definition = .method ref) :
    ∃ index entry, ops = [.callToken index] ∧ tokens.get? index = some entry ∧
      entry.hash = ref.hash ∧ entry.method = ref.method ∧ entry.flags = ref.flags ∧
      (usedTokens ps).find? (·.key == ref.token.key) = some entry ∧
      ((bindProgram p).1.Agrees ref → entry = ref.token) := by
  have hfills := h.fills
  obtain ⟨index, hops, hindex⟩ := hfills.pieces _ hpiece symbol argCount isWanted ops ref rfl hdef
  obtain ⟨entry, hget, hkey⟩ := hfills.indexed _ _ hindex
  have hfirst : (usedTokens ps).find? (·.key == ref.token.key) = some entry := by
    have hentry : tokens.find? ref.token.key = some entry := by
      rw [TokenTable.find?, hindex]
      exact hget
    rw [hfills.find?_eq, TokenTable.find?_empty, Option.none_or] at hentry
    exact hentry
  obtain ⟨other, hother, ref', hdef', hflags', rfl⟩ :=
    h.exists_provided (mem_of_find?_eq_some hfirst)
  obtain ⟨-, hflags, -⟩ := provided_of_use (h.accounted _ hpiece) hdef
  obtain ⟨hhash, hmethod⟩ := Prod.mk.inj hkey
  have hall : ref'.flags = ref.flags := hflags'.trans hflags.symm
  refine ⟨index, _, hops, hget, hhash, hmethod, hall, hfirst, fun hagrees => ?_⟩
  obtain ⟨hparams, hreturns⟩ := hagrees other hother ref' hdef' hkey
  exact MethodToken.mk.injEq .. |>.mpr ⟨hhash, hmethod, hparams, hreturns, hall⟩

/-- Each call of a method stands for a symbol that stands for one. -/
theorem RoutineCode.exists_method (h : RoutineCode p r before ps after) {op : Op}
    (hop : op ∈ r.ops) {index : Nat} (hcall : op.operation = .callToken index) :
    ∃ symbol argCount isWanted ref, Piece.use symbol argCount isWanted [.callToken index] ∈ ps ∧
      symbol.definition = .method ref := by
  obtain ⟨symbol, argCount, isWanted, ops, hpiece, hmem⟩ := h.exists_use hop (by rw [hcall]; rfl)
  rw [hcall] at hmem
  obtain ⟨⟨e, hcallee⟩, -, ctx, ctx', huses⟩ := h.accounted _ hpiece
  obtain ⟨name, scope, span, definition⟩ := symbol
  cases huses with
  | function => simp at hmem
  | @host call =>
    -- the operations of the host are no calls of methods
    have hprovided := provided_of_callee? hcallee rfl nofun
    cases (allProvided_bindProgram p).symbols _ hprovided _ hmem
  | method _ =>
    cases mem_singleton.mp hmem
    exact ⟨_, argCount, isWanted, _, hpiece, rfl⟩
  | event => simp at hmem

/-! ## Programs -/

/-- In a program that compiles, whatever stands for a method of a contract takes its arguments and
is one `CALLT`, whose index is that of an entry of the `TokenTable`: for the same contract and
method with the same permissions, the entry of the first use of the method, and all that the symbol
says if the declarations of the method agree. There are no other calls of that kind, and in the
script, with short branches or not, each is an instruction with that index. -/
theorem token_calls_name_methods (p : Program) (options : CompileOptions) (contract : Contract)
    (h : compile p options = .ok contract) :
    ∃ ps, RoutinesCode p p.lowered.routines ps p.lowered.tokens ∧
      (∀ symbol argCount isWanted ops, Piece.use symbol argCount isWanted ops ∈ ps →
        ∀ ref, symbol.definition = .method ref →
        symbol ∈ (bindProgram p).1.provided ∧
        (argCount = ref.paramCount ∨ ref.isProperty = true ∧ argCount = 0) ∧
        ∃ index entry, ops = [.callToken index] ∧ contract.tokens[index]? = some entry ∧
          entry.hash = ref.hash ∧ entry.method = ref.method ∧ entry.flags = ref.flags ∧
          (usedTokens ps).find? (·.key == ref.token.key) = some entry ∧
          ((bindProgram p).1.Agrees ref → entry = ref.token)) ∧
      ∀ (k : Nat) r (j : Nat) op index, p.lowered.routines[k]? = some r → r.ops[j]? = some op →
        op.operation = .callToken index →
        (∃ symbol argCount isWanted ref,
          Piece.use symbol argCount isWanted [.callToken index] ∈ ps ∧
            symbol.definition = .method ref) ∧
        ∃ method is i, contract.methods[k]? = some method ∧
          Script.decodeMethod ⟨contract.script, contract.methods⟩ method = .ok is ∧
          is[codeCount (r.ops.take j)]? = some i ∧ i.opcode = .callT ∧
          i.operandNat? = some index := by
  obtain ⟨script, hcompiled⟩ := compiled_of_compile h
  obtain ⟨⟨ps, hall⟩, -⟩ := routinesCode_lowered hcompiled.lowered
  refine ⟨ps, hall, ?_, ?_⟩
  · intro symbol argCount isWanted ops hpiece ref hdef
    obtain ⟨hprovided, -, hcount⟩ := provided_of_use (hall.accounted _ hpiece) hdef
    obtain ⟨index, entry, hops, hget, hentry⟩ := hall.exists_entry hpiece hdef
    refine ⟨hprovided, hcount, index, entry, hops, ?_, hentry⟩
    rw [hcompiled.tokens_eq, Array.getElem?_toList]
    exact hget
  · intro k r j op index hk hj hcall
    obtain ⟨-, _, qs, _, hcode, hsub⟩ := hall.get hk
    obtain ⟨symbol, argCount, isWanted, ref, hpiece, hdef⟩ :=
      hcode.exists_method (mem_of_getElem? hj) hcall
    refine ⟨⟨symbol, argCount, isWanted, ref, hsub hpiece, hdef⟩, ?_⟩
    obtain ⟨m, is, i, t, hm, hdecode, hi, -, hcarried⟩ :=
      exists_carrier hcompiled.built hk hj (by rw [hcall]; rfl) (by rw [hcall]; rfl)
    rw [hcall] at hcarried
    rw [hcompiled.script_eq, hcompiled.methods_eq]
    exact ⟨m, is, i, hm, hdecode, hi, hcarried⟩

/-- A declaration of a method of another contract under a name of its own. -/
def declaredMethod (name : String) (params : List String) : FunctionDecl where
  id := ⟨name, {}⟩
  params := params.map fun param => ⟨⟨param, {}⟩, .integer, {}⟩
  returnType := .integer
  body := none
  isExport := false
  isSafe := false
  tags := [⟨"methodToken", "0xef4073a0f2b305a38ec4050e4d3d28bc40ea63f5 get", {}⟩]
  span := {}

/-- Two static variables, each the result of a call of one method under a name of its own. -/
def twoNames (params : List String) : Program :=
  let one : Expr := .literal (.int 1) .integer {}
  let call (name : String) (args : List Expr) : Option Expr :=
    some (.call (.ident ⟨name, {}⟩ .any {}) args .integer {})
  ⟨[], [.function (declaredMethod "first" ["a"]), .function (declaredMethod "second" params),
    .static ⟨⟨"x", {}⟩, .integer, call "first" [one], {}⟩,
    .static ⟨⟨"y", {}⟩, .integer, call "second" (params.map fun _ => one), {}⟩]⟩

/-- What the host provides to them. -/
def twoNamesRegistry (paramCount : Nat) : Registry :=
  let method (paramCount : Nat) : Definition :=
    .method ⟨NativeContract.neoToken.hash, "get", paramCount, true, .all, false⟩
  { symbols := [⟨"first", builtinScope, {}, method 1⟩,
      ⟨"second", builtinScope, {}, method paramCount⟩] }

theorem bindProgram_oneParam : bindProgram (twoNames ["a"]) = (twoNamesRegistry 1, []) := by
  rfl

theorem bindProgram_twoParams : bindProgram (twoNames ["a", "b"]) = (twoNamesRegistry 2, []) := by
  rfl

/-- The number of parameters of a method, and whether it returns a value. -/
def Definition.signature? : Definition → Option (Nat × Bool)
  | .method ref => some (ref.paramCount, ref.returns)
  | _ => none

theorem exists_of_signature? {d : Definition} {signature : Nat × Bool}
    (h : d.signature? = some signature) :
    ∃ ref, d = .method ref ∧ (ref.paramCount, ref.returns) = signature := by
  cases d with
  | method ref => exact ⟨ref, rfl, Option.some.inj h⟩
  | _ => cases h

theorem token_calls_name_methods_twoNames : ∃ contract symbol ref method is i,
    compile (twoNames ["a"]) { optimize := true } = .ok contract ∧
      symbol ∈ (bindProgram (twoNames ["a"])).1.provided ∧ symbol.definition = .method ref ∧
      contract.tokens[0]? = some ref.token ∧ contract.methods[0]? = some method ∧
      Script.decodeMethod ⟨contract.script, contract.methods⟩ method = .ok is ∧
      is[5]? = some i ∧ i.opcode = .callT ∧ i.operandNat? = some 0 := by
  obtain ⟨contract, hcontract⟩ : ∃ contract,
      compile (twoNames ["a"]) { optimize := true } = .ok contract := by
    refine exists_compile ?_ ?_ ?_ ?_
    · rw [bindProgram_oneParam]
    all_goals
      simp only [Program.lowered, Program.declared, bindProgram_oneParam]
      cbv
  obtain ⟨ps, -, huses, hcalls⟩ := token_calls_name_methods _ _ contract hcontract
  have hops : (twoNames ["a"]).lowered.routines[0]?.map (·.ops.map Op.operation) =
      some ([.initStatics 2, .pushInt 1, .callToken 0, .store .static 0, .pushInt 1, .callToken 0,
        .store .static 1, .label 0, .return] : List Operation) := by
    simp only [Program.lowered, Program.declared, bindProgram_oneParam]
    cbv
  obtain ⟨r, hr, hops⟩ := Option.map_eq_some_iff.mp hops
  have hcall : r.ops[5]?.map Op.operation = some (.callToken 0) := by
    rw [← getElem?_map, hops]
    rfl
  obtain ⟨op, hop, hcall⟩ := Option.map_eq_some_iff.mp hcall
  obtain ⟨⟨symbol, argCount, isWanted, ref, hpiece, hdef⟩, method, is, i, hmethod, hdecode, hi,
    hopcode, hoperand⟩ := hcalls 0 r 5 op 0 hr hop hcall
  obtain ⟨hprovided, -, index, entry, hindex, hentry, -, -, -, -, hagreed⟩ :=
    huses symbol argCount isWanted _ hpiece ref hdef
  cases hindex
  -- both declarations of the method have one parameter
  have hall : (bindProgram (twoNames ["a"])).1.provided.all
      (·.definition.signature?.all (· == (1, true))) = true := by
    rw [bindProgram_oneParam]
    rfl
  have hsignature : ∀ symbol ∈ (bindProgram (twoNames ["a"])).1.provided, ∀ ref,
      symbol.definition = .method ref → ref.paramCount = 1 ∧ ref.returns = true := by
    intro symbol hsymbol ref hdef
    have hone := all_eq_true.mp hall symbol hsymbol
    rw [hdef] at hone
    simpa [Definition.signature?] using hone
  have hagrees : (bindProgram (twoNames ["a"])).1.Agrees ref := by
    intro other hother ref' hdef' _
    obtain ⟨hparams, hreturns⟩ := hsignature symbol hprovided ref hdef
    obtain ⟨hparams', hreturns'⟩ := hsignature other hother ref' hdef'
    exact ⟨hparams'.trans hparams.symm, hreturns'.trans hreturns.symm⟩
  rw [hagreed hagrees] at hentry
  have hplace : codeCount (r.ops.take 5) = 5 := by
    have hcount : codeCount (r.ops.take 5) =
        ((r.ops.map Op.operation).take 5).countP fun op => !op.isMarker := by
      rw [← map_take, countP_map]
      rfl
    rw [hcount, hops]
    rfl
  rw [hplace] at hi
  exact ⟨contract, symbol, ref, method, is, i, hcontract, hprovided, hdef, hentry, hmethod, hdecode,
    hi, hopcode, hoperand⟩

/-- The second name of a method is declared and called with two parameters, but the call finds the
entry of the first name, which has one. -/
theorem second_declaration_not_named : ∃ contract symbol ref entry,
    compile (twoNames ["a", "b"]) {} = .ok contract ∧
      (twoNames ["a", "b"]).declared.scope.lookup "second" = some symbol ∧
      symbol.definition = .method ref ∧ ref.paramCount = 2 ∧
      (twoNames ["a", "b"]).lowered.routines.map (·.ops.map Op.operation) =
        [[.initStatics 2, .pushInt 1, .callToken 0, .store .static 0, .pushInt 1, .pushInt 1,
          .callToken 0, .store .static 1, .label 0, .return]] ∧
      contract.tokens = [entry] ∧ entry.paramCount = 1 := by
  obtain ⟨contract, hcontract⟩ : ∃ contract, compile (twoNames ["a", "b"]) {} = .ok contract := by
    refine exists_compile ?_ ?_ ?_ ?_
    · rw [bindProgram_twoParams]
    all_goals
      simp only [Program.lowered, Program.declared, bindProgram_twoParams]
      cbv
  obtain ⟨_, hcompiled⟩ := compiled_of_compile hcontract
  have hcounts : contract.tokens.map MethodToken.paramCount = [1] := by
    rw [hcompiled.tokens_eq, Program.lowered, Program.declared, bindProgram_twoParams]
    cbv
  obtain ⟨entry, hentry, hcount⟩ := map_eq_singleton_iff.mp hcounts
  have hsecond : ((twoNames ["a", "b"]).declared.scope.lookup "second").bind
      (·.definition.signature?) = some (2, true) := by
    rw [Program.declared, bindProgram_twoParams]
    rfl
  obtain ⟨symbol, hlookup, hsignature⟩ := Option.bind_eq_some_iff.mp hsecond
  obtain ⟨ref, hdef, hparams⟩ := exists_of_signature? hsignature
  refine ⟨contract, symbol, ref, entry, hcontract, hlookup, hdef, (Prod.mk.inj hparams).1, ?_,
    hentry, hcount⟩
  rw [Program.lowered, Program.declared, bindProgram_twoParams]
  cbv

end ContractScript
