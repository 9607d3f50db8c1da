import ContractScript.Proofs.FirstUses
import ContractScript.Proofs.ProgramCode
import ContractScript.Proofs.TwoRuns

/-!
# Functions are lowered independently

All functions of a program share the token table and the numbers of scopes. What is in other
functions, also in such that fail, shows in the code of a function by the indices of its tokens
only, and these stand for the same methods.
-/

namespace ContractScript

open List

variable {t t' : TokenTable} {i : Nat} {token : MethodToken} {d d' : Declarations} {j : FunctionId}
  {decl : FunctionDecl}

open Lower

/-! ## Outcomes -/

/-- How a function ended. -/
def outcomeOf : EStateM.Result Diagnostic LowerState Routine → Except Diagnostic Routine
  | .ok r _ => .ok r
  | .error e _ => .error e

/-- The fault of a function that failed. -/
def faultOf? : Except Diagnostic Routine → Option Diagnostic
  | .ok _ => none
  | .error e => some e

/-- How functions end that are lowered from a number on. -/
def Lowering.outcomes (l : Lowering) (id : FunctionId) :
    List FunctionDecl → List (Except Diagnostic Routine)
  | [] => []
  | decl :: rest =>
    outcomeOf (lowerFunction decl (l.start id decl.id.name)) ::
      (l.collect (lowerFunction decl (l.start id decl.id.name))).outcomes (id + 1) rest

/-- How the functions of a program end, by number. -/
def Declarations.outcomes (d : Declarations) : List (Except Diagnostic Routine) :=
  Lowering.outcomes { scope := d.scope } 0 d.functions

namespace Lowering

theorem routines_collect (l : Lowering) (result : EStateM.Result Diagnostic LowerState Routine) :
    (l.collect result).routines = l.routines ++ (outcomeOf result).toOption.toList := by
  cases result with
  | ok r s => rfl
  | error e s => exact (append_nil _).symm

theorem faults_collect_eq (l : Lowering)
    (result : EStateM.Result Diagnostic LowerState Routine) :
    (l.collect result).faults = l.faults ++ (faultOf? (outcomeOf result)).toList := by
  cases result with
  | ok r s => exact (append_nil _).symm
  | error e s => rfl

theorem tokens_collect (l : Lowering) (result : EStateM.Result Diagnostic LowerState Routine) :
    (l.collect result).tokens = (finalState result).tokens := by
  cases result <;> rfl

/-- `addFunctions` collects the routines of the functions that are lowered. -/
theorem routines_addFunctions : ∀ (decls : List FunctionDecl) (l : Lowering) (id : FunctionId),
    (l.addFunctions id decls).routines =
      l.routines ++ (l.outcomes id decls).filterMap Except.toOption
  | [], l, _ => (append_nil _).symm
  | decl :: rest, l, id => by
    rw [addFunctions, routines_addFunctions rest, routines_collect, outcomes, append_assoc,
      filterMap_cons]
    cases (outcomeOf (lowerFunction decl (l.start id decl.id.name))).toOption <;> rfl

/-- `addFunctions` collects the faults of the others. -/
theorem faults_addFunctions_eq : ∀ (decls : List FunctionDecl) (l : Lowering) (id : FunctionId),
    (l.addFunctions id decls).faults = l.faults ++ (l.outcomes id decls).filterMap faultOf?
  | [], l, _ => (append_nil _).symm
  | decl :: rest, l, id => by
    rw [addFunctions, faults_addFunctions_eq rest, faults_collect_eq, outcomes, append_assoc,
      filterMap_cons]
    cases faultOf? (outcomeOf (lowerFunction decl (l.start id decl.id.name))) <;> rfl

theorem addFunctions_append : ∀ (decls more : List FunctionDecl) (l : Lowering) (id : FunctionId),
    l.addFunctions id (decls ++ more) =
      (l.addFunctions id decls).addFunctions (id + decls.length) more
  | [], _, _, _ => rfl
  | decl :: rest, more, l, id => by
    rw [cons_append, addFunctions, addFunctions, addFunctions_append rest, length_cons,
      Nat.add_assoc, Nat.add_comm 1]

/-- A function ends as it does after those with lower numbers. -/
theorem getElem?_outcomes : ∀ (decls : List FunctionDecl) (l : Lowering) (id : FunctionId)
    (k : Nat),
    (l.outcomes id decls)[k]? = decls[k]?.map fun decl =>
      outcomeOf (lowerFunction decl
        ((l.addFunctions id (decls.take k)).start (id + k) decl.id.name))
  | [], _, _, _ => rfl
  | decl :: rest, l, id, 0 => rfl
  | decl :: rest, l, id, k + 1 => by
    rw [outcomes, getElem?_cons_succ, getElem?_outcomes rest, getElem?_cons_succ,
      take_succ_cons, addFunctions, Nat.add_assoc, Nat.add_comm 1]

end Lowering

/-- The routines and the faults of `lowerProgram` begin with those of its functions. -/
theorem prefix_lowerProgram (d : Declarations) :
    d.outcomes.filterMap Except.toOption <+: (lowerProgram d).routines ∧
      d.outcomes.filterMap faultOf? <+: (lowerProgram d).faults := by
  have hroutines := Lowering.routines_addFunctions d.functions { scope := d.scope } 0
  have hfaults := Lowering.faults_addFunctions_eq d.functions { scope := d.scope } 0
  rw [nil_append] at hroutines hfaults
  unfold lowerProgram Declarations.outcomes
  rw [← hroutines, ← hfaults]
  dsimp only
  split
  · exact ⟨prefix_refl _, prefix_refl _⟩
  · rw [Lowering.addInitializer]
    dsimp only
    rw [Lowering.routines_collect, Lowering.faults_collect_eq, append_assoc]
    exact ⟨prefix_append _ _, prefix_append _ _⟩

/-! ## What a run leaves of its past -/

/-- A token table only grows, and stays coherent. -/
structure TokenTable.Grows (t t' : TokenTable) : Prop where
  coherent : t.Coherent → t'.Coherent
  isPrefix : t.tokens.toList <+: t'.tokens.toList

namespace TokenTable.Grows

theorem refl (t : TokenTable) : t.Grows t := ⟨id, prefix_refl _⟩

theorem trans {t'' : TokenTable} (h : t.Grows t') (h' : t'.Grows t'') : t.Grows t'' :=
  ⟨h'.coherent ∘ h.coherent, h.isPrefix.trans h'.isPrefix⟩

theorem add (t : TokenTable) (token : MethodToken) : t.Grows (t.add token).2 :=
  ⟨fun h => coherent_add h token, isPrefix_add t token⟩

/-- An entry stays where it is. -/
theorem get? (h : t.Grows t') (hi : t.get? i = some token) : t'.get? i = some token := by
  obtain ⟨rest, hrest⟩ := h.isPrefix
  rw [TokenTable.get?, ← Array.getElem?_toList] at hi ⊢
  rw [← hrest, getElem?_append_left (List.getElem?_eq_some_iff.mp hi).1]
  exact hi

theorem size_le (h : t.Grows t') : t.size ≤ t'.size := by
  rw [size, size, ← Array.length_toList, ← Array.length_toList]
  exact h.isPrefix.length_le

end TokenTable.Grows

/-- Lowering only adds tokens. -/
theorem lawful_grows : Lawful (fun s s' => s.tokens.Grows s'.tokens) (fun _ => True) where
  refl s := .refl s.tokens
  trans h h' := h.trans h'
  draft s _ _ := .refl s.tokens
  push s _ := .refl s.tokens
  token s token := .add s.tokens token
  enclosed _ h := h
  symbol _ := trivial
  lowering _ := trivial
  tooLarge _ _ _ _ _ := trivial

theorem grows_lowerStatics (statics : List StaticDecl) (index : Nat) (s : LowerState) :
    s.tokens.Grows (lowerStatics statics index s).2.tokens :=
  (lowerStatics_keeps lawful_grows.stmtLaws.toFrameLaws statics index s).1

/-- What later functions see of those before: the global scope as it was, and a table that has
grown. -/
structure Lowering.Continues (l l' : Lowering) : Prop where
  scope : SameGlobals l.scope l'.scope
  tokens : l.tokens.Grows l'.tokens

namespace Lowering

theorem continues_collect (l : Lowering) (id : FunctionId) (decl : FunctionDecl) :
    l.Continues (l.collect (lowerFunction decl (l.start id decl.id.name))) := by
  refine ⟨?_, ?_⟩
  · rw [collect_scope]
    exact sameGlobals_lowerFunction decl (l.start id decl.id.name)
  · rw [tokens_collect]
    have hkeeps := lowerFunction_keeps lawful_grows (fun _ _ _ => trivial) decl
    exact hkeeps.finalState (l.start id decl.id.name)

/-- `addFunctions` leaves the global scope as it was. -/
theorem continues_addFunctions : ∀ (decls : List FunctionDecl) (l : Lowering) (id : FunctionId),
    l.Continues (l.addFunctions id decls)
  | [], l, _ => ⟨⟨rfl, rfl, rfl⟩, .refl l.tokens⟩
  | decl :: rest, l, id => by
    have hfirst := l.continues_collect id decl
    have hrest := continues_addFunctions rest
      (l.collect (lowerFunction decl (l.start id decl.id.name))) (id + 1)
    exact ⟨hfirst.scope.trans hrest.scope, hfirst.tokens.trans hrest.tokens⟩

theorem grows_addInitializer (l : Lowering) (id : FunctionId) (statics : List StaticDecl) :
    l.tokens.Grows (l.addInitializer id statics).tokens := by
  rw [addInitializer]
  dsimp only
  rw [tokens_collect, finalState_finishDraft]
  have hgrows := grows_lowerStatics statics 0 { l.start id initializerName with
    draft := (l.start id initializerName).draft.emit (.initStatics statics.length) }
  exact hgrows

end Lowering

theorem grows_lowerProgram (d : Declarations) :
    (Lowering.addFunctions { scope := d.scope } 0 d.functions).tokens.Grows
      (lowerProgram d).tokens := by
  unfold lowerProgram
  dsimp only
  split
  · exact .refl _
  · exact Lowering.grows_addInitializer _ _ _

/-! ## Tables that go together by methods -/

/-- Indices of two tables whose entries name the same method of the same contract. -/
def TokenTable.SameMethod (t t' : TokenTable) (i j : Nat) : Prop :=
  ∃ token token', t.get? i = some token ∧ t'.get? j = some token' ∧
    token.hash = token'.hash ∧ token.method = token'.method

/-- Tables that grow keep the entries of `SameMethod`. -/
theorem TokenTable.SameMethod.grows {u u' : TokenTable} (ht : t.Grows u) (ht' : t'.Grows u')
    {j : Nat} (h : t.SameMethod t' i j) : u.SameMethod u' i j := by
  obtain ⟨token, token', hi, hj, hkey⟩ := h
  exact ⟨token, token', ht.get? hi, ht'.get? hj, hkey⟩

theorem size_of_add_eq_none (h : (t.add token).1 = none) : t.size = TokenTable.capacity := by
  rcases t.add_cases token with ⟨i, -, hadd⟩ | ⟨-, hfull, -⟩ | ⟨-, -, t', hadd, -⟩
  · rw [hadd] at h
    cases h
  · exact hfull
  · rw [hadd] at h
    cases h

/-- Any two coherent tables go together, each index with that of the same method, until one of them
is full. -/
def byMethod : TokenPairing where
  tables t t' := t.Coherent ∧ t'.Coherent
  indices := TokenTable.SameMethod
  spent t := t.size = TokenTable.capacity
  mono {t t'} token _ _ h := h.grows (.add t token) (.add t' token)
  add {t t'} token h := by
    cases hi : (t.add token).1 with
    | none => exact .inr (.inr (.inl ⟨rfl, size_of_add_eq_none hi⟩))
    | some i =>
      cases hj : (t'.add token).1 with
      | none => exact .inr (.inr (.inr ⟨rfl, size_of_add_eq_none hj⟩))
      | some j =>
        obtain ⟨entry, hentry, hkey⟩ := h.1.get?_of_add hi
        obtain ⟨entry', hentry', hkey'⟩ := h.2.get?_of_add hj
        have hkeys := Prod.mk.inj (hkey.trans hkey'.symm)
        exact .inl ⟨i, j, rfl, rfl,
          ⟨TokenTable.coherent_add h.1 token, TokenTable.coherent_add h.2 token⟩,
          entry, entry', hentry, hentry', hkeys.1, hkeys.2⟩

/-! ## The global scope -/

/-- No operation of the host names a token. -/
def Scope.TokenFree (s : Scope) : Prop :=
  ∀ symbols ∈ s.builtins.symbols :: s.rootFrame.symbols :: s.inner.map Frame.symbols,
    ∀ symbol ∈ symbols, ∀ op ∈ symbol.definition.hostOps, op.namesToken = false

/-- Two scopes with the same names outside of all functions are alike. -/
theorem Scope.TokenFree.alike {P : TokenPairing} {scope s s' : Scope} (h : scope.TokenFree)
    (hs : SameGlobals scope s) (hs' : SameGlobals scope s') : s.Alike P.Plain s' := by
  have hself : ∀ symbols ∈ scope.builtins.symbols :: scope.rootFrame.symbols ::
      scope.inner.map Frame.symbols, SymbolsAlike P.Plain symbols symbols := fun symbols hmem =>
    symbolsAlike_refl fun symbol hsymbol op hop =>
      TokenPairing.plain_of_namesToken (h symbols hmem symbol hsymbol op hop)
  refine ⟨?_, ?_, ?_⟩
  · rw [hs.inner_eq, hs'.inner_eq, forall₂_same]
    exact fun f hf =>
      hself f.symbols (mem_cons_of_mem _ (mem_cons_of_mem _ (mem_map_of_mem hf)))
  · rw [hs.rootFrame_eq, hs'.rootFrame_eq]
    exact hself _ (mem_cons_of_mem _ mem_cons_self)
  · rw [hs.builtins_eq, hs'.builtins_eq]
    exact hself _ mem_cons_self

theorem namesToken_of_isStraight {op : Operation} (h : op.isStraight = true) :
    op.namesToken = false := by
  cases op <;> first | rfl | cases h

theorem namesToken_of_provided {d : Definition} (h : d.Provided) :
    ∀ op ∈ d.hostOps, op.namesToken = false := by
  cases d with
  | host call =>
    intro op hop
    rw [Definition.hostOps] at hop
    exact namesToken_of_isStraight (h op hop)
  | method ref => exact nofun
  | event name count => exact nofun
  | _ => cases h

/-- What `bindProgram` provides is made of operations without tokens. -/
theorem namesToken_of_allProvided {r : Registry} (h : r.AllProvided) :
    ∀ symbol ∈ r.symbols, ∀ op ∈ symbol.definition.hostOps, op.namesToken = false := by
  intro symbol hsymbol op hop
  by_cases hobject : ∃ members, symbol.definition = .object members
  · -- the operations of an object are those of its members
    obtain ⟨members, hmembers⟩ := hobject
    rw [hmembers, Definition.hostOps, mem_memberOps] at hop
    obtain ⟨member, hmember, hop⟩ := hop
    have hprovided : member ∈ r.provided := by
      refine mem_flatMap.mpr ⟨symbol, hsymbol, ?_⟩
      rw [hmembers]
      exact hmember
    exact namesToken_of_provided (h.symbols member hprovided) op hop
  · have hprovided : symbol ∈ r.provided := by
      refine mem_flatMap.mpr ⟨symbol, hsymbol, ?_⟩
      split
      · next members hmembers => exact absurd ⟨members, hmembers⟩ hobject
      · exact mem_singleton_self symbol
    exact namesToken_of_provided (h.symbols symbol hprovided) op hop

theorem hostOps_of_declaredBy {p : Program} {symbol : Symbol} (h : Symbol.DeclaredBy p symbol) :
    symbol.definition.hostOps = [] := by
  have hvalue : ∀ {d : Definition}, d.hasValue = true → d.hostOps = [] := by
    intro d hd
    cases d <;> first | rfl | cases hd
  cases h with
  | item hdeclared =>
    cases hdeclared with
    | value h => exact hvalue h
    | function _ _ hdef => rw [hdef]; rfl
  | initializer _ _ hdef => rw [hdef]; rfl

/-- What a program declares for the host is made of operations without tokens. -/
theorem tokenFree_declared (p : Program) : p.declared.scope.TokenFree := by
  have hbuiltins : p.declared.scope.builtins = (bindProgram p).1 :=
    ((extends_declareItems _ p).trans (extends_declare _ p)).builtins_eq
  intro symbols hsymbols symbol hsymbol op hop
  rw [inner_declare, hbuiltins] at hsymbols
  simp only [map_nil, mem_cons, not_mem_nil, or_false] at hsymbols
  rcases hsymbols with rfl | rfl
  · exact namesToken_of_allProvided (allProvided_bindProgram p) symbol hsymbol op hop
  · rw [hostOps_of_declaredBy (declaredBy_declare _ p symbol hsymbol)] at hop
    cases hop

/-! ## Independence -/

/-- The state in which a function starts, after those with lower numbers. -/
def Declarations.before (d : Declarations) (j : FunctionId) : Lowering :=
  Lowering.addFunctions { scope := d.scope } 0 (d.functions.take j)

theorem Declarations.getElem?_outcomes (h : d.functions[j]? = some decl) :
    d.outcomes[j]? = some (outcomeOf (lowerFunction decl ((d.before j).start j decl.id.name))) := by
  rw [outcomes, Lowering.getElem?_outcomes, h, Nat.zero_add]
  rfl

/-- The table that a function leaves only grows until the end of the run. -/
theorem Declarations.grows_lowerFunction (h : d.functions[j]? = some decl) :
    (finalState (lowerFunction decl ((d.before j).start j decl.id.name))).tokens.Grows
      (lowerProgram d).tokens := by
  obtain ⟨hj, hdecl⟩ := List.getElem?_eq_some_iff.mp h
  have hsplit : d.functions = d.functions.take j ++ decl :: d.functions.drop (j + 1) := by
    rw [← hdecl, getElem_cons_drop, take_append_drop]
  have hlength : 0 + (d.functions.take j).length = j := by
    rw [Nat.zero_add, length_take_of_le (Nat.le_of_lt hj)]
  have hall := grows_lowerProgram d
  rw [hsplit, Lowering.addFunctions_append, hlength, Lowering.addFunctions] at hall
  have hrest := (Lowering.continues_addFunctions (d.functions.drop (j + 1)) ((d.before j).collect
    (lowerFunction decl ((d.before j).start j decl.id.name))) (j + 1)).tokens
  rw [Lowering.tokens_collect] at hrest
  exact hrest.trans hall

/-- After the same functions' names, whatever their bodies, a function starts alike. -/
theorem alike_start (hscope : d'.scope = d.scope) (hfree : d.scope.TokenFree) (j : FunctionId)
    (name : String) : ((d.before j).start j name).Alike byMethod ((d'.before j).start j name) := by
  have hrun := Lowering.continues_addFunctions (d.functions.take j) { scope := d.scope } 0
  have hrun' := Lowering.continues_addFunctions (d'.functions.take j) { scope := d'.scope } 0
  refine ⟨⟨#[], rfl, .nil⟩, hfree.alike hrun.scope ?_, hrun.tokens.coherent ?_,
    hrun'.tokens.coherent ?_⟩
  · rw [← hscope]
    exact hrun'.scope
  · exact TokenTable.coherent_empty
  · exact TokenTable.coherent_empty

/-- A function ends alike in two runs whose tables have room to the end. -/
theorem outcomes_alike (hscope : d'.scope = d.scope) (hfree : d.scope.TokenFree)
    (hdecl : d.functions[j]? = some decl) (hdecl' : d'.functions[j]? = some decl)
    (hroom : (lowerProgram d).tokens.size < TokenTable.capacity)
    (hroom' : (lowerProgram d').tokens.size < TokenTable.capacity) :
    (∃ e, d.outcomes[j]? = some (.error e) ∧ d'.outcomes[j]? = some (.error e)) ∨
      ∃ r r', d.outcomes[j]? = some (.ok r) ∧ d'.outcomes[j]? = some (.ok r') ∧ r.id = j ∧
        r.Alike ((lowerProgram d).tokens.SameMethod (lowerProgram d').tokens) r' := by
  have hends := lowerFunction_agree decl (alike_start hscope hfree j decl.id.name)
  have hgrows := Declarations.grows_lowerFunction hdecl
  have hgrows' := Declarations.grows_lowerFunction hdecl'
  have howner := @owner_lowerFunction decl ((d.before j).start j decl.id.name)
  rw [Declarations.getElem?_outcomes hdecl, Declarations.getElem?_outcomes hdecl']
  generalize lowerFunction decl ((d.before j).start j decl.id.name) = result at *
  generalize lowerFunction decl ((d'.before j).start j decl.id.name) = result' at *
  cases hends with
  | @ok r r' s s' hr _ =>
    refine .inr ⟨r, r', rfl, rfl, congrArg Prod.fst (howner rfl), ?_⟩
    exact hr.mono fun _ _ hlink => hlink.grows hgrows hgrows'
  | error _ => exact .inl ⟨_, rfl, rfl⟩
  | spentLeft hspent =>
    -- a table that is full stays so
    have hfull : TokenTable.capacity ≤ (lowerProgram d).tokens.size := hspent ▸ hgrows.size_le
    exact absurd hroom (Nat.not_lt.mpr hfull)
  | spentRight hspent =>
    have hfull : TokenTable.capacity ≤ (lowerProgram d').tokens.size := hspent ▸ hgrows'.size_le
    exact absurd hroom' (Nat.not_lt.mpr hfull)

theorem mem_routines_of_outcome {r : Routine} (h : d.outcomes[j]? = some (.ok r)) :
    r ∈ (lowerProgram d).routines :=
  (prefix_lowerProgram d).1.subset
    (mem_filterMap.mpr ⟨.ok r, mem_of_getElem? h, rfl⟩)

theorem mem_faults_of_outcome {e : Diagnostic} (h : d.outcomes[j]? = some (.error e)) :
    e ∈ (lowerProgram d).faults :=
  (prefix_lowerProgram d).2.subset
    (mem_filterMap.mpr ⟨.error e, mem_of_getElem? h, rfl⟩)

/-- Two sets of `Declarations` over the global scope of one program have a function in common, and
may differ in all others, also in whether these can be lowered. If neither fills the token table,
the function fails with the same fault in both runs of `lowerProgram`, or both make the same routine
of it but for the indices of tokens, which stand for the same methods in the tables that the runs
end with. -/
theorem functions_lower_independently (p : Program) (d d' : Declarations) (j : FunctionId)
    (decl : FunctionDecl) (hscope : d.scope = p.declared.scope)
    (hscope' : d'.scope = p.declared.scope) (hdecl : d.functions[j]? = some decl)
    (hdecl' : d'.functions[j]? = some decl)
    (hroom : (lowerProgram d).tokens.size < TokenTable.capacity)
    (hroom' : (lowerProgram d').tokens.size < TokenTable.capacity) :
    (∃ e, d.outcomes[j]? = some (.error e) ∧ d'.outcomes[j]? = some (.error e) ∧
      e ∈ (lowerProgram d).faults ∧ e ∈ (lowerProgram d').faults) ∨
    ∃ r r', d.outcomes[j]? = some (.ok r) ∧ d'.outcomes[j]? = some (.ok r') ∧
      r ∈ (lowerProgram d).routines ∧ r' ∈ (lowerProgram d').routines ∧ r.id = j ∧
      r.Alike ((lowerProgram d).tokens.SameMethod (lowerProgram d').tokens) r' := by
  have hfree : d.scope.TokenFree := hscope ▸ tokenFree_declared p
  rcases outcomes_alike (hscope'.trans hscope.symm) hfree hdecl hdecl' hroom hroom' with
    ⟨e, he, he'⟩ | ⟨r, r', hr, hr', hid, halike⟩
  · exact .inl ⟨e, he, he', mem_faults_of_outcome he, mem_faults_of_outcome he'⟩
  · exact .inr ⟨r, r', hr, hr', mem_routines_of_outcome hr, mem_routines_of_outcome hr', hid,
      halike⟩

/-- A function with a body that only calls a method. -/
def callerOf (method : String) : FunctionDecl where
  id := ⟨"call_" ++ method, {}⟩
  params := []
  returnType := .void
  body := some ⟨[.expr (.call (.ident ⟨method, {}⟩ .any {}) [] .void {}) {}], {}⟩
  isExport := true
  isSafe := false
  tags := []
  span := {}

/-- Two methods of another contract. -/
def twoMethods : Program :=
  let method (name : String) : Item :=
    .function { callerOf name with
      id := ⟨name, {}⟩
      body := none
      tags := [⟨"methodToken", "0x0000000000000000000000000000000000000000", {}⟩] }
  ⟨[], [method "get", method "put"]⟩

theorem bindProgram_twoMethods : bindProgram twoMethods =
    ({ symbols := ["get", "put"].map fun name =>
        ⟨name, builtinScope, {}, .method ⟨.zero, name, 0, false, .all, false⟩⟩ }, []) := by
  rfl

/-- A function that calls a method, after another function. -/
def afterOther (other : FunctionDecl) : Declarations :=
  { scope := twoMethods.declared.scope, functions := [other, callerOf "get"] }

/-- A function after one that uses a token, and after one that fails. -/
theorem functions_lower_independently_twoMethods : ∃ r r' : Routine,
    (afterOther (callerOf "put")).outcomes[1]? = some (.ok r) ∧
    (afterOther (callerOf "none")).outcomes[1]? = some (.ok r') ∧
    r.ops.map Op.operation = [.anchor, .callToken 1, .anchor, .label 0, .return] ∧
    r'.ops.map Op.operation = [.anchor, .callToken 0, .anchor, .label 0, .return] ∧
    r.Alike ((lowerProgram (afterOther (callerOf "put"))).tokens.SameMethod
      (lowerProgram (afterOther (callerOf "none"))).tokens) r' := by
  have hroom : (lowerProgram (afterOther (callerOf "put"))).tokens.size < TokenTable.capacity := by
    rw [afterOther, Program.declared, bindProgram_twoMethods]
    cbv
  have hroom' :
      (lowerProgram (afterOther (callerOf "none"))).tokens.size < TokenTable.capacity := by
    rw [afterOther, Program.declared, bindProgram_twoMethods]
    cbv
  have hops : ((afterOther (callerOf "put")).outcomes[1]?.bind Except.toOption).map
      (·.ops.map Op.operation) =
        some ([.anchor, .callToken 1, .anchor, .label 0, .return] : List Operation) := by
    rw [afterOther, Program.declared, bindProgram_twoMethods]
    cbv
  have hops' : ((afterOther (callerOf "none")).outcomes[1]?.bind Except.toOption).map
      (·.ops.map Op.operation) =
        some ([.anchor, .callToken 0, .anchor, .label 0, .return] : List Operation) := by
    rw [afterOther, Program.declared, bindProgram_twoMethods]
    cbv
  rcases functions_lower_independently twoMethods (afterOther (callerOf "put"))
    (afterOther (callerOf "none")) 1 (callerOf "get") rfl rfl rfl rfl hroom hroom' with
    ⟨e, he, -⟩ | ⟨r, r', hr, hr', -, -, -, halike⟩
  · rw [he] at hops
    cases hops
  · rw [hr] at hops
    rw [hr'] at hops'
    exact ⟨r, r', hr, hr', Option.some.inj hops, Option.some.inj hops', halike⟩

end ContractScript
