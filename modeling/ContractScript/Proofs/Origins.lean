import Mathlib.Data.List.Nodup
import ContractScript.Proofs.Linking

/-!
# Where routines come from

Each routine of a program without faults is that of a declared function, or it fills the static
slots (`Origin`). Its code, its slots and what callers are told of it all come from there.
-/

namespace ContractScript

open List

variable {decl : FunctionDecl} {ctx ctx' : Context}

open Lower

/-! ## Routines by number -/

variable {r : Routine} {p : Program}

/-- What a `Routine` of a program is made of: the declaration with its number, or the values of the
static variables. -/
inductive Origin (p : Program) (r : Routine) : Prop where
  | function {decl : FunctionDecl} {scope : Scope} {tokens : TokenTable} {ps : List Piece}
    {ctx : Context} :
    p.functions[r.id]? = some decl → SameGlobals p.declared.scope scope →
    FunctionCode decl ⟨scope, #[], #[], 1, tokens⟩ ps ctx →
    r = ⟨r.id, decl.id.name, r.ops, ctx.params.toList, ctx.locals.toList,
      ParamType.ofTy decl.returnType, decl.isExport, decl.isMarkedSafe⟩ →
    r.ops.map Op.operation = finishedCode ps ctx → Origin p r
  | initializer {scope : Scope} {tokens : TokenTable} {ps : List Piece} {ctx : Context} :
    p.statics ≠ [] → r.id = p.functions.length → SameGlobals p.declared.scope scope →
    StaticsCode p.statics 0 ⟨scope, #[], #[], 1, tokens⟩ ps ctx →
    r = ⟨r.id, initializerName, r.ops, ctx.params.toList, ctx.locals.toList, .void, true, false⟩ →
    r.ops.map Op.operation = finishedCode (.op (.initStatics p.statics.length) :: ps) ctx →
    Origin p r

/-- What `lowerFunction` makes has the declaration as its `Origin`. -/
theorem origin_of_lowerFunction {scope : Scope} {tokens : TokenTable} {s : LowerState}
    (hdecl : p.functions[r.id]? = some decl) (hscope : SameGlobals p.declared.scope scope)
    (h : lowerFunction decl ⟨{ id := r.id, name := decl.id.name }, scope, tokens⟩ = .ok r s) :
    Origin p r := by
  obtain ⟨ps, hcode, -, hops⟩ := lowerFunction_code h
  have hname : r.name = decl.id.name := congrArg Prod.snd (owner_lowerFunction h)
  obtain ⟨finished, hfinish, -, hr⟩ := lowerFunction_eq_ok h
  refine .function hdecl hscope hcode ?_ hops
  have heq := eq_of_finish hfinish
  rw [hr] at hname ⊢
  rw [heq] at hname ⊢
  rw [← hname]
  rfl

/-- What the function that fills the static slots is made of, once its number is known. -/
theorem origin_of_addInitializer {l : Lowering} (hl : l.Follows p) (hstatics : p.statics ≠ [])
    (hfaults : (l.addInitializer p.functions.length p.statics).faults = [])
    (hr : r ∈ (l.addInitializer p.functions.length p.statics).routines) :
    r ∈ l.routines ∨ Origin p r := by
  obtain ⟨s, finished, hlowered, hfinish, howner, heq⟩ := Lowering.addInitializer_eq hfaults
  rw [heq] at hr
  rcases mem_append.mp hr with hold | hnew
  · exact .inl hold
  · cases mem_singleton.mp hnew
    obtain ⟨qs, hcode, hwrites⟩ := lowerStatics_code hlowered
    have hwritten : s.draft.code = codeOf (.op (.initStatics p.statics.length) :: qs) :=
      hwrites.code_eq
    have hops := finishedCode_of_finish hfinish hwritten
    have heq := eq_of_finish hfinish
    refine .inr (.initializer hstatics (congrArg Prod.fst howner) hl.scope hcode ?_ hops)
    have hnamed : finished.name = initializerName := congrArg Prod.snd howner
    rw [heq] at hnamed ⊢
    rw [← hnamed]
    rfl

/-- The routine at a place has that number, and an `Origin`. -/
theorem origin_of_lowered (h : p.lowered.faults = []) {k : Nat}
    (hk : p.lowered.routines[k]? = some r) : r.id = k ∧ Origin p r := by
  obtain ⟨⟨_, hall⟩, -⟩ := routinesCode_lowered h
  obtain ⟨hid, _, _, _, hcode, -⟩ := hall.get hk
  have hmem : r ∈ p.lowered.routines := mem_of_getElem? hk
  refine ⟨hid, ?_⟩
  cases hcode with
  | function hdecl _ _ _ _ _ =>
    obtain ⟨scope, tokens, s, hscope, hlower⟩ := exists_lowerFunction hmem hdecl
    exact origin_of_lowerFunction hdecl hscope hlower
  | initializer hstatics hlast _ _ _ _ _ =>
    have hfollows := (follows_loweredFunctions (faults_loweredFunctions h)).1
    rw [lowered_of_statics hstatics] at h hmem
    rcases origin_of_addInitializer hfollows hstatics h hmem with hold | horigin
    · -- the declared functions have lower numbers
      rcases exists_of_addFunctions ⟨rfl, rfl, rfl⟩ r hold with
        hnone | ⟨j, decl, _, _, _, hdecl, hj, -⟩
      · cases hnone
      · rw [hlast, Nat.zero_add] at hj
        exact absurd hj (Nat.ne_of_gt (List.getElem?_eq_some_iff.mp hdecl).1)
    · exact horigin

/-- What is told of each routine from its origin is told of the declared functions in order, and
then of the one that fills the static slots. -/
theorem map_lowered {α : Type} (h : p.lowered.faults = []) (f : Routine → α) {functions : List α}
    {last : α} (hlength : functions.length = p.functions.length)
    (hf : ∀ r, Origin p r → (functions ++ [last])[r.id]? = some (f r)) :
    p.lowered.routines.map f = functions ++ if p.statics = [] then [] else [last] := by
  obtain ⟨-, hcount⟩ := routinesCode_lowered h
  have hat : ∀ k < p.lowered.routines.length,
      (p.lowered.routines.map f)[k]? = (functions ++ [last])[k]? := by
    intro k hk
    have hr := getElem?_eq_getElem hk
    obtain ⟨hid, horigin⟩ := origin_of_lowered h hr
    have hlist := hf _ horigin
    rw [hid] at hlist
    rw [getElem?_map, hr, hlist, Option.map_some]
  refine ext_getElem? fun k => ?_
  by_cases hk : k < p.lowered.routines.length
  · rw [hat k hk]
    split
    · next hstatics =>
      rw [if_pos hstatics] at hcount
      rw [append_nil, getElem?_append_left (by omega)]
    · rfl
  · rw [getElem?_eq_none (by rw [length_map]; omega), getElem?_eq_none]
    rw [length_append]
    split
    · next hstatics =>
      rw [if_pos hstatics] at hcount
      rw [length_nil]
      omega
    · next hstatics =>
      rw [if_neg hstatics] at hcount
      rw [length_singleton]
      omega

/-! ## Parameters and returns -/

theorem ParamsIn.params_eq {params : List Param} (h : ParamsIn params ctx ctx') :
    ctx'.params.toList = ctx.params.toList ++ slotsOf params := by
  induction h with
  | nil => simp [slotsOf]
  | cons _ _ ih =>
    rw [ih]
    simp [Context.declareParam, slotsOf]

/-- The parameters are those of the declaration. -/
theorem FunctionCode.params_eq {ps : List Piece} (h : FunctionCode decl ctx ps ctx') :
    ctx'.params.toList = ctx.params.toList ++ slotsOf decl.params := by
  cases h with
  | none _ hparams => exact hparams.params_eq
  | some _ hparams hbody =>
    have hsame := piecewise_params.block hbody
    exact (congrArg Array.toList hsame).trans hparams.params_eq

/-- `elide` keeps the last operation last unless it is a jump. -/
theorem exists_elide_concat (last : Operation) (h : fallsThrough last [] = false)
    (code : List Operation) : ∃ kept, elide (code ++ [last]) = kept ++ [last] := by
  induction code with
  | nil => exact ⟨[], by rw [nil_append, elide, h]; rfl⟩
  | cons op code ih =>
    obtain ⟨kept, hkept⟩ := ih
    rw [cons_append, elide, hkept]
    split
    · exact ⟨kept, rfl⟩
    · exact ⟨op :: kept, rfl⟩

namespace Origin

variable {p : Program} {r : Routine}

theorem exists_finishedCode (h : Origin p r) :
    ∃ ps ctx, r.ops.map Op.operation = finishedCode ps ctx := by
  cases h with
  | function _ _ _ _ hops => exact ⟨_, _, hops⟩
  | initializer _ _ _ _ _ hops => exact ⟨_, _, hops⟩

/-- Every routine ends with its return. -/
theorem exists_return (h : Origin p r) :
    ∃ ops, ∃ last : Op, r.ops = ops ++ [last] ∧ last.operation = .return := by
  obtain ⟨ps, ctx, hops⟩ := h.exists_finishedCode
  obtain ⟨kept, hkept⟩ := exists_elide_concat .return rfl
    (codeOf ps ++ [.label Draft.returnTarget])
  rw [append_assoc, singleton_append] at hkept
  rw [finishedCode, hkept, ← append_assoc, map_eq_append_iff] at hops
  obtain ⟨before, after, hsplit, -, hafter⟩ := hops
  obtain ⟨last, hlast, hreturn⟩ := map_eq_singleton_iff.mp hafter
  exact ⟨before, last, by rw [hsplit, hlast], hreturn⟩

end Origin

/-! ## Names -/

/-- Without faults the function that fills the static slots is found under its name. -/
theorem finds_initializer {p : Program} (h : p.declared.faults = []) (hstatics : p.statics ≠ []) :
    ∃ symbol, symbol.definition = .function p.functions.length 0 false ∧
      findSymbol p.declared.scope.rootFrame.symbols initializerName = some symbol := by
  have hitems := statics_declareItems (bindProgram p).1 p
  have hinner : (declareItems (bindProgram p).1 p).scope.inner = [] :=
    (extends_declareItems _ p).inner_eq
  obtain ⟨span, heq⟩ := addInitializer_of_statics (hitems.symm ▸ hstatics)
  have hdeclared : p.declared = _ := heq
  have hfunctions : (declareItems (bindProgram p).1 p).functions = p.functions := by
    rw [← functions_declare (bindProgram p).1 p]
    exact ((congrArg Declarations.functions heq).trans
      (Declarations.functions_define _ _ _ _)).symm
  rw [hdeclared] at h ⊢
  rw [← hfunctions]
  let d := declareItems (bindProgram p).1 p
  exact (Declarations.findSymbol_of_define
    (d := { d with initializer := some d.functions.length }) hinner h).2

/-- Without faults no two functions of a program have one name. -/
theorem nodup_names {p : Program} (h : p.declared.faults = []) :
    (p.functions.map (·.id.name) ++
      if p.statics = [] then [] else [initializerName]).Nodup := by
  have hfinds := findsFunctions_declare h
  rw [Declarations.FindsFunctions, functions_declare] at hfinds
  rw [nodup_append]
  refine ⟨?_, by split <;> simp, ?_⟩
  · -- a name is found with one number only
    rw [nodup_iff_getElem?_ne_getElem?]
    intro i j hij hj heq
    rw [length_map] at hj
    have hi : i < p.functions.length := Nat.lt_trans hij hj
    obtain ⟨symbol, hdef, hfound⟩ := hfinds i _ (getElem?_eq_getElem hi)
    obtain ⟨symbol', hdef', hfound'⟩ := hfinds j _ (getElem?_eq_getElem hj)
    have hname : (p.functions[i]).id.name = (p.functions[j]).id.name := by
      simpa [getElem?_eq_getElem hj, getElem?_eq_getElem hi] using heq
    rw [hname, hfound'] at hfound
    cases hfound
    rw [hdef'] at hdef
    cases hdef
    exact Nat.lt_irrefl _ hij
  · -- the name of the function for static slots is found with a number of its own
    intro name hname name' hname'
    split at hname'
    · cases hname'
    · next hstatics =>
      cases mem_singleton.mp hname'
      rintro rfl
      obtain ⟨decl, hdecl, hdeclName⟩ := mem_map.mp hname
      obtain ⟨k, hk⟩ := getElem?_of_mem hdecl
      obtain ⟨symbol, hdef, hfound⟩ := hfinds k decl hk
      obtain ⟨symbol', hdef', hfound'⟩ := finds_initializer h hstatics
      rw [hdeclName, hfound'] at hfound
      cases hfound
      rw [hdef'] at hdef
      have hlt := (List.getElem?_eq_some_iff.mp hk).1
      rw [← (Definition.function.inj hdef).1] at hlt
      exact Nat.lt_irrefl _ hlt

end ContractScript
