import ContractScript.Proofs.Elision
import ContractScript.Proofs.GlobalNames
import ContractScript.Proofs.LowerSteps

/-!
# Lowered programs

What finishing makes of a draft, and where the functions of a lowered program come from.
-/

namespace ContractScript

open List

open Lower

variable {d : Draft} {r : Routine} {s s' : LowerState} {decl : FunctionDecl} {scope : Scope}
  {id : FunctionId} {l : Lowering} {span : Span} {body : Lower Unit} {keyword : String}
  {exit : Nesting → Except ExitError Exit}

/-! ## Drafts -/

/-- The `Operation`s of a draft. -/
def Draft.code (d : Draft) : List Operation :=
  d.ops.toList.map Op.operation

theorem modify_length_append {α : Type} (f : α → α) (ys : List α) :
    ∀ xs : List α, (xs ++ ys).modify xs.length f = xs ++ ys.modify 0 f
  | [] => rfl
  | x :: xs => congrArg (x :: ·) (modify_length_append f ys xs)

/-- `mark` changes the first of the operations that were added, and no other. -/
theorem Draft.ops_mark {d d' : Draft} {ops : List Op} (span : Span)
    (h : d'.ops.toList = d.ops.toList ++ ops) :
    (d'.mark d.ops.size span).ops.toList = d.ops.toList ++
      ops.modify 0 fun op => { op with location := op.location.or (some span) } := by
  show (d'.ops.modify _ _).toList = _
  rw [Array.toList_modify, h, ← Array.length_toList, modify_length_append]

/-- `mark` changes no operation. -/
theorem Draft.code_mark (d : Draft) (start : Nat) (span : Span) :
    (d.mark start span).code = d.code := by
  show ((d.ops.modify start _).toList).map Op.operation = d.ops.toList.map Op.operation
  rw [Array.toList_modify]
  refine ext_getElem? fun k => ?_
  rw [getElem?_map, getElem?_map, getElem?_modify]
  cases d.ops.toList[k]? with
  | none => rfl
  | some op => split <;> rfl

/-- `markFrom` marks what its body has added. -/
theorem exists_of_markFrom (h : markFrom span body s = .ok () s') : ∃ s₁, body s = .ok () s₁ ∧
      s' = { s₁ with draft := s₁.draft.mark s.draft.ops.size span } := by
  obtain ⟨_, s₁, hbody, hmark⟩ := exists_of_bind (next_of_bind rfl h)
  cases hmark
  exact ⟨s₁, hbody, rfl⟩

/-- `emitExit` succeeds with the operation of an exit that there is. -/
theorem exists_of_emitExit (h : emitExit exit keyword span s = .ok () s') :
    ∃ e, exit s.draft.nesting = .ok e ∧ s' = { s with draft := s.draft.emit e.operation } := by
  have hrest := next_of_bind rfl h
  cases hexit : exit s.draft.nesting with
  | error e =>
    rw [hexit] at hrest
    cases hrest
  | ok e =>
    rw [hexit] at hrest
    cases hrest
    exact ⟨e, rfl, rfl⟩

/-! ## Finished code -/

/-- The `Operation` that opens the slots of a function, if it has any. -/
def openingCode (d : Draft) : List Operation :=
  if d.params.isEmpty && d.locals.isEmpty then [] else [.initSlots d.locals.size d.params.size]

/-- `finish` opens the slots, ends the body and drops needless jumps. -/
theorem operations_of_finish (h : d.finish = .ok r) :
    r.params = d.params.toList ∧ r.ops.map Op.operation =
      openingCode d ++ elide (d.code ++ [Operation.label Draft.returnTarget, .return]) := by
  have hbody : (elideJumps (((d.place Draft.returnTarget).emit .return).ops.toList)).map
      Op.operation = elide (d.code ++ [Operation.label Draft.returnTarget, .return]) := by
    rw [map_elideJumps]
    congr 1
    show ((d.ops.push _).push _).toList.map Op.operation = _
    rw [Array.toList_push, Array.toList_push, map_append, map_append, append_assoc]
    rfl
  unfold Draft.finish at h
  dsimp only at h
  split at h
  · cases h
  · cases h
    refine ⟨rfl, ?_⟩
    unfold openingCode
    dsimp only
    split
    · exact hbody
    · exact congrArg (_ :: ·) hbody

/-- `finish` keeps the slots of the draft, and tells nothing of the routine yet. -/
theorem eq_of_finish (h : d.finish = .ok r) :
    r = ⟨d.id, d.name, r.ops, d.params.toList, d.locals.toList, .void, false, false⟩ := by
  unfold Draft.finish at h
  dsimp only at h
  split at h
  · cases h
  · cases h
    rfl

theorem owner_of_finish (h : d.finish = .ok r) : (r.id, r.name) = owner d := by
  rw [eq_of_finish h]
  rfl

/-! ## The functions of a program -/

/-- The state that a step ends in, whether it fails or not. -/
def finalState {α : Type} : EStateM.Result Diagnostic LowerState α → LowerState
  | .ok _ s => s
  | .error _ s => s

/-- A draft stays that of its function, and inside of a frame all that is outside stays the
same. -/
structure KeepsGlobals (s s' : LowerState) : Prop where
  owner_eq : owner s'.draft = owner s.draft
  builtins_eq : s'.scope.builtins = s.scope.builtins
  rootFrame_eq : s.scope.inner ≠ [] → s'.scope.rootFrame = s.scope.rootFrame
  tail_eq : s'.scope.inner.tail = s.scope.inner.tail
  length_eq : s'.scope.inner.length = s.scope.inner.length

/-- Lowering changes nothing outside of the innermost frame. -/
theorem lawful_keepsGlobals : Lawful KeepsGlobals (fun _ => True) where
  refl s := ⟨rfl, rfl, fun _ => rfl, rfl, rfl⟩
  trans {s s' s''} h h' := by
    refine ⟨h'.owner_eq.trans h.owner_eq, h'.builtins_eq.trans h.builtins_eq, fun hs => ?_,
      h'.tail_eq.trans h.tail_eq, h'.length_eq.trans h.length_eq⟩
    have hs' : s'.scope.inner ≠ [] := by
      rw [← length_pos_iff, h.length_eq]
      exact length_pos_iff.mpr hs
    exact (h'.rootFrame_eq hs').trans (h.rootFrame_eq hs)
  draft s d howner := ⟨howner, rfl, fun _ => rfl, rfl, rfl⟩
  push s symbol := by
    unfold Scope.push
    cases hinner : s.scope.inner with
    | nil =>
      exact ⟨rfl, rfl, fun hs => absurd hinner hs, (congrArg List.tail hinner).symm,
        (congrArg List.length hinner).symm⟩
    | cons f outer =>
      exact ⟨rfl, rfl, fun _ => rfl, (congrArg List.tail hinner).symm,
        (congrArg List.length hinner).symm⟩
  token s token := ⟨rfl, rfl, fun _ => rfl, rfl, rfl⟩
  enclosed {s s'} name h := by
    refine ⟨h.owner_eq, h.builtins_eq, fun _ => h.rootFrame_eq (cons_ne_nil _ _),
      congrArg List.tail h.tail_eq, ?_⟩
    show s'.scope.inner.tail.length = _
    rw [length_tail, h.length_eq]
    rfl
  symbol _ := trivial
  lowering _ := trivial
  tooLarge _ _ _ _ _ := trivial

theorem Lower.Keeps.finalState {α : Type} {R : LowerState → LowerState → Prop}
    {E : Diagnostic → Prop} {step : Lower α} (h : Keeps R E step) (s : LowerState) :
    R s (finalState (step s)) := by
  cases hs : step s with
  | ok a s' => exact (h s).1 a s' hs
  | error e s' => exact ((h s).2 e s' hs).1

/-- Finishing changes no state. -/
theorem finalState_finishDraft {α : Type} (f : Routine → α) (s : LowerState) :
    finalState ((do return f (← finishDraft) : Lower α) s) = s := by
  have hfinal : finalState (finishDraft s) = s := by
    have hget : (get : Lower LowerState) s = .ok s s := rfl
    rw [finishDraft, bind_of_ok hget]
    cases s.draft.finish <;> rfl
  cases hs : finishDraft s with
  | ok r s' =>
    rw [hs] at hfinal
    rw [bind_of_ok hs]
    exact hfinal
  | error e s' =>
    rw [hs] at hfinal
    rw [bind_of_error hs]
    exact hfinal

/-- What comes after a step in a scope changes no state if it only finishes the draft. -/
theorem finalState_inScope {α : Type} (name : String) (body : Lower Unit) (f : Routine → α)
    (s : LowerState) :
    finalState ((do inScope name body; return f (← finishDraft) : Lower α) s) =
      { finalState (body { s with scope := s.scope.enter name }) with
        scope := (finalState (body { s with scope := s.scope.enter name })).scope.leave } := by
  cases hs : body { s with scope := s.scope.enter name } with
  | ok a t =>
    have hscope : inScope name body s = .ok a { t with scope := t.scope.leave } :=
      bracket_of_ok hs
    exact (congrArg finalState (bind_of_ok hscope)).trans (finalState_finishDraft _ _)
  | error e t =>
    have hscope : inScope name body s = .error e { t with scope := t.scope.leave } :=
      bracket_of_error hs
    exact congrArg finalState (bind_of_error hscope)

/-- `lowerFunction` works inside of a frame of its own. -/
theorem finalState_lowerFunction (decl : FunctionDecl) (s : LowerState) :
    ∃ t, KeepsGlobals { s with scope := s.scope.enter decl.id.name } t ∧
      finalState (lowerFunction decl s) = { t with scope := t.scope.leave } := by
  have hkeeps := (lowerBody_keeps lawful_keepsGlobals decl).finalState
    { s with scope := s.scope.enter decl.id.name }
  exact ⟨_, hkeeps, finalState_inScope decl.id.name _ _ s⟩

/-- Two `Scope`s that are the same outside of all functions. -/
structure SameGlobals (scope scope' : Scope) : Prop where
  builtins_eq : scope'.builtins = scope.builtins
  rootFrame_eq : scope'.rootFrame = scope.rootFrame
  inner_eq : scope'.inner = scope.inner

theorem SameGlobals.trans {scope' scope'' : Scope} (h : SameGlobals scope scope')
    (h' : SameGlobals scope' scope'') : SameGlobals scope scope'' :=
  ⟨h'.builtins_eq.trans h.builtins_eq, h'.rootFrame_eq.trans h.rootFrame_eq,
    h'.inner_eq.trans h.inner_eq⟩

/-- `lowerFunction` leaves the global scope as it was. -/
theorem sameGlobals_lowerFunction (decl : FunctionDecl) (s : LowerState) :
    SameGlobals s.scope (finalState (lowerFunction decl s)).scope := by
  obtain ⟨t, hkeeps, hfinal⟩ := finalState_lowerFunction decl s
  rw [hfinal]
  exact ⟨hkeeps.builtins_eq, hkeeps.rootFrame_eq (cons_ne_nil _ _), hkeeps.tail_eq⟩

theorem collect_scope (l : Lowering) (result : EStateM.Result Diagnostic LowerState Routine) :
    (l.collect result).scope = (finalState result).scope := by
  cases result <;> rfl

theorem mem_collect {result : EStateM.Result Diagnostic LowerState Routine}
    (h : r ∈ (l.collect result).routines) : r ∈ l.routines ∨ ∃ s, result = .ok r s := by
  cases result with
  | ok r' s =>
    rcases mem_append.mp h with hold | hnew
    · exact .inl hold
    · cases mem_singleton.mp hnew
      exact .inr ⟨s, rfl⟩
  | error e s => exact .inl h

/-- `lowerFunction` makes the routine that the draft is for. -/
theorem owner_lowerFunction {decl : FunctionDecl} {s s' : LowerState} {r : Routine}
    (h : lowerFunction decl s = .ok r s') : (r.id, r.name) = owner s.draft := by
  have hkeeps := lowerFunction_keeps lawful_keepsGlobals (fun _ _ _ => trivial) decl s
  have howner := (hkeeps.1 r s' h).owner_eq
  obtain ⟨finished, hfinish, -, rfl⟩ := lowerFunction_eq_ok h
  exact (owner_of_finish hfinish).trans howner

/-- Every routine of `addFunctions` is one of the declared functions, with its number. -/
theorem exists_of_addFunctions {scope : Scope} :
    ∀ {decls : List FunctionDecl} {l : Lowering} {id : FunctionId}, SameGlobals scope l.scope →
    ∀ r ∈ (l.addFunctions id decls).routines, r ∈ l.routines ∨
      ∃ k decl scope' tokens s', decls[k]? = some decl ∧ r.id = id + k ∧
        SameGlobals scope scope' ∧
        lowerFunction decl ⟨{ id := id + k, name := decl.id.name }, scope', tokens⟩ = .ok r s'
  | [], l, id, _, r, hr => .inl hr
  | decl :: rest, l, id, hl, r, hr => by
    rw [Lowering.addFunctions] at hr
    have hfinal := sameGlobals_lowerFunction decl (l.start id decl.id.name)
    have hnext : SameGlobals scope
        (l.collect (lowerFunction decl (l.start id decl.id.name))).scope := by
      rw [collect_scope]
      exact hl.trans hfinal
    -- one of the rest, this function, or one that was there before
    rcases exists_of_addFunctions hnext r hr with
      hmem | ⟨k, decl', scope', tokens, s', hdecl, hid, hsame, hlower⟩
    · rcases mem_collect hmem with hold | ⟨s', hlower⟩
      · exact .inl hold
      · have hid : r.id = id := congrArg Prod.fst (owner_lowerFunction hlower)
        exact .inr ⟨0, decl, l.scope, l.tokens, s', rfl, hid, hl, hlower⟩
    · have hk : id + 1 + k = id + (k + 1) := by rw [Nat.add_assoc, Nat.add_comm 1 k]
      rw [hk] at hid hlower
      exact .inr ⟨k + 1, decl', scope', tokens, s', hdecl, hid, hsame, hlower⟩

theorem owner_lowerStatics (statics : List StaticDecl) (index : Nat) (s : LowerState) :
    owner (lowerStatics statics index s).2.draft = owner s.draft :=
  (lowerStatics_keeps lawful_keepsGlobals.stmtLaws.toFrameLaws statics index s).1.owner_eq

theorem id_of_addInitializer {statics : List StaticDecl}
    (h : r ∈ (l.addInitializer id statics).routines) : r ∈ l.routines ∨ r.id = id := by
  rcases mem_collect h with hold | ⟨s, hfinished⟩
  · exact .inl hold
  · obtain ⟨finished, s', hfinish, hlast⟩ := exists_of_bind hfinished
    cases hlast
    have howner := (owner_of_finish (finishDraft_eq_ok hfinish).1).trans
      (owner_lowerStatics statics 0 _)
    exact .inr (congrArg Prod.fst howner)

/-- A function of `lowerProgram` is lowered in the global scope of the program. -/
theorem exists_lowerFunction {p : Program}
    (hr : r ∈ (lowerProgram (declare (bindProgram p).1 p)).routines)
    (hdecl : p.functions[r.id]? = some decl) :
    ∃ scope tokens s', SameGlobals (declare (bindProgram p).1 p).scope scope ∧
      lowerFunction decl ⟨{ id := r.id, name := decl.id.name }, scope, tokens⟩ = .ok r s' := by
  have hfunctions : r ∈ (Lowering.addFunctions { scope := (declare (bindProgram p).1 p).scope } 0
      (declare (bindProgram p).1 p).functions).routines := by
    unfold lowerProgram at hr
    dsimp only at hr
    split at hr
    · exact hr
    · next id hinitializer =>
      rcases id_of_addInitializer hr with hold | hid
      · exact hold
      · -- the function that fills the static slots has a number of its own
        rw [hid, initializer_declare hinitializer, getElem?_eq_none (Nat.le_refl _)] at hdecl
        cases hdecl
  rcases exists_of_addFunctions ⟨rfl, rfl, rfl⟩ r hfunctions with
    hnone | ⟨k, decl', scope, tokens, s', hdecl', hid, hsame, hlower⟩
  · cases hnone
  · rw [Nat.zero_add] at hid hlower
    rw [functions_declare, ← hid, hdecl] at hdecl'
    cases hdecl'
    rw [← hid] at hlower
    exact ⟨scope, tokens, s', hsame, hlower⟩

end ContractScript
