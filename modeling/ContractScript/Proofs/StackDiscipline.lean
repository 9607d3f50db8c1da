import ContractScript.Proofs.StackDepth

/-!
# Stack discipline

Statements leave the stack as deep as they find it, on every way that control may take through
them, and expressions leave one value more (`KeepsStack`). Code is looked at in front of any code
that is safe to go on with (`Runs`), so each construct has a lemma of its own. That of a loop goes
by induction on the number of steps.
-/

namespace ContractScript

open List

variable {target l done : Label} {depth : Nat} {rest : List Piece} {ctx : Context}

/-! ## Ways out -/

variable {n : Nesting}

theorem eq_of_exitTo {exit : Exit} (h : n.exitTo target depth = .ok exit) :
    exit = .jump target ∨ exit = .endTry target :=
  (Nesting.exitTo_eq_ok_iff.mp h).imp And.right fun h => h.2.2

/-- A part of a try statement is left for a place outside only by `ENDTRY`, never by its
finalizer, and then a jump leads there from the statement itself. -/
theorem exitTo_within {phase : TryPhase} {exit : Exit} (hdepth : depth ≤ n.tries.length)
    (h : (n.within phase).exitTo target depth = .ok exit) :
    phase ≠ .finalizer ∧ exit = .endTry target ∧ n.exitTo target depth = .ok (.jump target) := by
  obtain ⟨hlength, -⟩ | ⟨hlength, hphase, rfl⟩ := Nesting.exitTo_eq_ok_iff.mp h
  · rw [Nesting.within, length_cons] at hlength
    omega
  · refine ⟨fun hfinalizer => hphase (congrArg some hfinalizer), rfl, ?_⟩
    exact Nesting.exitTo_eq_ok_iff.mpr (.inl ⟨Nat.succ.inj hlength, rfl⟩)

/-- Loops were opened inside of no more try statements than there are. -/
def Nesting.IsNested (n : Nesting) : Prop :=
  ∀ loop ∈ n.loops, loop.tryDepth ≤ n.tries.length

theorem Nesting.IsNested.within (h : n.IsNested) (phase : TryPhase) : (n.within phase).IsNested :=
  fun loop hloop => Nat.le_succ_of_le (h loop hloop)

theorem Nesting.IsNested.enterLoop (h : n.IsNested) (continueLabel breakLabel : Label) :
    (n.enterLoop continueLabel breakLabel).IsNested :=
  forall_mem_cons.mpr ⟨Nat.le_refl _, h⟩

section Statements

variable {floor : Nat} {code : List Piece} {Ends : Point → Prop} {n x : Nat} {guards : List Guard}

/-- Every way out of the loop and of the function is safe. -/
structure WaysOut (floor : Nat) (code : List Piece) (Ends : Point → Prop) (nest : Nesting)
    (n x : Nat) (guards : List Guard) : Prop where
  loop : ∀ {loop : Loop} {l : Label} {exit : Exit}, nest.loops.head? = some loop →
    l = loop.continueLabel ∨ l = loop.breakLabel → nest.exitTo l loop.tryDepth = .ok exit →
    ∀ rest, Safe floor code Ends n ⟨.code (.op exit.operation :: rest), x, guards⟩
  function : ∀ {exit : Exit}, nest.returnExit Draft.returnTarget = .ok exit → ∀ hasValue rest,
    Safe floor code Ends n
      ⟨.code (.leave hasValue exit.operation :: rest), x + hasValue.toNat, guards⟩

theorem WaysOut.mono {nest : Nesting} {m : Nat} (h : WaysOut floor code Ends nest n x guards)
    (hle : m ≤ n) : WaysOut floor code Ends nest m x guards where
  loop hloop hl hexit rest := (h.loop hloop hl hexit rest).mono hle
  function hexit hasValue rest := (h.function hexit hasValue rest).mono hle

/-- Code after which there are as many values as before. It reaches below none of those that it
finds, and may leave the loop or the function. -/
def Runs (floor : Nat) (code : List Piece) (Ends : Point → Prop) (nest : Nesting)
    (ps : List Piece) : Prop :=
  ∀ ⦃n x : Nat⦄ ⦃guards : List Guard⦄ ⦃rest : List Piece⦄, ps ++ rest <:+ code → floor ≤ x →
    Safe floor code Ends n (raise code guards) → WaysOut floor code Ends nest n x guards →
    Safe floor code Ends n ⟨.code rest, x, guards⟩ →
    Safe floor code Ends n ⟨.code (ps ++ rest), x, guards⟩

/-- A condition is tested. -/
theorem Leaves.test {ps : List Piece} (hps : Leaves floor code Ends ps 1)
    (hcode : ps ++ .op (.jump .ifFalse l) :: rest <:+ code) (hx : floor ≤ x)
    (hraise : Safe floor code Ends n (raise code guards))
    (hfalse : Safe floor code Ends n (goTo code x guards (.label l)))
    (htrue : Safe floor code Ends n ⟨.code rest, x, guards⟩) :
    Safe floor code Ends n ⟨.code (ps ++ .op (.jump .ifFalse l) :: rest), x, guards⟩ :=
  hps hcode hx hraise (.branch rfl hx hraise hfalse htrue)

namespace Runs

variable {nest : Nesting} {ps qs rs : List Piece}

/-- Code that `Leaves` nothing `Runs`. -/
theorem of_leaves (h : Leaves floor code Ends ps 0) : Runs floor code Ends nest ps :=
  fun _ _ _ _ hcode hx hraise _ hrest => h hcode hx hraise hrest

/-- Code that `Runs` may follow code that does. -/
theorem append (hps : Runs floor code Ends nest ps) (hqs : Runs floor code Ends nest qs) :
    Runs floor code Ends nest (ps ++ qs) := by
  intro n x guards rest hcode hx hraise hout h
  rw [append_assoc] at hcode ⊢
  exact hps hcode hx hraise hout
    (hqs ((suffix_append ps _).trans hcode) hx hraise hout h)

/-- A `break` or a `continue` is a way out. -/
theorem exitLoop {loop : Loop} {exit : Exit} (hloop : nest.loops.head? = some loop)
    (hl : l = loop.continueLabel ∨ l = loop.breakLabel)
    (hexit : nest.exitTo l loop.tryDepth = .ok exit) :
    Runs floor code Ends nest (plain [exit.operation]) :=
  fun _ _ _ rest _ _ _ hout _ => hout.loop hloop hl hexit rest

/-- A `return` is a way out, with a value or without. -/
theorem exitFunction {exit : Exit} {hasValue : Bool}
    (hps : Leaves floor code Ends ps hasValue.toNat)
    (hexit : nest.returnExit Draft.returnTarget = .ok exit) :
    Runs floor code Ends nest (ps ++ [Piece.leave hasValue exit.operation]) := by
  intro n x guards rest hcode hx hraise hout _
  rw [append_assoc] at hcode ⊢
  exact hps hcode hx hraise (hout.function hexit hasValue rest)

/-- A `throw` raises its value. -/
theorem throw (hps : Leaves floor code Ends ps 1) :
    Runs floor code Ends nest (ps ++ plain [.simple .throw]) := by
  intro n x guards rest hcode hx hraise _ _
  rw [append_assoc] at hcode ⊢
  have hadvance : advance floor code (x + 1) guards rest (.op (.simple .throw)) = some [] :=
    if_pos (Nat.succ_le_succ hx)
  exact hps hcode hx hraise (.step hadvance hraise (forall_mem_nil _))

/-- The branch is gone through or passed. -/
theorem ifThen (hnodup : (labelsIn (ownCode code)).Nodup) {l : Label}
    (hps : Leaves floor code Ends ps 1) (hqs : Runs floor code Ends nest qs) :
    Runs floor code Ends nest (ps ++ plain [.jump .ifFalse l] ++ qs ++ plain [.label l]) := by
  intro n x guards rest hcode hx hraise hout h
  have heq : ps ++ plain [.jump .ifFalse l] ++ qs ++ plain [.label l] ++ rest =
      ps ++ .op (.jump .ifFalse l) :: (qs ++ .op (.label l) :: rest) := by
    simp [plain]
  rw [heq] at hcode ⊢
  have hthen := ((suffix_cons _ _).trans (suffix_append ps _)).trans hcode
  have hlabel := (suffix_append qs _).trans hthen
  refine hps.test hcode hx hraise ?_ (hqs hthen hx hraise hout (.label hx hraise h))
  rw [goTo_label hnodup hlabel]
  exact h

/-- One of two branches is gone through. -/
theorem ifElse (hnodup : (labelsIn (ownCode code)).Nodup) (hps : Leaves floor code Ends ps 1)
    (hqs : Runs floor code Ends nest qs) (hrs : Runs floor code Ends nest rs) :
    Runs floor code Ends nest (ps ++ plain [.jump .ifFalse l] ++ qs ++
      plain [.jump .always done, .label l] ++ rs ++ plain [.label done]) := by
  intro n x guards rest hcode hx hraise hout h
  have heq : ps ++ plain [.jump .ifFalse l] ++ qs ++ plain [.jump .always done, .label l] ++ rs ++
      plain [.label done] ++ rest = ps ++ .op (.jump .ifFalse l) :: (qs ++
        .op (.jump .always done) :: .op (.label l) :: (rs ++ .op (.label done) :: rest)) := by
    simp [plain]
  rw [heq] at hcode ⊢
  have hthen := ((suffix_cons _ _).trans (suffix_append ps _)).trans hcode
  have hlabel := ((suffix_cons _ _).trans (suffix_append qs _)).trans hthen
  have helse := (suffix_cons _ _).trans hlabel
  have hdone := (suffix_append rs _).trans helse
  refine hps.test hcode hx hraise ?_ (hqs hthen hx hraise hout (.jump hraise fun m hm => ?_))
  · rw [goTo_label hnodup hlabel]
    exact hrs helse hx hraise hout (.label hx hraise h)
  · rw [goTo_label hnodup hdone]
    exact h.mono (Nat.le_of_lt hm)

/-- The way back to the condition leaves less steps, so the induction is on their number. -/
theorem whileLoop (hnodup : (labelsIn (ownCode code)).Nodup) {start : Label}
    (hps : Leaves floor code Ends ps 1)
    (hqs : Runs floor code Ends (nest.enterLoop start done) qs) :
    Runs floor code Ends nest (plain [.label start] ++ ps ++ plain [.jump .ifFalse done] ++ qs ++
      plain [.jump .always start, .label done]) := by
  intro n x guards rest hcode hx hraise hout h
  have heq : plain [.label start] ++ ps ++ plain [.jump .ifFalse done] ++ qs ++
      plain [.jump .always start, .label done] ++ rest = .op (.label start) :: (ps ++
        .op (.jump .ifFalse done) :: (qs ++
          .op (.jump .always start) :: .op (.label done) :: rest)) := by
    simp [plain]
  rw [heq] at hcode ⊢
  have hcondition := (suffix_cons _ _).trans hcode
  have hbody := ((suffix_cons _ _).trans (suffix_append ps _)).trans hcondition
  have hlabel := ((suffix_cons _ _).trans (suffix_append qs _)).trans hbody
  have hdone : ∀ m ≤ n, Safe floor code Ends m (goTo code x guards (.label done)) := by
    intro m hm
    rw [goTo_label hnodup hlabel]
    exact h.mono hm
  refine .label hx hraise ?_
  induction n using Nat.strongRecOn with
  | ind n ih =>
    -- the way back to the condition takes a step, so fewer are left there
    have hagain : ∀ m < n, Safe floor code Ends m (goTo code x guards (.label start)) := by
      intro m hm
      have hle := Nat.le_of_lt hm
      rw [goTo_label hnodup hcode]
      exact ih m hm (hraise.mono hle) (hout.mono hle) (h.mono hle)
        fun k hk => hdone k (Nat.le_trans hk hle)
    have hways : WaysOut floor code Ends (nest.enterLoop start done) n x guards := by
      refine ⟨?_, hout.function⟩
      intro loop l exit hloop hl hexit rest
      cases hloop
      -- no try statement lies between the body and its loop
      have hjump : exit = .jump l := by
        simpa [Nesting.exitTo, Nesting.enterLoop] using hexit.symm
      subst hjump
      refine .jump hraise fun m hm => ?_
      rcases hl with rfl | rfl
      · exact hagain m hm
      · exact hdone m (Nat.le_of_lt hm)
    refine hps.test hcondition hx hraise (hdone n (Nat.le_refl n)) ?_
    exact hqs hbody hx hraise hways (.jump hraise hagain)

end Runs

/-! ## Try statements -/

/-- The finalizer of a try statement, if there is one, leads on to where control is bound for. It
may find more values than the statement did, since a value that is returned waits below it. -/
def Finalizes (floor : Nat) (code : List Piece) (Ends : Point → Prop) (f : Option Label) : Prop :=
  ∀ ⦃n x y : Nat⦄ ⦃h : Option Label⦄ ⦃guards : List Guard⦄ ⦃goal : Option Target⦄ ⦃l : Label⦄,
    f = some l → floor ≤ y → Safe floor code Ends n (raise code guards) →
    (∀ target, goal = some target → Safe floor code Ends n (goTo code y guards target)) →
    Safe floor code Ends n (goTo code y (⟨h, f, x, .finalizer goal⟩ :: guards) (.label l))

/-- No way leads out of a finalizer. -/
theorem waysOut_finalizer {nest : Nesting} (hnest : nest.IsNested) {n x : Nat}
    {guards : List Guard} : WaysOut floor code Ends (nest.within .finalizer) n x guards where
  loop hloop _ hexit _ :=
    absurd rfl (exitTo_within (hnest _ (mem_of_mem_head? hloop)) hexit).1
  function hexit _ _ := absurd rfl (exitTo_within (Nat.zero_le _) hexit).1

namespace Finalizes

variable {f : Option Label}

theorem none : Finalizes floor code Ends Option.none :=
  nofun

/-- A finalizer `Finalizes` if its code `Runs`. -/
theorem of_runs (hnodup : (labelsIn (ownCode code)).Nodup) {nest : Nesting}
    (hnest : nest.IsNested) {ps : List Piece}
    (hps : Runs floor code Ends (nest.within .finalizer) ps)
    (hcode : .op (.label l) :: (ps ++ .op (.simple .endFinally) :: rest) <:+ code) :
    Finalizes floor code Ends (some l) := by
  intro n x y h guards goal l' hl hy hraise hgoal
  cases hl
  rw [goTo_label hnodup hcode]
  refine hps ((suffix_cons _ _).trans hcode) hy hraise (waysOut_finalizer hnest) ?_
  cases goal with
  | none =>
    have hadvance : advance floor code y (⟨h, some l, x, .finalizer Option.none⟩ :: guards) rest
        (.op (.simple .endFinally)) = some [raise code guards] := rfl
    refine .step hadvance hraise fun z hz m hm => ?_
    cases mem_singleton.mp hz
    exact hraise.mono (Nat.le_of_lt hm)
  | some target =>
    have hadvance : advance floor code y (⟨h, some l, x, .finalizer (some target)⟩ :: guards) rest
        (.op (.simple .endFinally)) = some [goTo code y guards target] := rfl
    refine .step hadvance hraise fun z hz m hm => ?_
    cases mem_singleton.mp hz
    exact (hgoal target rfl).mono (Nat.le_of_lt hm)

variable {h : Option Label} {phase : GuardPhase} {n x y : Nat} {guards : List Guard}

/-- An exception in the handler goes through the finalizer. -/
theorem raise_handler (hf : Finalizes floor code Ends f) (hx : floor ≤ x)
    (hraise : Safe floor code Ends n (raise code guards)) :
    Safe floor code Ends n (raise code (⟨h, f, x, .handler⟩ :: guards)) := by
  cases f with
  | none => exact hraise
  | some l => exact hf rfl hx hraise nofun

/-- An exception in the body goes to the handler, or else through the finalizer. -/
theorem raise_body (hf : Finalizes floor code Ends f) (hx : floor ≤ x)
    (hraise : Safe floor code Ends n (raise code guards))
    (hhandler : ∀ l, h = some l →
      Safe floor code Ends n (goTo code (x + 1) (⟨h, f, x, .handler⟩ :: guards) (.label l))) :
    Safe floor code Ends n (raise code (⟨h, f, x, .body⟩ :: guards)) := by
  cases h with
  | some l => exact hhandler l rfl
  | none =>
    cases f with
    | none => exact hraise
    | some l => exact hf rfl hx hraise nofun

/-- The body or the handler is left, through the finalizer if there is one, for a place that is
safe. -/
theorem exit (hf : Finalizes floor code Ends f) (hphase : phase = .body ∨ phase = .handler)
    {piece : Piece} {target : Target}
    (hpiece : advance floor code y (⟨h, f, x, phase⟩ :: guards) rest piece =
      (leaveTry code y target (⟨h, f, x, phase⟩ :: guards)).map fun z => [z])
    (hy : floor ≤ y) (hraise : Safe floor code Ends n (raise code guards))
    (hthrown : Safe floor code Ends n (raise code (⟨h, f, x, phase⟩ :: guards)))
    (htarget : ∀ m < n, Safe floor code Ends m (goTo code y guards target)) :
    Safe floor code Ends n ⟨.code (piece :: rest), y, ⟨h, f, x, phase⟩ :: guards⟩ := by
  obtain ⟨z, hleave, hz⟩ : ∃ z, leaveTry code y target (⟨h, f, x, phase⟩ :: guards) = some z ∧
      ∀ m < n, Safe floor code Ends m z := by
    cases f with
    | none =>
      refine ⟨goTo code y guards target, ?_, htarget⟩
      rcases hphase with rfl | rfl <;> rfl
    | some l =>
      refine ⟨goTo code y (⟨h, some l, x, .finalizer (some target)⟩ :: guards) (.label l), ?_, ?_⟩
      · rcases hphase with rfl | rfl <;> rfl
      · intro m hm
        refine hf rfl hy (hraise.mono (Nat.le_of_lt hm)) fun t ht => ?_
        cases ht
        exact htarget m hm
  rw [hleave, Option.map_some] at hpiece
  refine .step hpiece hthrown fun z' hz' => ?_
  cases mem_singleton.mp hz'
  exact hz

/-- The ways out of the statement are ways out of its body and its handler. -/
theorem waysOut (hf : Finalizes floor code Ends f) (hphase : phase = .body ∨ phase = .handler)
    {nest : Nesting} (hnest : nest.IsNested) (part : TryPhase) (hx : floor ≤ x)
    (hraise : Safe floor code Ends n (raise code guards))
    (hthrown : Safe floor code Ends n (raise code (⟨h, f, x, phase⟩ :: guards)))
    (hout : WaysOut floor code Ends nest n x guards) :
    WaysOut floor code Ends (nest.within part) n x (⟨h, f, x, phase⟩ :: guards) where
  loop := by
    intro loop l exit hloop hl hexit rest
    obtain ⟨-, rfl, hjump⟩ := exitTo_within (hnest _ (mem_of_mem_head? hloop)) hexit
    have hnext := (hout.loop hloop hl hjump rest).next rfl _ (mem_singleton_self _)
    exact hf.exit hphase rfl hx hraise hthrown hnext
  function := by
    intro exit hexit hasValue rest
    obtain ⟨-, rfl, hjump⟩ := exitTo_within (Nat.zero_le _) hexit
    have hnext := (hout.function hjump hasValue rest).next rfl _ (mem_singleton_self _)
    exact hf.exit hphase rfl (Nat.le_add_right_of_le hx) hraise hthrown hnext

end Finalizes

variable {nest : Nesting} {f : Option Label} {rs : List Piece}

/-- The code of a handler, if there is one: it takes the exception, and runs on to the end. -/
inductive HandlerRuns (floor : Nat) (code : List Piece) (Ends : Point → Prop) (nest : Nesting)
    (endLabel : Label) : Option Label → List Piece → Prop where
  | none : HandlerRuns floor code Ends nest endLabel none []
  | some {l : Label} {ops : List Operation} {ps : List Piece} : heightAfter ops 1 = some 0 →
    Runs floor code Ends nest ps →
    HandlerRuns floor code Ends nest endLabel (some l)
      (plain (.label l :: ops) ++ ps ++ plain [.endTry endLabel])

/-- The code of a finalizer, if there is one. -/
inductive FinalizerRuns (floor : Nat) (code : List Piece) (Ends : Point → Prop) (nest : Nesting) :
    Option Label → List Piece → Prop where
  | none : FinalizerRuns floor code Ends nest none []
  | some {l : Label} {ps : List Piece} : Runs floor code Ends nest ps →
    FinalizerRuns floor code Ends nest (some l)
      (plain [.label l] ++ ps ++ plain [.simple .endFinally])

theorem FinalizerRuns.finalizes (hnodup : (labelsIn (ownCode code)).Nodup) (hnest : nest.IsNested)
    (hrs : FinalizerRuns floor code Ends (nest.within .finalizer) f rs)
    (hcode : rs ++ rest <:+ code) : Finalizes floor code Ends f := by
  cases hrs with
  | none => exact .none
  | @some l ps hps =>
    have hparts : .op (.label l) :: (ps ++ .op (.simple .endFinally) :: rest) <:+ code := by
      simpa [plain] using hcode
    exact .of_runs hnodup hnest hps hparts

/-- The handler starts with the exception above the values that were there. -/
theorem HandlerRuns.safe (hnodup : (labelsIn (ownCode code)).Nodup) {nest : Nesting}
    (hnest : nest.IsNested) {h f : Option Label} {endLabel : Label} {qs rest after : List Piece}
    (hqs : HandlerRuns floor code Ends (nest.within .handler) endLabel h qs)
    (hcode : qs ++ rest <:+ code) (hend : .op (.label endLabel) :: after <:+ code)
    (hf : Finalizes floor code Ends f) {n x : Nat} {guards : List Guard} (hx : floor ≤ x)
    (hraise : Safe floor code Ends n (raise code guards))
    (hout : WaysOut floor code Ends nest n x guards)
    (hafter : Safe floor code Ends n ⟨.code after, x, guards⟩) {l : Label}
    (hl : h = Option.some l) :
    Safe floor code Ends n (goTo code (x + 1) (⟨h, f, x, .handler⟩ :: guards) (.label l)) := by
  cases hqs with
  | none => cases hl
  | @some l' ops ps hops hps =>
    cases hl
    have heq : plain (.label l :: ops) ++ ps ++ plain [.endTry endLabel] ++ rest =
        .op (.label l) :: (plain ops ++ (ps ++ .op (.endTry endLabel) :: rest)) := by
      simp [plain]
    rw [heq] at hcode
    have hbody := ((suffix_append _ _).trans (suffix_cons _ _)).trans hcode
    have hthrown := hf.raise_handler (h := Option.some l) hx hraise
    rw [goTo_label hnodup hcode]
    refine .ops hops hx hthrown (hps hbody hx hthrown ?_ ?_)
    · exact hf.waysOut (.inr rfl) hnest .handler hx hraise hthrown hout
    · refine hf.exit (.inr rfl) rfl hx hraise hthrown fun m hm => ?_
      rw [goTo_label hnodup hend]
      exact hafter.mono (Nat.le_of_lt hm)

/-- A try statement `Runs` if its parts do. -/
theorem Runs.try (hnodup : (labelsIn (ownCode code)).Nodup) (hnest : nest.IsNested)
    {h : Option Label} {endLabel : Label} {ps qs : List Piece}
    (hps : Runs floor code Ends (nest.within .body) ps)
    (hqs : HandlerRuns floor code Ends (nest.within .handler) endLabel h qs)
    (hrs : FinalizerRuns floor code Ends (nest.within .finalizer) f rs) :
    Runs floor code Ends nest (plain [.try h f] ++ ps ++ plain [.endTry endLabel] ++ qs ++ rs ++
      plain [.label endLabel]) := by
  intro n x guards after hcode hx hraise hout hafter
  have heq : plain [.try h f] ++ ps ++ plain [.endTry endLabel] ++ qs ++ rs ++
      plain [.label endLabel] ++ after = .op (.try h f) :: (ps ++ .op (.endTry endLabel) ::
        (qs ++ (rs ++ .op (.label endLabel) :: after))) := by
    simp [plain]
  rw [heq] at hcode ⊢
  have hbody := (suffix_cons _ _).trans hcode
  have hhandler := ((suffix_cons _ _).trans (suffix_append ps _)).trans hbody
  have hfinalizer := (suffix_append qs _).trans hhandler
  have hend := (suffix_append rs _).trans hfinalizer
  have hf := hrs.finalizes hnodup hnest hfinalizer
  have hthrown : Safe floor code Ends n (raise code (⟨h, f, x, .body⟩ :: guards)) :=
    hf.raise_body hx hraise fun l hl =>
      hqs.safe hnodup hnest hhandler hend hf hx hraise hout hafter hl
  have hadvance : advance floor code x guards
      (ps ++ .op (.endTry endLabel) :: (qs ++ (rs ++ .op (.label endLabel) :: after)))
      (.op (.try h f)) = some [⟨.code (ps ++ .op (.endTry endLabel) ::
        (qs ++ (rs ++ .op (.label endLabel) :: after))), x, ⟨h, f, x, .body⟩ :: guards⟩] := rfl
  refine .step hadvance hraise fun y hy m hm => ?_
  cases mem_singleton.mp hy
  refine Safe.mono ?_ (Nat.le_of_lt hm)
  refine hps hbody hx hthrown ?_ ?_
  · exact hf.waysOut (.inl rfl) hnest .body hx hraise hthrown hout
  · refine hf.exit (.inl rfl) rfl hx hraise hthrown fun m hm => ?_
    rw [goTo_label hnodup hend]
    exact hafter.mono (Nat.le_of_lt hm)

/-! ## Statements -/

mutual

/-- Whatever stands as a `Stmt`, here or in a part, is an effect or has a value. -/
def Stmt.hasValues (s : Stmt) : Bool :=
  match s with
  | .expr e _ => e.isEffectOrValue
  | .declare _ _ _ _ _ | .return _ _ | .throw _ _ | .break _ | .continue _ | .other _ _ => true
  | .block body => body.hasValues
  | .if _ thenBranch elseBranch _ =>
    thenBranch.hasValues &&
      (match elseBranch with
      | none => true
      | some branch => branch.hasValues)
  | .while _ body _ => body.hasValues
  | .try body handler finalizer _ =>
    body.hasValues &&
      (match handler with
      | none => true
      | some clause => clause.hasValues) &&
      (match finalizer with
      | none => true
      | some block => block.hasValues)
termination_by structural s

def Stmt.allHaveValues (ss : List Stmt) : Bool :=
  match ss with
  | [] => true
  | s :: rest => s.hasValues && Stmt.allHaveValues rest
termination_by structural ss

def Block.hasValues (b : Block) : Bool :=
  match b with
  | ⟨ss, _⟩ => Stmt.allHaveValues ss
termination_by structural b

def CatchClause.hasValues (c : CatchClause) : Bool :=
  match c with
  | ⟨_, body, _⟩ => body.hasValues
termination_by structural c

end

theorem Stmt.hasValues_try (body : Block) (handler : Option CatchClause) (finalizer : Option Block)
    (span : Span) : (Stmt.try body handler finalizer span).hasValues =
      (body.hasValues && handler.all CatchClause.hasValues && finalizer.all Block.hasValues) := by
  cases handler <;> cases finalizer <;> rfl

theorem BindsException.heightAfter {param : Option Ident} {ctx ctx' : Context}
    {ops : List Operation} (h : BindsException param ctx ops ctx') :
    heightAfter ops 1 = some 0 := by
  cases h <;> rfl

mutual

/-- A statement `Runs`: it leaves nothing, unless it leaves the loop or the function. -/
theorem StmtCode.runs (hnodup : (labelsIn (ownCode code)).Nodup) {n : Nesting} {s : Stmt}
    {ctx ctx' : Context} {ps : List Piece} (h : StmtCode n s ctx ps ctx') (hn : n.IsNested)
    (hs : s.hasValues = true) (hps : ∀ piece ∈ ps, piece.hasValue = true) :
    Runs floor code Ends n ps := by
  match h with
  | .expr he => exact .of_leaves (he.leaves hnodup hs hps)
  | .declare _ => exact .of_leaves .nil
  | .declareAs hvalue _ =>
    rw [forall_mem_append] at hps
    exact .of_leaves ((hvalue.leaves hnodup hps.1).work rfl)
  | .return hexit =>
    have hnone : Leaves floor code Ends [] false.toNat := .nil
    exact .exitFunction hnone hexit
  | .returnAs hvalue hexit =>
    rw [forall_mem_append] at hps
    exact .exitFunction (hvalue.leaves hnodup hps.1) hexit
  | .throw hvalue =>
    rw [forall_mem_append] at hps
    exact .throw (hvalue.leaves hnodup hps.1)
  | .break hexit =>
    obtain ⟨loop, hloop, hexit⟩ := exists_of_breakExit hexit
    exact .exitLoop hloop (.inr rfl) hexit
  | .continue hexit =>
    obtain ⟨loop, hloop, hexit⟩ := exists_of_continueExit hexit
    exact .exitLoop hloop (.inl rfl) hexit
  | .block hbody => exact hbody.runs hnodup hn hs hps
  | .ifThen hcondition hthen =>
    simp only [forall_mem_append] at hps
    rw [Stmt.hasValues, Bool.and_eq_true] at hs
    exact .ifThen hnodup (hcondition.leaves hnodup hps.1.1.1) (hthen.runs hnodup hn hs.1 hps.1.2)
  | .ifElse hcondition hthen helse =>
    simp only [forall_mem_append] at hps
    rw [Stmt.hasValues, Bool.and_eq_true] at hs
    exact .ifElse hnodup (hcondition.leaves hnodup hps.1.1.1.1.1)
      (hthen.runs hnodup hn hs.1 hps.1.1.1.2) (helse.runs hnodup hn hs.2 hps.1.2)
  | .while hcondition hbody =>
    simp only [forall_mem_append] at hps
    exact .whileLoop hnodup (hcondition.leaves hnodup hps.1.1.1.2)
      (hbody.runs hnodup (hn.enterLoop _ _) hs hps.1.2)
  | .try _ _ hbody hhandler hfinalizer =>
    simp only [forall_mem_append] at hps
    rw [Stmt.hasValues_try, Bool.and_eq_true, Bool.and_eq_true] at hs
    exact .try hnodup hn (hbody.runs hnodup (hn.within _) hs.1.1 hps.1.1.1.1.2)
      (hhandler.runs hnodup (hn.within _) hs.1.2 hps.1.1.2)
      (hfinalizer.runs hnodup (hn.within _) hs.2 hps.1.2)

theorem StmtsCode.runs (hnodup : (labelsIn (ownCode code)).Nodup) {n : Nesting} {ss : List Stmt}
    {ctx ctx' : Context} {ps : List Piece} (h : StmtsCode n ss ctx ps ctx') (hn : n.IsNested)
    (hs : Stmt.allHaveValues ss = true) (hps : ∀ piece ∈ ps, piece.hasValue = true) :
    Runs floor code Ends n ps := by
  match h with
  | .nil => exact .of_leaves .nil
  | .cons hfirst hrest =>
    rw [Stmt.allHaveValues, Bool.and_eq_true] at hs
    rw [forall_mem_append] at hps
    exact (hfirst.runs hnodup hn hs.1 hps.1).append (hrest.runs hnodup hn hs.2 hps.2)

theorem BlockCode.runs (hnodup : (labelsIn (ownCode code)).Nodup) {n : Nesting} {b : Block}
    {ctx ctx' : Context} {ps : List Piece} (h : BlockCode n b ctx ps ctx') (hn : n.IsNested)
    (hb : b.hasValues = true) (hps : ∀ piece ∈ ps, piece.hasValue = true) :
    Runs floor code Ends n ps := by
  match h with
  | .block hstmts =>
    have hanchor : Runs floor code Ends n (plain [.anchor]) := .of_leaves (.of_ops rfl)
    simp only [forall_mem_append] at hps
    exact (hanchor.append (hstmts.runs hnodup hn hb hps.1.2)).append hanchor

theorem CatchCode.runs (hnodup : (labelsIn (ownCode code)).Nodup) {n : Nesting} {l : Option Label}
    {endLabel : Label} {c : Option CatchClause} {ctx ctx' : Context} {ps : List Piece}
    (h : CatchCode n l endLabel c ctx ps ctx') (hn : n.IsNested)
    (hc : c.all CatchClause.hasValues = true)
    (hps : ∀ piece ∈ ps, piece.hasValue = true) : HandlerRuns floor code Ends n endLabel l ps := by
  match h with
  | .none => exact .none
  | .some hexception hbody =>
    simp only [forall_mem_append] at hps
    exact .some hexception.heightAfter (hbody.runs hnodup hn hc hps.1.2)

theorem FinallyCode.runs (hnodup : (labelsIn (ownCode code)).Nodup) {n : Nesting}
    {l : Option Label} {b : Option Block} {ctx ctx' : Context} {ps : List Piece}
    (h : FinallyCode n l b ctx ps ctx') (hn : n.IsNested)
    (hb : b.all Block.hasValues = true)
    (hps : ∀ piece ∈ ps, piece.hasValue = true) : FinalizerRuns floor code Ends n l ps := by
  match h with
  | .none => exact .none
  | .some hbody =>
    simp only [forall_mem_append] at hps
    exact .some (hbody.runs hnodup hn hb hps.1.2)

end

end Statements

/-! ## Walks through lowered code -/

variable {ps : List Piece} {nest : Nesting}

/-- Control is after the code, with so many values, or an exception has left it. -/
def Point.FinishesAt (depth : Nat) (x : Point) : Prop :=
  match x.place with
  | .code _ => x.depth = depth ∧ x.guards = []
  | .raised => True
  | .left _ | .returned _ => False

/-- Control is after the code of a statement, or it has left the innermost loop, each with so many
values, or it has returned, with one more if that is with a value, or an exception has left it. -/
def Point.LeavesAt (nest : Nesting) (depth : Nat) (x : Point) : Prop :=
  match x.place with
  | .code _ => x.depth = depth ∧ x.guards = []
  | .left l => x.depth = depth ∧ x.guards = [] ∧ ∃ loop, nest.loops.head? = some loop ∧
    (l = loop.continueLabel ∨ l = loop.breakLabel)
  | .returned hasValue => x.depth = depth + hasValue.toNat ∧ x.guards = []
  | .raised => True

/-- Walks through code that find so many values take none of them, never get stuck, and end as they
should. -/
def KeepsStack (ps : List Piece) (depth : Nat) (Ends : Point → Prop) : Prop :=
  ∀ x, Reaches depth ps ⟨.code ps, depth, []⟩ x →
    (nexts depth ps x).isSome = true ∧ (x.isOver = true → Ends x)

/-- Code that is `Safe` for any number of steps `KeepsStack`. -/
theorem keepsStack_of_safe {Ends : Point → Prop}
    (h : ∀ n, Safe depth ps Ends n ⟨.code ps, depth, []⟩) : KeepsStack ps depth Ends := by
  intro x hx
  obtain ⟨hends, ys, hnexts, -⟩ := Safe.of_reaches h hx 1
  exact ⟨by rw [hnexts, Option.isSome_some], hends⟩

/-- Code that `Leaves` values `KeepsStack`. -/
theorem Leaves.keepsStack {count : Nat}
    (h : Leaves depth ps (Point.FinishesAt (depth + count)) ps count) :
    KeepsStack ps depth (Point.FinishesAt (depth + count)) := by
  refine keepsStack_of_safe fun n => ?_
  have hcode : ps ++ [] <:+ ps := ⟨[], append_nil ps⟩
  have hend : Safe depth ps (Point.FinishesAt (depth + count)) n ⟨.code [], depth + count, []⟩ :=
    .over rfl ⟨rfl, rfl⟩
  have hraise : Safe depth ps (Point.FinishesAt (depth + count)) n (raise ps []) :=
    .over rfl trivial
  have hsafe := h hcode (Nat.le_refl depth) hraise hend
  rwa [append_nil] at hsafe

/-- Outside of the code, the ways out end as `LeavesAt` says. -/
theorem waysOut_leavesAt {n : Nat}
    (hlabels : ∀ loop ∈ nest.loops, loop.continueLabel ∉ labelsIn (ownCode ps) ∧
      loop.breakLabel ∉ labelsIn (ownCode ps)) :
    WaysOut depth ps (Point.LeavesAt nest depth) nest n depth [] where
  loop := by
    intro loop l exit hloop hl hexit rest
    have hlabel : l ∉ labelsIn (ownCode ps) := by
      obtain ⟨hcontinue, hbreak⟩ := hlabels loop (mem_of_mem_head? hloop)
      rcases hl with rfl | rfl
      · exact hcontinue
      · exact hbreak
    have hadvance : advance depth ps depth [] rest (.op exit.operation) =
        some [goTo ps depth [] (.label l)] := by
      rcases eq_of_exitTo hexit with rfl | rfl <;> rfl
    refine .step hadvance (.over rfl trivial) fun y hy m _ => ?_
    cases mem_singleton.mp hy
    rw [goTo_label_left hlabel]
    exact .over rfl ⟨rfl, rfl, loop, hloop, hl⟩
  function := by
    intro exit hexit hasValue rest
    have hadvance : advance depth ps (depth + hasValue.toNat) [] rest
        (.leave hasValue exit.operation) =
        some [⟨.returned hasValue, depth + hasValue.toNat, []⟩] := by
      rcases eq_of_exitTo hexit with rfl | rfl <;> rfl
    refine .step hadvance (.over rfl trivial) fun y hy m _ => ?_
    cases mem_singleton.mp hy
    exact .over rfl ⟨rfl, rfl⟩

/-- Code that `Runs` `KeepsStack`. -/
theorem Runs.keepsStack
    (hlabels : ∀ loop ∈ nest.loops, loop.continueLabel ∉ labelsIn (ownCode ps) ∧
      loop.breakLabel ∉ labelsIn (ownCode ps))
    (h : Runs depth ps (Point.LeavesAt nest depth) nest ps) :
    KeepsStack ps depth (Point.LeavesAt nest depth) := by
  refine keepsStack_of_safe fun n => ?_
  have hcode : ps ++ [] <:+ ps := ⟨[], append_nil ps⟩
  have hend : Safe depth ps (Point.LeavesAt nest depth) n ⟨.code [], depth, []⟩ :=
    .over rfl ⟨rfl, rfl⟩
  have hraise : Safe depth ps (Point.LeavesAt nest depth) n (raise ps []) := .over rfl trivial
  have hsafe := h hcode (Nat.le_refl depth) hraise (waysOut_leavesAt hlabels) hend
  rwa [append_nil] at hsafe

/-- Loops are inside of no more try statements than are open, and their labels were handed out. -/
def Draft.IsNested (d : Draft) : Prop :=
  d.nesting.IsNested ∧
    ∀ loop ∈ d.nesting.loops, loop.continueLabel < d.labelCount ∧ loop.breakLabel < d.labelCount

theorem StmtCode.keepsStack {s : LowerState} {stmt : Stmt}
    (h : StmtCode s.draft.nesting stmt s.context ps ctx) (hs : s.draft.IsNested)
    (hstmt : stmt.hasValues = true) (hps : ∀ piece ∈ ps, piece.hasValue = true) (depth : Nat) :
    KeepsStack ps depth (Point.LeavesAt s.draft.nesting depth) := by
  have hfresh := h.fresh
  refine Runs.keepsStack ?_ (h.runs hfresh.nodup hs.1 hstmt hps)
  intro loop hloop
  obtain ⟨hcontinue, hbreak⟩ := hs.2 loop hloop
  exact ⟨fun hl => Nat.not_lt.mpr (hfresh.range _ hl).1 hcontinue,
    fun hl => Nat.not_lt.mpr (hfresh.range _ hl).1 hbreak⟩

/-- The code that an expression, an expression that stands as a statement, and a statement add is
code of that construct. Every walk through it takes none of the values that it finds (`KeepsStack`),
and ends with one value more, with as many, and with as many or by a way out, if symbols whose
values are wanted have one and what stands as a statement is an effect or has a value. -/
theorem lowered_code_keeps_stack (s s' : LowerState) :
    (∀ e, lowerExpr e s = .ok () s' →
      (∃ ps, ExprCode e s.context ps s'.context ∧ s'.draft.code = s.draft.code ++ codeOf ps) ∧
      ∀ ps, ExprCode e s.context ps s'.context → (∀ piece ∈ ps, piece.hasValue = true) →
        ∀ depth, KeepsStack ps depth (Point.FinishesAt (depth + 1))) ∧
    (∀ e, lowerDiscarded e s = .ok () s' →
      (∃ ps, DiscardedCode e s.context ps s'.context ∧
        s'.draft.code = s.draft.code ++ codeOf ps) ∧
      ∀ ps, DiscardedCode e s.context ps s'.context → e.isEffectOrValue = true →
        (∀ piece ∈ ps, piece.hasValue = true) →
        ∀ depth, KeepsStack ps depth (Point.FinishesAt depth)) ∧
    (∀ stmt, lowerStmt stmt s = .ok () s' →
      (∃ ps, StmtCode s.draft.nesting stmt s.context ps s'.context ∧
        s'.draft.code = s.draft.code ++ codeOf ps) ∧
      ∀ ps, StmtCode s.draft.nesting stmt s.context ps s'.context → s.draft.IsNested →
        stmt.hasValues = true → (∀ piece ∈ ps, piece.hasValue = true) →
        ∀ depth, KeepsStack ps depth (Point.LeavesAt s.draft.nesting depth)) := by
  refine ⟨fun e h => ⟨?_, ?_⟩, fun e h => ⟨?_, ?_⟩, fun stmt h => ⟨?_, ?_⟩⟩
  · obtain ⟨ps, hcode, hwrites⟩ := lowerExpr_code e h
    exact ⟨ps, hcode, hwrites.code_eq⟩
  · intro ps hcode hps depth
    exact (hcode.leaves hcode.fresh.nodup hps).keepsStack
  · obtain ⟨ps, hcode, hwrites⟩ := lowerDiscarded_code h
    exact ⟨ps, hcode, hwrites.code_eq⟩
  · intro ps hcode he hps depth
    exact Leaves.keepsStack (hcode.leaves hcode.fresh.nodup he hps)
  · obtain ⟨ps, hcode, hwrites⟩ := lowerStmt_code stmt s s' h
    exact ⟨ps, hcode, hwrites.code_eq⟩
  · intro ps hcode hs hstmt hps depth
    exact hcode.keepsStack hs hstmt hps depth

/-- A function of one parameter, which returns a value. -/
def calledSymbol : Symbol := ⟨"f", 1, {}, .function 7 1 true⟩

/-- The body of a loop, where the function is known. -/
def callingState : LowerState where
  draft := { id := 0, name := "test", labelCount := 3, nesting := ⟨[⟨1, 2, 0⟩], []⟩ }
  scope := { builtins := {}, rootFrame := ⟨1, "root", [calledSymbol]⟩, nextId := 2 }
  tokens := .empty

/-- A call of the function. -/
def calling (argument : Int) : Expr :=
  .call (.ident ⟨"f", {}⟩ .integer {}) [.literal (.int argument) .integer {}] .integer {}

def callPieces (argument : Int) (isWanted : Bool) : List Piece :=
  plain [.pushInt argument] ++ [.use calledSymbol 1 isWanted [.call 7]]

theorem calling_code (h : ctx.scope.lookup "f" = some calledSymbol) (argument : Int) :
    ExprCode (calling argument) ctx (callPieces argument true) ctx :=
  .call h rfl (.cons .nil .literal) .function

theorem calling_discarded (h : ctx.scope.lookup "f" = some calledSymbol) (argument : Int) :
    DiscardedCode (calling argument) ctx (callPieces argument false ++ plain [.simple .drop])
      ctx := by
  have hcall : (calling argument).unparenthesized = .call (.ident ⟨"f", {}⟩ .integer {})
      [.literal (.int argument) .integer {}] .integer {} := rfl
  have hcallee : ctx.scope.callee? (.ident ⟨"f", {}⟩ .integer {}) = some calledSymbol := h
  exact .call hcall hcallee rfl (.cons .nil .literal) .function

/-- A try statement that is left by `break`, and with the value of a call, which waits below the
finalizer. -/
def guardedCall : Stmt :=
  .try ⟨[.if (calling 1) (.break {}) none {}, .return (some (calling 2)) {}], {}⟩
    (some ⟨none, ⟨[], {}⟩, {}⟩) (some ⟨[.expr (calling 3) {}], {}⟩) {}

def guardedBody : List Piece :=
  plain [.anchor] ++ (callPieces 1 true ++ plain [.jump .ifFalse 6] ++
    plain [(Exit.endTry 2).operation] ++ plain [.label 6] ++
      (callPieces 2 true ++ [.leave true (Exit.endTry 0).operation] ++ [])) ++ plain [.anchor]

def guardedPieces : List Piece :=
  plain [.try (some 3) (some 4)] ++ guardedBody ++ plain [.endTry 5] ++
    (plain [.label 3, .simple .drop] ++ (plain [.anchor] ++ [] ++ plain [.anchor]) ++
      plain [.endTry 5]) ++
    (plain [.label 4] ++ (plain [.anchor] ++ (callPieces 3 false ++ plain [.simple .drop] ++ []) ++
      plain [.anchor]) ++ plain [.simple .endFinally]) ++
    plain [.label 5]

theorem lowered_code_keeps_stack_guardedCall :
    ∃ s', lowerStmt guardedCall callingState = .ok () s' ∧
      s'.draft.code = codeOf guardedPieces ∧ ∀ depth,
        KeepsStack guardedPieces depth (Point.LeavesAt callingState.draft.nesting depth) := by
  have hbody : ∀ ctx : Context, ctx.scope = callingState.scope → ctx.label = 6 →
      BlockCode (callingState.draft.nesting.within .body)
        ⟨[.if (calling 1) (.break {}) none {}, .return (some (calling 2)) {}], {}⟩ ctx guardedBody
        ((ctx.enter "block").withLabel 7).leave := by
    rintro ⟨_, _, _, _, _⟩ rfl rfl
    exact .block (.cons (.ifThen (calling_code rfl 1) (.break rfl))
      (.cons (.returnAs (calling_code rfl 2) rfl) .nil))
  refine ⟨_, rfl, by decide +kernel, ?_⟩
  have hlowered := (lowered_code_keeps_stack callingState _).2.2 guardedCall rfl
  refine hlowered.2 guardedPieces ?_ ?_ rfl ?_
  · exact .try rfl rfl (hbody _ rfl rfl) (.some .drop (.block .nil))
      (.some (.block (.cons (.expr (calling_discarded rfl 3)) .nil)))
  · exact ⟨forall_mem_singleton.mpr (Nat.le_refl 0), by decide⟩
  · exact all_eq_true.mp rfl

/-- A property of an object of the host, which takes a value as a parameter or not, and has a value
or not. -/
def property (takesValue hasValue : Bool) : Symbol :=
  ⟨"p", 0, {}, .host ⟨[.simple .nop], takesValue.toNat, hasValue, true⟩⟩

def propertyState (takesValue hasValue : Bool) : LowerState where
  draft := { id := 0, name := "test" }
  scope := .root "root" { symbols := [⟨"O", 0, {}, .object [property takesValue hasValue]⟩] }
  tokens := .empty

def readProperty : Expr := .member (.ident ⟨"O", {}⟩ .any {}) ⟨"p", {}⟩ .integer {}

theorem readProperty_code (takesValue hasValue : Bool) :
    ExprCode readProperty (propertyState takesValue hasValue).context
      [.use (property takesValue hasValue) 0 true [.simple .nop]]
      (propertyState takesValue hasValue).context :=
  .property rfl rfl .host

/-- It is not enough that symbols in the place of a value have one, and that what stands as a
statement has a type. A property without a value that stands as a statement is followed by the
`DROP` of a value that was there before, and a property with a parameter takes such a value. -/
theorem property_reaches_below :
    (∃ s' ps, lowerDiscarded readProperty (propertyState false false) = .ok () s' ∧
      s'.draft.code = codeOf ps ∧
      DiscardedCode readProperty (propertyState false false).context ps s'.context ∧
      readProperty.isEffectOrValue = true ∧ ¬ KeepsStack ps 0 (Point.FinishesAt 0)) ∧
    ∃ s' ps, lowerExpr readProperty (propertyState true true) = .ok () s' ∧
      s'.draft.code = codeOf ps ∧
      ExprCode readProperty (propertyState true true).context ps s'.context ∧
      ¬ KeepsStack ps 0 (Point.FinishesAt 1) := by
  constructor
  · refine ⟨_, [.use (property false false) 0 true [.simple .nop], .op (.simple .drop)], rfl,
      by decide +kernel, .value (e := readProperty) rfl (readProperty_code false false), rfl,
      fun h => ?_⟩
    have hread : nexts 0 [.use (property false false) 0 true [.simple .nop], .op (.simple .drop)]
        ⟨.code [.use (property false false) 0 true [.simple .nop], .op (.simple .drop)], 0, []⟩ =
        some [⟨.raised, 0, []⟩, ⟨.code [.op (.simple .drop)], 0, []⟩] := rfl
    have hdrop := h _ (.step .refl hread (mem_cons_of_mem _ mem_cons_self))
    exact absurd hdrop.1 Bool.false_ne_true
  · refine ⟨_, [.use (property true true) 0 true [.simple .nop]], rfl, by decide +kernel,
      readProperty_code true true, fun h => ?_⟩
    exact absurd (h _ .refl).1 Bool.false_ne_true

end ContractScript
