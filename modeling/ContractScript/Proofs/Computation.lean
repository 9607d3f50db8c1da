import ContractScript.Proofs.Elision
import ContractScript.Proofs.Variables

/-!
# Code that does what a run does

What pieces of code do to the variables in scope, compared with runs by name: `Computes` for code
that leaves a value, `Performs` for code that ends where a run ends, and does not end where a run
does not. What comes after a piece of code in a function is arbitrary.
-/

namespace ContractScript

open List

variable {V : Type} {op : Operation} {n : Nat} {continueLabel breakLabel l : Label}
  {head : List Operation}

/-! ## Values -/

/-- What the code of a function is about: the names in scope, and labels that are placed once. -/
structure Setting (I : Interpretation V) (g : Globals V) (extent : Extent)
    (program : List Operation) (scope : Scope) : Prop where
  describes : Describes I g extent.statics scope
  distinct : (slotsIn scope.inner).Nodup
  labels : (labelsIn program).Nodup

/-- Code of a program that does what a run does to the variables in scope, and leaves its value on
the stack if asked to. -/
def Computes (I : Interpretation V) (extent : Extent) (program : List Operation)
    (frames : List Frame) (keep : Bool) (run : Store V → Option (V × Store V))
    (code : List Operation) : Prop :=
  ∀ post, code ++ post <:+ program → ∀ stack σ vars, Agree extent frames σ vars →
    ∃ v σ' vars', run σ = some (v, σ') ∧ Agree extent frames σ' vars' ∧
      I.RunsTo program ⟨code ++ post, stack, vars⟩
        ⟨post, bif keep then v :: stack else stack, vars'⟩

namespace Computes

variable {I : Interpretation V} {g : Globals V} {extent : Extent} {program : List Operation}
  {frames : List Frame} {run run' : Store V → Option (V × Store V)} {code code' : List Operation}

theorem congr {keep : Bool} (h : Computes I extent program frames keep run code)
    (hrun : ∀ σ, run' σ = run σ) : Computes I extent program frames keep run' code := by
  have heq : run' = run := funext hrun
  rw [heq]
  exact h

/-- `Computes` of an operation that pushes a value. -/
theorem push (hjump : op.isJump = false) {v : V}
    (hop : ∀ stack vars, I.operation op stack vars = some (v :: stack, vars)) :
    Computes I extent program frames true (fun σ => some (v, σ)) [op] := by
  intro post _ stack σ vars hagree
  exact ⟨v, σ, vars, rfl, hagree, .of_operation hjump (hop stack vars) post⟩

variable (h : Computes I extent program frames true run code)
include h

/-- `Computes` with an operation on the value. -/
theorem apply (op : Operation) {f : V → V} (hjump : op.isJump = false)
    (hop : ∀ v stack vars, I.operation op (v :: stack) vars = some (f v :: stack, vars)) :
    Computes I extent program frames true
      (fun σ => (run σ).bind fun (v, σ) => some (f v, σ)) (code ++ [op]) := by
  intro post hsuffix stack σ vars hagree
  rw [append_assoc] at hsuffix ⊢
  obtain ⟨v, σ', vars', hrun, hagree', hruns⟩ := h _ hsuffix stack σ vars hagree
  refine ⟨f v, σ', vars', by simp only [hrun, Option.bind_some], hagree', ?_⟩
  exact hruns.trans (.of_operation hjump (hop v stack vars') post)

/-- `Computes` with an operation on the values of two runs. -/
theorem apply₂ (h' : Computes I extent program frames true run' code') {f : V → V → V}
    (hjump : op.isJump = false)
    (hop : ∀ x y stack vars, I.operation op (y :: x :: stack) vars = some (f x y :: stack, vars)) :
    Computes I extent program frames true
      (fun σ => (run σ).bind fun (x, σ) => (run' σ).bind fun (y, σ) => some (f x y, σ))
      (code ++ (code' ++ [op])) := by
  intro post hsuffix stack σ vars hagree
  rw [append_assoc, append_assoc] at hsuffix ⊢
  obtain ⟨x, σ₁, vars₁, hrun, hagree₁, hruns⟩ := h _ hsuffix stack σ vars hagree
  have hsuffix' := (suffix_append code _).trans hsuffix
  obtain ⟨y, σ₂, vars₂, hrun', hagree₂, hruns'⟩ := h' _ hsuffix' (x :: stack) σ₁ vars₁ hagree₁
  refine ⟨f x y, σ₂, vars₂, by simp only [hrun, hrun', Option.bind_some], hagree₂, ?_⟩
  exact (hruns.trans hruns').trans (.of_operation hjump (hop x y stack vars₂) post)

/-- `Computes` with the value dropped. -/
theorem drop : Computes I extent program frames false run (code ++ [.simple .drop]) := by
  intro post hsuffix stack σ vars hagree
  rw [append_assoc] at hsuffix ⊢
  obtain ⟨v, σ', vars', hrun, hagree', hruns⟩ := h _ hsuffix stack σ vars hagree
  exact ⟨v, σ', vars', hrun, hagree', hruns.trans (.of_operation rfl rfl post)⟩

end Computes

section Names

variable {I : Interpretation V} {g : Globals V} {extent : Extent} {program : List Operation}
  {scope : Scope} {name : String} {symbol : Symbol} {kind : SlotKind} {index : Nat}
  {isMutable : Bool} {run : Store V → Option (V × Store V)} {code : List Operation}

/-- `Operation.load` reads the variable of a name. -/
theorem computes_load (hset : Setting I g extent program scope)
    (hlookup : scope.lookup name = some symbol)
    (hdef : symbol.definition = .slot kind index isMutable) :
    Computes I extent program scope.inner true
      (fun σ => (σ.get? g name).map fun v => (v, σ)) [.load kind index] := by
  intro post _ stack σ vars hagree
  obtain ⟨v, hget, hvalue⟩ := hagree.load hset.describes hlookup hdef
  refine ⟨v, σ, vars, by simp only [hget, Option.map_some], hagree, .of_operation rfl ?_ post⟩
  rw [Interpretation.operation, hvalue]
  rfl

theorem operation_push (c : Constant) (stack : List V) (vars : Vars V) :
    I.operation c.push stack vars = some (I.constant c :: stack, vars) := by
  cases c <;> rfl

theorem isJump_push (c : Constant) : c.push.isJump = false := by
  cases c <;> rfl

/-- `Constant.push` stands where a constant is named. -/
theorem computes_constant {c : Constant} (hset : Setting I g extent program scope)
    (hlookup : scope.lookup name = some symbol) (hdef : symbol.definition = .constant c) :
    Computes I extent program scope.inner true
      (fun σ => (σ.get? g name).map fun v => (v, σ)) [c.push] := by
  intro post _ stack σ vars hagree
  have hget := hagree.constant hset.describes hlookup hdef
  refine ⟨I.constant c, σ, vars, by simp only [hget, Option.map_some], hagree, ?_⟩
  exact .of_operation (isJump_push c) (operation_push c stack vars) post

/-- The `Operation`s that assign the value on the stack. -/
def storeCode (keep : Bool) (kind : SlotKind) (index : Nat) : List Operation :=
  (bif keep then [.simple .dup] else []) ++ [.store kind index]

/-- `storeCode` assigns to the variable of a name. -/
theorem computes_store (hset : Setting I g extent program scope)
    (hlookup : scope.lookup name = some symbol)
    (hdef : symbol.definition = .slot kind index isMutable) (keep : Bool)
    (h : Computes I extent program scope.inner true run code) :
    Computes I extent program scope.inner keep
      (fun σ => (run σ).bind fun (v, σ) => (σ.assign? g name v).bind fun σ => some (v, σ))
      (code ++ storeCode keep kind index) := by
  intro post hsuffix stack σ vars hagree
  rw [append_assoc] at hsuffix ⊢
  obtain ⟨v, σ₁, vars₁, hrun, hagree₁, hruns⟩ := h _ hsuffix stack σ vars hagree
  obtain ⟨σ₂, hassign, hindex, hagree₂⟩ :=
    hagree₁.store hset.describes hset.distinct hlookup hdef v
  have hstore : ∀ stack', I.operation (.store kind index) (v :: stack') vars₁ =
      some (stack', vars₁.set kind index v) := fun stack' => if_pos hindex
  refine ⟨v, σ₂, vars₁.set kind index v, ?_, hagree₂, hruns.trans ?_⟩
  · simp only [hrun, hassign, Option.bind_some]
  · cases keep with
    | false => exact .of_operation rfl (hstore stack) post
    | true =>
      refine .trans (.of_operation rfl rfl (.store kind index :: post)) ?_
      exact .of_operation rfl (hstore (v :: stack)) post

/-- The `Operation`s that test whether the left operand decides. -/
def decideCode (op : BinaryOp) (done : Label) : List Operation :=
  match op with
  | .logicalAnd => [.jump .ifFalse done]
  | .logicalOr => [.jump .ifTrue done]
  | _ => [.simple .isNull, .jump .ifFalse done]

/-- `decideCode` jumps if the left operand decides. -/
theorem runsTo_decideCode (op : BinaryOp) {done : Label} {post : List Operation}
    (hdone : afterLabel done program = some post) (rest : List Operation) (v : V) (stack : List V)
    (vars : Vars V) :
    I.RunsTo program ⟨decideCode op done ++ rest, v :: stack, vars⟩
      ⟨bif I.decides op v then post else rest, stack, vars⟩ := by
  cases op with
  | logicalAnd => exact .of_jump rfl hdone rest vars
  | logicalOr => exact .of_jump rfl hdone rest vars
  | _ => exact .trans (.of_operation rfl rfl _) (.of_jump rfl hdone rest vars)

end Names

/-- The right operand is computed only if the left one does not decide. -/
theorem Computes.shortCircuit {I : Interpretation V} {extent : Extent} {program : List Operation}
    {frames : List Frame} {run run' : Store V → Option (V × Store V)} {code code' : List Operation}
    (hlabels : (labelsIn program).Nodup) (h : Computes I extent program frames true run code)
    (h' : Computes I extent program frames true run' code') (op : BinaryOp) (done : Label) :
    Computes I extent program frames true
      (fun σ => (run σ).bind fun (v, σ) => if I.decides op v then some (v, σ) else run' σ)
      (code ++ (Operation.simple .dup :: (decideCode op done ++
        (Operation.simple .drop :: (code' ++ [Operation.label done]))))) := by
  intro post hsuffix stack σ vars hagree
  simp only [append_assoc, cons_append, nil_append] at hsuffix ⊢
  obtain ⟨v, σ₁, vars₁, hrun, hagree₁, hruns⟩ := h _ hsuffix stack σ vars hagree
  -- what is left of the program after each part
  have hdup := (suffix_append code _).trans hsuffix
  have hdecide := (suffix_cons _ _).trans hdup
  have hdrop := (suffix_append (decideCode op done) _).trans hdecide
  have hright := (suffix_cons _ _).trans hdrop
  have hlabel := (suffix_append code' _).trans hright
  have hdone := afterLabel_of_suffix hlabels hlabel
  have htest : I.RunsTo program ⟨code ++ _, stack, vars⟩
      ⟨bif I.decides op v then post else _, v :: stack, vars₁⟩ :=
    hruns.trans (.trans (.of_operation rfl rfl _) (runsTo_decideCode op hdone _ v _ vars₁))
  cases hdecides : I.decides op v with
  | true =>
    rw [hdecides] at htest
    refine ⟨v, σ₁, vars₁, ?_, hagree₁, htest⟩
    simp only [hrun, Option.bind_some, hdecides, if_true]
  | false =>
    rw [hdecides] at htest
    obtain ⟨w, σ₂, vars₂, hrun', hagree₂, hruns'⟩ := h' _ hright stack σ₁ vars₁ hagree₁
    refine ⟨w, σ₂, vars₂, ?_, hagree₂, ?_⟩
    · simp only [hrun, Option.bind_some, hdecides, Bool.false_eq_true, if_false, hrun']
    · refine htest.trans (.trans (.of_operation rfl rfl _) (hruns'.trans ?_))
      exact .of_operation rfl rfl post

/-! ## Statements -/

/-- What a statement leaves on the stack: the value that it returns. -/
def Signal.values : Signal V → List V
  | .return value => value.toList
  | _ => []

/-- The code that a statement goes on with: `post` stands after it, and the others are found by
their labels. -/
def landing (program : List Operation) (nesting : Nesting) (post : List Operation) :
    Signal V → Option (List Operation)
  | .next => some post
  | .break => nesting.loops.head?.bind fun l => afterLabel l.breakLabel program
  | .continue => nesting.loops.head?.bind fun l => afterLabel l.continueLabel program
  | .return _ => afterLabel Draft.returnTarget program

/-- The labels that statements may leave to are placed, and no try statement has to be left. -/
structure Landed (program : List Operation) (nesting : Nesting) : Prop where
  tries_eq : nesting.tries = []
  loops : ∀ l ∈ nesting.loops, (afterLabel l.breakLabel program).isSome ∧
    (afterLabel l.continueLabel program).isSome
  returns : (afterLabel Draft.returnTarget program).isSome

/-- The machine gets to where a run ends. As long as a run has no end, the machine takes as many
steps as there is fuel. -/
def Arrives (I : Interpretation V) (program : List Operation) (fuel : Nat)
    (land : Signal V → Option (List Operation)) (after : Store V → Vars V → Prop) (c : Config V) :
    Run (Signal V × Store V) → Prop
  | .error .undefined => False
  | .error .outOfFuel => I.RunsFor program fuel c
  | .ok (signal, σ) => ∃ rest vars, land signal = some rest ∧ after σ vars ∧
      I.RunsTo program c ⟨rest, signal.values, vars⟩

/-- Code of a program that does what a run does, from variables that satisfy `before` to such that
satisfy `after`. -/
def Performs (I : Interpretation V) (program : List Operation) (fuel : Nat) (nesting : Nesting)
    (before after : Store V → Vars V → Prop) (run : Store V → Run (Signal V × Store V))
    (code : List Operation) : Prop :=
  Landed program nesting → ∀ post, code ++ post <:+ program → ∀ σ vars, before σ vars →
    Arrives I program fuel (landing program nesting post) after ⟨code ++ post, [], vars⟩ (run σ)

namespace Arrives

variable {I : Interpretation V} {program : List Operation} {fuel : Nat}
  {land : Signal V → Option (List Operation)} {nesting : Nesting} {post post' : List Operation}
  {before after : Store V → Vars V → Prop} {c c' : Config V} {outcome : Run (Signal V × Store V)}

/-- `Arrives` from where the machine gets to. -/
theorem of_runsTo (h : I.RunsTo program c c') (h' : Arrives I program fuel land after c' outcome) :
    Arrives I program fuel land after c outcome := by
  match outcome, h' with
  | .error .outOfFuel, h' => exact h.runsFor h'
  | .ok (_, _), ⟨rest, vars, hland, hafter, hruns⟩ =>
    exact ⟨rest, vars, hland, hafter, h.trans hruns⟩

/-- A step of `Arrives` allows for more fuel. -/
theorem of_step (h : I.step program c = some c')
    (h' : Arrives I program fuel land after c' outcome) :
    Arrives I program (fuel + 1) land after c outcome := by
  match outcome, h' with
  | .error .outOfFuel, h' => exact Interpretation.RunsFor.of_step h h'
  | .ok (_, _), ⟨rest, vars, hland, hafter, hruns⟩ =>
    exact ⟨rest, vars, hland, hafter, .trans (.of_step h) hruns⟩

theorem mono (h : Arrives I program fuel land after c outcome) (hle : n ≤ fuel) :
    Arrives I program n land after c outcome := by
  match outcome, h with
  | .error .outOfFuel, h => exact Interpretation.RunsFor.mono h hle
  | .ok (_, _), h => exact h

/-- `Arrives` with what comes after code that went on to the next statement. -/
theorem andThen {rest : Store V → Run (Signal V × Store V)}
    (h : Arrives I program fuel (landing program nesting post) before c outcome)
    (hrest : ∀ σ vars, before σ vars →
      Arrives I program fuel (landing program nesting post') after ⟨post, [], vars⟩ (rest σ))
    (hexit : ∀ σ vars, before σ vars → after σ vars) :
    Arrives I program fuel (landing program nesting post') after c (andThen outcome rest) := by
  match outcome, h with
  | .error .outOfFuel, h => exact h
  | .ok (.next, σ), ⟨_, vars, hland, hbefore, hruns⟩ =>
    cases hland
    exact of_runsTo hruns (hrest σ vars hbefore)
  | .ok (.break, σ), ⟨target, vars, hland, hbefore, hruns⟩
  | .ok (.continue, σ), ⟨target, vars, hland, hbefore, hruns⟩
  | .ok (.return _, σ), ⟨target, vars, hland, hbefore, hruns⟩ =>
    exact ⟨target, vars, hland, hexit σ vars hbefore, hruns⟩

/-- `Arrives` with code behind that changes no variable. -/
theorem extend (h : Arrives I program fuel (landing program nesting post) after c outcome)
    (hpost : ∀ vars, I.RunsTo program ⟨post, [], vars⟩ ⟨post', [], vars⟩) :
    Arrives I program fuel (landing program nesting post') after c outcome := by
  match outcome, h with
  | .error .outOfFuel, h => exact h
  | .ok (.next, σ), ⟨_, vars, hland, hafter, hruns⟩ =>
    cases hland
    exact ⟨post', vars, rfl, hafter, hruns.trans (hpost vars)⟩
  | .ok (.break, σ), h | .ok (.continue, σ), h | .ok (.return _, σ), h => exact h

/-- One time around a loop: from the end of its body, and from its `continue`, control goes back to
the head. -/
theorem round {again : Store V → Run (Signal V × Store V)}
    (h : Arrives I program n
      (landing program (nesting.enterLoop continueLabel breakLabel) post) after c outcome)
    (hcontinue : afterLabel continueLabel program = some head)
    (hbreak : afterLabel breakLabel program = some post')
    (hback : ∀ vars, I.RunsTo program ⟨post, [], vars⟩ ⟨head, [], vars⟩)
    (hagain : ∀ σ vars, after σ vars →
      Arrives I program n (landing program nesting post') after ⟨head, [], vars⟩ (again σ)) :
    Arrives I program n (landing program nesting post') after c (goAround outcome again) := by
  match outcome, h with
  | .error .outOfFuel, h => exact h
  | .ok (.next, σ), ⟨_, vars, hland, hafter, hruns⟩ =>
    cases hland
    exact of_runsTo (hruns.trans (hback vars)) (hagain σ vars hafter)
  | .ok (.continue, σ), ⟨_, vars, hland, hafter, hruns⟩ =>
    cases hcontinue.symm.trans hland
    exact of_runsTo hruns (hagain σ vars hafter)
  | .ok (.break, σ), ⟨_, vars, hland, hafter, hruns⟩ =>
    cases hbreak.symm.trans hland
    exact ⟨post', vars, rfl, hafter, hruns⟩
  | .ok (.return _, σ), h => exact h

/-- All the rounds of a loop, if each round allows for one more unit of fuel. -/
theorem rounds {step : Store V → Run (Signal V × Store V)}
    (hround : ∀ n < fuel, ∀ again,
      (∀ σ vars, after σ vars → Arrives I program n land after ⟨head, [], vars⟩ (again σ)) →
      ∀ σ vars, after σ vars →
        Arrives I program (n + 1) land after ⟨head, [], vars⟩ (goAround (step σ) again)) :
    ∀ n ≤ fuel, ∀ σ vars, after σ vars →
      Arrives I program n land after ⟨head, [], vars⟩ (repeated step n σ) := by
  intro n
  induction n with
  | zero => exact fun _ σ vars _ => ⟨0, _, Nat.le_refl 0, .refl _⟩
  | succ n ih => exact fun hn => hround n hn _ (ih (Nat.le_of_succ_le hn))

end Arrives

/-- Where no try statement is left, `exitTo` is a jump. -/
theorem eq_jump_of_exitTo {nesting : Nesting} {target : Label} {depth : Nat} {e : Exit}
    (h : nesting.tries = []) (he : nesting.exitTo target depth = .ok e) : e = .jump target := by
  obtain ⟨-, rfl⟩ | ⟨hlength, -⟩ := Nesting.exitTo_eq_ok_iff.mp he
  · rfl
  · rw [h] at hlength
    cases hlength

namespace Performs

variable {I : Interpretation V} {g : Globals V} {extent : Extent} {program : List Operation}
  {fuel : Nat} {nesting : Nesting} {frames : List Frame}
  {before between after : Store V → Vars V → Prop}
  {run run' : Store V → Run (Signal V × Store V)} {value : Store V → Option (V × Store V)}
  {code code' : List Operation}

/-- `Performs` of two statements. -/
theorem seq (h : Performs I program fuel nesting before between run code)
    (h' : Performs I program fuel nesting between after run' code')
    (hexit : ∀ σ vars, between σ vars → after σ vars) :
    Performs I program fuel nesting before after (fun σ => andThen (run σ) run')
      (code ++ code') := by
  intro hlanded post hsuffix σ vars hbefore
  rw [append_assoc] at hsuffix ⊢
  have hsuffix' := (suffix_append code _).trans hsuffix
  exact (h hlanded _ hsuffix σ vars hbefore).andThen (h' hlanded post hsuffix') hexit

/-- `Performs` of an expression for its effects. -/
theorem expr (h : Computes I extent program frames false value code) :
    Performs I program fuel nesting (Agree extent frames) (Agree extent frames)
      (fun σ => do
        let (_, σ) ← defined (value σ)
        .ok (.next, σ)) code := by
  intro hlanded post hsuffix σ vars hagree
  obtain ⟨v, σ', vars', hvalue, hagree', hruns⟩ := h post hsuffix [] σ vars hagree
  dsimp only
  rw [hvalue]
  exact ⟨post, vars', rfl, hagree', hruns⟩

/-- `Performs` of a declaration, that stores its value in a new slot. -/
theorem declare {f : Frame} {outer : List Frame} {name : String} {symbol : Symbol} {index : Nat}
    {isMutable : Bool} (h : Computes I extent program (f :: outer) true value code)
    (hfree : findSymbol f.symbols name = none) (hslot : (.local, index) ∉ slotsIn (f :: outer))
    (hindex : index < extent.locals) (hname : symbol.name = name)
    (hdef : symbol.definition = .slot .local index isMutable) :
    Performs I program fuel nesting (Agree extent (f :: outer))
      (Agree extent ({ f with symbols := f.symbols ++ [symbol] } :: outer))
      (fun σ => do
        let (v, σ) ← defined (value σ)
        let σ ← defined (σ.declare? name v)
        .ok (.next, σ)) (code ++ [.store .local index]) := by
  intro hlanded post hsuffix σ vars hagree
  rw [append_assoc] at hsuffix ⊢
  obtain ⟨v, σ₁, vars₁, hvalue, hagree₁, hruns⟩ := h _ hsuffix [] σ vars hagree
  obtain ⟨σ₂, hdeclare, hagree₂⟩ := hagree₁.declare hfree hslot hindex hname hdef v
  have hstore : I.operation (.store .local index) [v] vars₁ =
      some ([], vars₁.set .local index v) := if_pos (hagree₁.locals_length.symm ▸ hindex)
  dsimp only
  rw [hvalue]
  dsimp only [defined, Except.bind, bind]
  rw [hdeclare]
  exact ⟨post, _, rfl, hagree₂, hruns.trans (.of_operation rfl hstore post)⟩

/-- `Performs` of an exit out of a statement. -/
theorem exit {signal : Signal V} {target : Label} {depth : Nat} {e : Exit}
    (he : nesting.exitTo target depth = .ok e) (hvalues : signal.values = [])
    (hland : ∀ post, landing program nesting post signal = afterLabel target program)
    (hplaced : Landed program nesting → (afterLabel target program).isSome) :
    Performs I program fuel nesting before before (fun σ => .ok (signal, σ)) [e.operation] := by
  intro hlanded post _ σ vars hbefore
  obtain ⟨rest, hrest⟩ := Option.isSome_iff_exists.mp (hplaced hlanded)
  cases eq_jump_of_exitTo hlanded.tries_eq he
  refine ⟨rest, vars, (hland post).trans hrest, hbefore, ?_⟩
  rw [hvalues]
  exact .of_jump_always hrest post [] vars

/-- `Performs` of a return with a value. -/
theorem exitWith {e : Exit} (he : nesting.returnExit Draft.returnTarget = .ok e)
    (h : Computes I extent program frames true value code) :
    Performs I program fuel nesting (Agree extent frames) (Agree extent frames)
      (fun σ => do
        let (v, σ) ← defined (value σ)
        .ok (.return (some v), σ)) (code ++ [e.operation]) := by
  intro hlanded post hsuffix σ vars hagree
  obtain ⟨rest, hrest⟩ := Option.isSome_iff_exists.mp hlanded.returns
  cases eq_jump_of_exitTo hlanded.tries_eq he
  rw [append_assoc] at hsuffix ⊢
  obtain ⟨v, σ', vars', hvalue, hagree', hruns⟩ := h _ hsuffix [] σ vars hagree
  dsimp only
  rw [hvalue]
  exact ⟨rest, vars', hrest, hagree', hruns.trans (.of_jump_always hrest post [v] vars')⟩

/-- `Performs` of a block, whose variables are in a frame of their own. -/
theorem block {id : ScopeId} {name : String}
    (h : Performs I program fuel nesting (Agree extent (⟨id, name, []⟩ :: frames))
      (fun σ => Agree extent frames σ.leave) run code) :
    Performs I program fuel nesting (Agree extent frames) (Agree extent frames)
      (fun σ => do
        let (signal, σ) ← run σ.enter
        .ok (signal, σ.leave)) (.anchor :: (code ++ [.anchor])) := by
  intro hlanded post hsuffix σ vars hagree
  rw [cons_append, append_assoc] at hsuffix ⊢
  have hcode := (suffix_cons _ _).trans hsuffix
  have harrives := h hlanded _ hcode σ.enter vars (hagree.enter id name)
  refine .of_runsTo (.of_marker .anchor rfl _ [] vars) ?_
  refine Arrives.extend ?_ (.of_marker .anchor rfl post [])
  dsimp only
  cases hrun : run σ.enter with
  | error halt =>
    rw [hrun] at harrives
    cases halt with
    | undefined => exact harrives
    | outOfFuel => exact harrives
  | ok result =>
    rw [hrun] at harrives
    exact harrives

/-- A test, and a jump if it fails. The jump is a step of its own. -/
theorem test (h : Computes I extent program frames true value code) {rest target : List Operation}
    (hl : afterLabel l program = some target)
    (hsuffix : code ++ .jump .ifFalse l :: rest <:+ program) {σ : Store V} {vars : Vars V}
    (hagree : Agree extent frames σ vars) :
    ∃ v σ' vars' c, value σ = some (v, σ') ∧ Agree extent frames σ' vars' ∧
      I.RunsTo program ⟨code ++ .jump .ifFalse l :: rest, [], vars⟩ c ∧
      I.step program c = some ⟨bif !I.isTrue v then target else rest, [], vars'⟩ := by
  obtain ⟨v, σ', vars', hvalue, hagree', hruns⟩ := h _ hsuffix [] σ vars hagree
  exact ⟨v, σ', vars', _, hvalue, hagree', hruns, Interpretation.step_jump_of rfl hl rest vars'⟩

variable (hlabels : (labelsIn program).Nodup)
  (h : Computes I extent program frames true value code)
include hlabels h

/-- `Performs` of a branch that may be left out. -/
theorem when
    (h' : Performs I program fuel nesting (Agree extent frames) (Agree extent frames) run code') :
    Performs I program fuel nesting (Agree extent frames) (Agree extent frames)
      (fun σ => I.choose (value σ) run fun σ => .ok (.next, σ))
      (code ++ Operation.jump .ifFalse l :: (code' ++ [Operation.label l])) := by
  intro hlanded post hsuffix σ vars hagree
  simp only [append_assoc, cons_append, nil_append] at hsuffix ⊢
  have hbranch := (suffix_cons _ _).trans ((suffix_append code _).trans hsuffix)
  have hend := (suffix_append code' _).trans hbranch
  have hl := afterLabel_of_suffix hlabels hend
  obtain ⟨v, σ₁, vars₁, c, hvalue, hagree₁, hruns, hstep⟩ := test h hl hsuffix hagree
  refine .of_runsTo (hruns.trans (.of_step hstep)) ?_
  rw [hvalue, Interpretation.choose_some]
  cases I.isTrue v with
  | true => exact (h' hlanded _ hbranch σ₁ vars₁ hagree₁).extend (.of_marker (.label l) rfl post [])
  | false => exact ⟨post, vars₁, rfl, hagree₁, .refl _⟩

/-- `Performs` of two branches. -/
theorem branch {l' : Label} {no : Store V → Run (Signal V × Store V)} {noCode : List Operation}
    (h' : Performs I program fuel nesting (Agree extent frames) (Agree extent frames) run code')
    (hno : Performs I program fuel nesting (Agree extent frames) (Agree extent frames) no noCode) :
    Performs I program fuel nesting (Agree extent frames) (Agree extent frames)
      (fun σ => I.choose (value σ) run no)
      (code ++ Operation.jump .ifFalse l ::
        (code' ++ Operation.jump .always l' :: .label l :: (noCode ++ [Operation.label l']))) := by
  intro hlanded post hsuffix σ vars hagree
  simp only [append_assoc, cons_append, nil_append] at hsuffix ⊢
  have hyes := (suffix_cons _ _).trans ((suffix_append code _).trans hsuffix)
  have hlabel := (suffix_cons _ _).trans ((suffix_append code' _).trans hyes)
  have helse := (suffix_cons _ _).trans hlabel
  have hend := (suffix_append noCode _).trans helse
  have hl := afterLabel_of_suffix hlabels hlabel
  have hl' := afterLabel_of_suffix hlabels hend
  obtain ⟨v, σ₁, vars₁, c, hvalue, hagree₁, hruns, hstep⟩ := test h hl hsuffix hagree
  refine .of_runsTo (hruns.trans (.of_step hstep)) ?_
  rw [hvalue, Interpretation.choose_some]
  cases I.isTrue v with
  | true => exact (h' hlanded _ hyes σ₁ vars₁ hagree₁).extend (.of_jump_always hl' _ [])
  | false =>
    have harrives := hno hlanded _ helse σ₁ vars₁ hagree₁
    exact harrives.extend (.of_marker (.label l') rfl post [])

/-- `Performs` of a loop. The code before the test is passed once for each unit of fuel. -/
theorem loop
    (h' : Performs I program fuel (nesting.enterLoop continueLabel breakLabel)
      (Agree extent frames) (Agree extent frames) run code') :
    Performs I program fuel nesting (Agree extent frames) (Agree extent frames)
      (repeated (fun σ => I.choose (value σ) run fun σ => .ok (.break, σ)) fuel)
      (.label continueLabel :: (code ++ Operation.jump .ifFalse breakLabel ::
        (code' ++ [Operation.jump .always continueLabel, .label breakLabel]))) := by
  intro hlanded post hsuffix σ vars hagree
  simp only [append_assoc, cons_append, nil_append] at hsuffix ⊢
  have htest := (suffix_cons _ _).trans hsuffix
  have hbody := (suffix_cons _ _).trans ((suffix_append code _).trans htest)
  have hback := (suffix_append code' _).trans hbody
  have hcontinue := afterLabel_of_suffix hlabels hsuffix
  have hbreak := afterLabel_of_suffix hlabels ((suffix_cons _ _).trans hback)
  refine .of_runsTo (.of_marker (.label continueLabel) rfl _ [] vars) ?_
  have hinner : Landed program (nesting.enterLoop continueLabel breakLabel) := by
    refine ⟨hlanded.tries_eq, forall_mem_cons.mpr ⟨?_, hlanded.loops⟩, hlanded.returns⟩
    exact ⟨Option.isSome_of_eq_some hbreak, Option.isSome_of_eq_some hcontinue⟩
  -- after the label the code is the same each time around; its test is the step that a round takes
  refine Arrives.rounds ?_ fuel (Nat.le_refl fuel) σ vars hagree
  intro n hn again hagain σ vars hagree
  obtain ⟨v, σ₁, vars₁, c, hvalue, hagree₁, hruns, hstep⟩ := test h hbreak htest hagree
  refine .of_runsTo hruns ?_
  rw [hvalue, Interpretation.choose_some]
  refine .of_step hstep ?_
  cases I.isTrue v with
  | false => exact ⟨post, vars₁, rfl, hagree₁, .refl _⟩
  | true =>
    have hrun := (h' hinner _ hbody σ₁ vars₁ hagree₁).mono (Nat.le_of_lt hn)
    exact hrun.round hcontinue hbreak (.of_jump_always hcontinue _ []) hagain

end Performs

end ContractScript
