import ContractScript.Proofs.Evaluation

/-!
# What operations do

A stack machine for the operations of one function. What is left of the code is part of its state
(`Config`), so a jump goes on with the code after the label that it names. The machine shares the
values and the operators of an `Interpretation`, and nothing else, with the meaning of programs. It
stops at the return operation, and wherever an operation is none of those that it knows, or finds
too few values or no slot.
-/

namespace ContractScript

variable {V : Type} {kind : SlotKind} {index m n : Nat} {l : Label} {taken : Bool}
  {target : List Operation} {op : Operation}

/-! ## States -/

/-- The slots of each kind. -/
abbrev Vars (V : Type) := SlotKind → List V

/-- Write a slot. -/
def Vars.set (vars : Vars V) (kind : SlotKind) (index : Nat) (v : V) : Vars V :=
  fun k => if k = kind then (vars k).set index v else vars k

/-- `Vars.set` keeps the number of slots. -/
theorem Vars.length_set (vars : Vars V) (kind k : SlotKind) (index : Nat) (v : V) :
    (vars.set kind index v k).length = (vars k).length := by
  unfold Vars.set
  split
  · exact List.length_set
  · rfl

theorem Vars.getElem?_set_self {vars : Vars V} (h : index < (vars kind).length) (v : V) :
    (vars.set kind index v kind)[index]? = some v := by
  rw [Vars.set, if_pos rfl]
  exact List.getElem?_set_self h

/-- `Vars.set` changes one slot only. -/
theorem Vars.getElem?_set_ne {vars : Vars V} {k : SlotKind} {i : Nat} (h : (k, i) ≠ (kind, index))
    (v : V) : (vars.set kind index v k)[i]? = (vars k)[i]? := by
  unfold Vars.set
  split
  · next hk =>
    refine List.getElem?_set_ne fun hi => h ?_
    rw [hk, hi]
  · rfl

/-- What is left of the code, the stack with its top first, and the slots. -/
structure Config (V : Type) where
  rest : List Operation
  stack : List V
  vars : Vars V

/-! ## Steps -/

/-- The code after a `Label`. -/
def afterLabel (l : Label) : List Operation → Option (List Operation)
  | [] => none
  | op :: rest => if op = .label l then some rest else afterLabel l rest

def Operation.isJump : Operation → Bool
  | .jump _ _ => true
  | _ => false

/-- The operator of an `Opcode` on one value. -/
def Opcode.unary? : Opcode → Option UnaryOp
  | .not => some .not
  | .negate => some .neg
  | .invert => some .bitNot
  | _ => none

/-- The operator of an `Opcode` on two values. -/
def Opcode.binary? : Opcode → Option BinaryOp
  | .add => some .add
  | .sub => some .sub
  | .mul => some .mul
  | .div => some .div
  | .mod => some .mod
  | .pow => some .pow
  | .shl => some .shiftLeft
  | .shr => some .shiftRight
  | .and => some .bitAnd
  | .or => some .bitOr
  | .xor => some .bitXor
  | .lt => some .less
  | .le => some .lessEqual
  | .gt => some .greater
  | .ge => some .greaterEqual
  | .numEqual => some .equal
  | .numNotEqual => some .notEqual
  | _ => none

namespace Interpretation

variable (I : Interpretation V)

/-- What an `Opcode` without operand does to the stack. -/
def opcode (op : Opcode) (stack : List V) : Option (List V) :=
  match op, stack with
  | .dup, v :: stack => some (v :: v :: stack)
  | .drop, _ :: stack => some stack
  | .isNull, v :: stack => some (I.isNull v :: stack)
  | op, stack =>
    match op.unary?, op.binary?, stack with
    | some u, _, v :: stack => some (I.unary u v :: stack)
    | _, some b, y :: x :: stack => some (I.binary b x y :: stack)
    | _, _, _ => none

/-- What an `Operation` does to the stack and the slots if the next one follows it. -/
def operation (op : Operation) (stack : List V) (vars : Vars V) : Option (List V × Vars V) :=
  match op with
  | .label _ | .anchor => some (stack, vars)
  | .simple op => (I.opcode op stack).map fun stack => (stack, vars)
  | .pushInt n => some (I.constant (.int n) :: stack, vars)
  | .pushBool b => some (I.constant (.bool b) :: stack, vars)
  | .pushData data => some (I.constant (.bytes data) :: stack, vars)
  | .pushNull => some (I.constant .null :: stack, vars)
  | .load kind index => (vars kind)[index]?.map fun v => (v :: stack, vars)
  | .store kind index =>
    match stack with
    | [] => none
    | v :: stack =>
      if index < (vars kind).length then some (stack, vars.set kind index v) else none
  | .initSlots locals params =>
    if (vars .argument).length = params then
      some (stack, fun kind =>
        if kind = .local then List.replicate locals (I.constant .null) else vars kind)
    else none
  | _ => none

/-- Whether a jump is taken, and the stack after it. -/
def jumps (kind : JumpKind) (stack : List V) : Option (Bool × List V) :=
  match kind, stack with
  | .always, stack => some (true, stack)
  | .ifTrue, v :: stack => some (I.isTrue v, stack)
  | .ifFalse, v :: stack => some (!I.isTrue v, stack)
  | _, _ => none

/-- One step of the machine on the code of a function. -/
def step (code : List Operation) (c : Config V) : Option (Config V) :=
  match c.rest with
  | [] => none
  | .jump kind l :: rest =>
    match I.jumps kind c.stack with
    | none => none
    | some (false, stack) => some ⟨rest, stack, c.vars⟩
    | some (true, stack) => (afterLabel l code).map fun rest => ⟨rest, stack, c.vars⟩
  | op :: rest => (I.operation op c.stack c.vars).map fun (stack, vars) => ⟨rest, stack, vars⟩

/-- What `step` does at a jump, with the stack that `jumps` leaves. -/
theorem step_jump (code : List Operation) (kind : JumpKind) (l : Label) (rest : List Operation)
    (stack : List V) (vars : Vars V) :
    I.step code ⟨.jump kind l :: rest, stack, vars⟩ =
      match I.jumps kind stack with
      | none => none
      | some (false, stack) => some ⟨rest, stack, vars⟩
      | some (true, stack) => (afterLabel l code).map fun rest => ⟨rest, stack, vars⟩ :=
  rfl

/-- A jump to a label that is there is taken or not as `jumps` says. -/
theorem step_jump_of {I : Interpretation V} {code : List Operation} {kind : JumpKind}
    {stack stack' : List V} (h : I.jumps kind stack = some (taken, stack'))
    (hl : afterLabel l code = some target) (rest : List Operation) (vars : Vars V) :
    I.step code ⟨.jump kind l :: rest, stack, vars⟩ =
      some ⟨bif taken then target else rest, stack', vars⟩ := by
  rw [step_jump, h]
  cases taken with
  | false => rfl
  | true =>
    dsimp only
    rw [hl]
    rfl

/-- Other operations than jumps go on with the next one. -/
theorem step_operation (code : List Operation) (h : op.isJump = false) (rest : List Operation)
    (stack : List V) (vars : Vars V) : I.step code ⟨op :: rest, stack, vars⟩ =
      (I.operation op stack vars).map fun (stack, vars) => ⟨rest, stack, vars⟩ := by
  cases op <;> first | rfl | cases h

/-! ## Runs -/

/-- `step` leads from one state to another in so many steps. -/
inductive Steps (code : List Operation) : Nat → Config V → Config V → Prop where
  | refl (c : Config V) : Steps code 0 c c
  | head {n : Nat} {c c' c'' : Config V} :
    I.step code c = some c' → Steps code n c' c'' → Steps code (n + 1) c c''

/-- `Steps` of any number. -/
def RunsTo (code : List Operation) (c c' : Config V) : Prop :=
  ∃ n, I.Steps code n c c'

/-- The machine takes at least so many steps. -/
def RunsFor (code : List Operation) (n : Nat) (c : Config V) : Prop :=
  ∃ m c', n ≤ m ∧ I.Steps code m c c'

/-- The machine reaches the return `Operation`, with nothing but the value on the stack. -/
def Returns (code : List Operation) (c : Config V) (value : Option V) (statics : List V) : Prop :=
  ∃ rest vars, I.RunsTo code c ⟨.return :: rest, value.toList, vars⟩ ∧ vars .static = statics

variable {I} {code : List Operation}

/-- Runs follow each other. -/
theorem Steps.trans {c c' c'' : Config V} (h : I.Steps code m c c') (h' : I.Steps code n c' c'') :
    I.Steps code (m + n) c c'' := by
  induction h with
  | refl c => rwa [Nat.zero_add]
  | head hstep _ ih =>
    rw [Nat.succ_add]
    exact .head hstep (ih h')

theorem RunsTo.refl (c : Config V) : I.RunsTo code c c :=
  ⟨0, .refl c⟩

theorem RunsTo.trans {c c' c'' : Config V} (h : I.RunsTo code c c') (h' : I.RunsTo code c' c'') :
    I.RunsTo code c c'' := by
  obtain ⟨m, hm⟩ := h
  obtain ⟨n, hn⟩ := h'
  exact ⟨m + n, hm.trans hn⟩

theorem RunsTo.of_step {c c' : Config V} (h : I.step code c = some c') : I.RunsTo code c c' :=
  ⟨1, .head h (.refl c')⟩

/-- An `operation` that succeeds is a run of one step. -/
theorem RunsTo.of_operation (hjump : op.isJump = false) {stack stack' : List V}
    {vars vars' : Vars V} (h : I.operation op stack vars = some (stack', vars'))
    (rest : List Operation) : I.RunsTo code ⟨op :: rest, stack, vars⟩ ⟨rest, stack', vars'⟩ := by
  refine .of_step ?_
  rw [step_operation I code hjump, h]
  rfl

/-- A jump whose label is there is a run of one step. -/
theorem RunsTo.of_jump {kind : JumpKind} {stack stack' : List V}
    (h : I.jumps kind stack = some (taken, stack')) (hl : afterLabel l code = some target)
    (rest : List Operation) (vars : Vars V) : I.RunsTo code ⟨.jump kind l :: rest, stack, vars⟩
      ⟨bif taken then target else rest, stack', vars⟩ :=
  .of_step (step_jump_of h hl rest vars)

theorem RunsTo.of_jump_always (hl : afterLabel l code = some target) (rest : List Operation)
    (stack : List V) (vars : Vars V) :
    I.RunsTo code ⟨.jump .always l :: rest, stack, vars⟩ ⟨target, stack, vars⟩ := by
  have hjump : I.jumps .always stack = some (true, stack) := rfl
  exact .of_jump hjump hl rest vars

/-- Markers do nothing. -/
theorem RunsTo.of_marker (op : Operation) (h : op.isMarker = true) (rest : List Operation)
    (stack : List V) (vars : Vars V) :
    I.RunsTo code ⟨op :: rest, stack, vars⟩ ⟨rest, stack, vars⟩ := by
  cases op <;> first | exact .of_operation rfl rfl rest | cases h

/-- `RunsFor` holds of what leads to a state where it holds. -/
theorem RunsTo.runsFor {c c' : Config V} (h : I.RunsTo code c c') (h' : I.RunsFor code n c') :
    I.RunsFor code n c := by
  obtain ⟨k, hk⟩ := h
  obtain ⟨m, c'', hle, hm⟩ := h'
  exact ⟨k + m, c'', Nat.le_trans hle (Nat.le_add_left m k), hk.trans hm⟩

theorem RunsFor.mono {c : Config V} (h : I.RunsFor code n c) (hle : m ≤ n) :
    I.RunsFor code m c := by
  obtain ⟨k, c', hn, hk⟩ := h
  exact ⟨k, c', Nat.le_trans hle hn, hk⟩

theorem RunsFor.of_step {c c' : Config V} (h : I.step code c = some c') (h' : I.RunsFor code n c') :
    I.RunsFor code (n + 1) c := by
  obtain ⟨m, c'', hle, hm⟩ := h'
  exact ⟨m + 1, c'', Nat.succ_le_succ hle, .head h hm⟩

/-- The machine is deterministic: a run goes on from every shorter one. -/
theorem Steps.split {c c' c'' : Config V} (h : I.Steps code m c c') (h' : I.Steps code n c c'')
    (hle : m ≤ n) : I.Steps code (n - m) c' c'' := by
  induction h generalizing n with
  | refl c => exact h'
  | head hstep _ ih =>
    cases h' with
    | refl => exact absurd hle (Nat.not_succ_le_zero _)
    | head hstep' hrest =>
      cases hstep.symm.trans hstep'
      rw [Nat.add_sub_add_right]
      exact ih hrest (Nat.le_of_succ_le_succ hle)

/-- No step leads on from the return operation. -/
theorem step_return (rest : List Operation) (stack : List V) (vars : Vars V) :
    I.step code ⟨.return :: rest, stack, vars⟩ = none :=
  rfl

/-- A state without a `step` is the end of every run. -/
theorem Steps.eq_of_halted {c c' : Config V} (h : I.Steps code n c c')
    (hhalt : I.step code c = none) : n = 0 ∧ c' = c := by
  cases h with
  | refl => exact ⟨rfl, rfl⟩
  | head hstep _ =>
    rw [hhalt] at hstep
    cases hstep

/-- A run that is over is at least as long as any other from the same state. -/
theorem Steps.le_of_halted {c c' c'' : Config V} (h : I.Steps code m c c')
    (hhalt : I.step code c' = none) (h' : I.Steps code n c c'') : n ≤ m := by
  rcases Nat.le_total n m with hle | hle
  · exact hle
  · exact Nat.le_of_sub_eq_zero ((h.split h' hle).eq_of_halted hhalt).1

/-- Runs that are over end in one state. -/
theorem RunsTo.eq_of_halted {c c' c'' : Config V} (h : I.RunsTo code c c')
    (hhalt : I.step code c' = none) (h' : I.RunsTo code c c'')
    (hhalt' : I.step code c'' = none) : c' = c'' := by
  obtain ⟨m, hm⟩ := h
  obtain ⟨n, hn⟩ := h'
  have heq : m = n := Nat.le_antisymm (hn.le_of_halted hhalt' hm) (hm.le_of_halted hhalt hn)
  subst heq
  have hrest := hm.split hn (Nat.le_refl m)
  exact (hrest.eq_of_halted hhalt).2.symm

end Interpretation

end ContractScript
