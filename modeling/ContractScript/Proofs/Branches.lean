import ContractScript.Proofs.Outcomes
import ContractScript.Proofs.Tiling
import ContractScript.Script.Shorten

/-!
# Branches in one view

Jumps, calls and try operations differ in their opcode and in what they refer to: `branch?` gives
both. Seen that way, one statement about branches covers them all.
-/

namespace ContractScript

open List

/-- What one offset of a branch leads to. -/
inductive Reference where
  | label (l : Label)
  | function (id : FunctionId)
deriving Repr, DecidableEq

/-- The address that a `Reference` stands for. -/
def Targets.resolve (t : Targets) : Reference → Except Fault Nat
  | .label l => t.label l
  | .function id => t.function id

namespace Operation

/-- The long `Opcode` of a branch and what its offsets lead to; an absent handler is no reference.
-/
def branch? : Operation → Option (Opcode × List (Option Reference))
  | .jump kind l => some (kind.opcode, [some (.label l)])
  | .endTry l => some (.endTryL, [some (.label l)])
  | .call id => some (.callL, [some (.function id)])
  | .try handler finalizer => some (.tryL, [handler.map .label, finalizer.map .label])
  | _ => none

end Operation

/-- The offset from an address to what a `Reference` stands for; an absent one has none. -/
def OffsetOf (t : Targets) (address : Nat) : Option Reference → Option Int → Prop
  | none, offset => offset = none
  | some r, offset => ∃ target, t.resolve r = .ok target ∧ offset = some ((target : Int) - address)

section Offsets

variable {t : Targets} {address : Nat} {offsets : List (Option Int)} {operation : Operation}

/-- The offset to a handler that may be absent. -/
theorem handler_offset_eq_ok_iff {l : Option Label} {offset : Option Int} :
    (l.mapM fun l => do return ((← t.label l) : Int) - address : Except Fault (Option Int))
        = .ok offset ↔
      OffsetOf t address (l.map .label) offset := by
  cases l with
  | none =>
    show (Except.ok none = Except.ok offset) ↔ offset = none
    exact ⟨fun h => (Except.ok.inj h).symm, fun h => h ▸ rfl⟩
  | some l =>
    show (some <$> (t.label l >>= fun target => pure ((target : Int) - address)) = Except.ok offset)
      ↔ ∃ target, t.label l = .ok target ∧ offset = some ((target : Int) - address)
    simp only [map_eq_ok, bind_eq_ok]
    constructor
    · rintro ⟨_, ⟨target, htarget, h⟩, rfl⟩
      exact ⟨target, htarget, by rw [← Except.ok.inj h]⟩
    · rintro ⟨target, htarget, rfl⟩
      exact ⟨_, ⟨target, htarget, rfl⟩, rfl⟩

theorem single_offset_eq_ok_iff {r : Reference} :
    (t.resolve r >>= fun target => pure [some ((target : Int) - address)]) = .ok offsets ↔
      List.Forall₂ (OffsetOf t address) [some r] offsets := by
  rw [bind_eq_ok, forall₂_cons_left_iff]
  constructor
  · rintro ⟨target, htarget, h⟩
    exact ⟨_, _, ⟨target, htarget, rfl⟩, .nil, (Except.ok.inj h).symm⟩
  · rintro ⟨_, _, ⟨target, htarget, rfl⟩, hnil, rfl⟩
    cases hnil
    exact ⟨target, htarget, rfl⟩

/-- `Operation.offsets` are the distances to what a branch refers to. -/
theorem offsets_eq_ok_iff {opcode : Opcode} {refs : List (Option Reference)}
    (h : operation.branch? = some (opcode, refs)) : operation.offsets t address = .ok offsets ↔
      List.Forall₂ (OffsetOf t address) refs offsets := by
  cases operation with
  | jump kind l =>
    cases h
    exact single_offset_eq_ok_iff (r := .label l)
  | endTry l =>
    cases h
    exact single_offset_eq_ok_iff (r := .label l)
  | call id =>
    cases h
    exact single_offset_eq_ok_iff (r := .function id)
  | «try» handler finalizer =>
    cases h
    simp only [Operation.offsets, bind_eq_ok, handler_offset_eq_ok_iff,
      forall₂_cons_left_iff, forall₂_nil_left_iff]
    constructor
    · rintro ⟨first, hfirst, second, hsecond, h⟩
      exact ⟨first, _, hfirst, ⟨second, _, hsecond, rfl, rfl⟩, (Except.ok.inj h).symm⟩
    · rintro ⟨first, _, hfirst, ⟨second, _, hsecond, rfl, rfl⟩, rfl⟩
      exact ⟨first, hfirst, second, hsecond, rfl⟩
  | _ => cases h

/-- Only a branch has `Operation.offsets`. -/
theorem offsets_of_branch?_eq_none (h : operation.branch? = none) :
    operation.offsets t address = .ok [] := by
  cases operation with
  | jump | endTry | call | «try» => cases h
  | _ => rfl

end Offsets

/-! ## How operations are written -/

section Written

variable {operation : Operation} {opcode : Opcode} {refs : List (Option Reference)}

section

variable (h : operation.branch? = some (opcode, refs))
include h

/-- A branch is written as a `branchInstruction` of its offsets. -/
theorem instruction_of_branch (t : Targets) (address : Nat) (form : Form) :
    operation.instruction t address form =
      (operation.offsets t address >>= fun offsets =>
        pure (some (branchInstruction form opcode offsets))) := by
  cases operation with
  | jump | endTry | call | «try» =>
    cases h
    rfl
  | _ => cases h

/-- `Opcode.operand` has room for as many offsets as the branch has references. -/
theorem operand_of_branch (form : Form) :
    (form.opcode opcode).operand = .fixed (refs.length * form.offsetWidth) := by
  cases operation with
  | jump kind l =>
    cases h
    cases kind <;> cases form <;> rfl
  | endTry | call | «try» =>
    cases h
    cases form <;> rfl
  | _ => cases h

/-- `Operation.size` of a branch. -/
theorem size_of_branch (form : Form) :
    operation.size form = .ok (1 + refs.length * form.offsetWidth) := by
  cases operation with
  | jump | endTry | call | «try» =>
    cases h
    cases form <;> rfl
  | _ => cases h

theorem not_isMarker_of_branch : operation.isMarker = false := by
  cases operation with
  | jump | endTry | call | «try» => rfl
  | _ => cases h

end

/-- `Operation.instruction` of what is no branch is the same everywhere. -/
theorem instruction_eq_of_branch?_eq_none (h : operation.branch? = none) {t t' : Targets}
    (ht : t.tokenCount = t'.tokenCount) (address address' : Nat) (form form' : Form) :
    operation.instruction t address form = operation.instruction t' address' form' := by
  cases operation with
  | jump | endTry | call | «try» => cases h
  | callToken index =>
    rw [Operation.instruction, Operation.instruction, ht]
  | _ => rfl

/-- `Operation.size` of what is no branch does not depend on the form. -/
theorem size_eq_of_branch?_eq_none (h : operation.branch? = none) (form form' : Form) :
    operation.size form = operation.size form' := by
  cases operation with
  | jump | endTry | call | «try» => cases h
  | _ => rfl

end Written

/-! ## The layout reserves what is written -/

theorem Opcode.headerSize_pos (op : Opcode) : 0 < op.headerSize := by
  unfold Opcode.headerSize
  split <;> omega

theorem length_flatMap_leBytesSigned (n : Nat) (offsets : List (Option Int)) :
    (offsets.flatMap fun o => leBytesSigned n (o.getD 0)).length = offsets.length * n := by
  induction offsets with
  | nil => simp
  | cons o offsets ih => simp [ih, Nat.succ_mul, Nat.add_comm]

/-- A `branchInstruction` has the size that the layout reserves. -/
theorem branchInstruction_wellFormed {operation : Operation} {opcode : Opcode}
    {refs : List (Option Reference)} (h : operation.branch? = some (opcode, refs)) (form : Form)
    {offsets : List (Option Int)} (hlen : refs.length = offsets.length) :
    (branchInstruction form opcode offsets).WellFormed ∧
      operation.size form = .ok (branchInstruction form opcode offsets).size := by
  have hoperand := operand_of_branch h form
  have hbytes := length_flatMap_leBytesSigned form.offsetWidth offsets
  constructor
  · simp only [Instruction.WellFormed, branchInstruction, hoperand]
    rw [hbytes, hlen]
  · simp only [Instruction.size, branchInstruction, hoperand]
    rw [size_of_branch h, hbytes, hlen]

/-! ## How branches read back -/

theorem Opcode.longForm_eq_tryL {op : Opcode} (h : op.longForm = .tryL) :
    op = .try ∨ op = .tryL := by
  have htable : ∀ op ∈ Opcode.all, op.longForm = .tryL → op = .try ∨ op = .tryL := by
    decide +kernel
  exact htable op (Opcode.mem_all op) h

/-- The targets of an instruction, one for each offset. A try has two; there, offset zero stands for
an absent handler. -/
def Located.targetSlots (i : Located) : List (Option Int) :=
  let base : Int := i.address
  if i.opcode.longForm = .tryL then
    let half := i.operand.length / 2
    [i.operand.take half, i.operand.drop half].map fun bytes =>
      if ofLeBytesSigned bytes = 0 then none else some (base + ofLeBytesSigned bytes)
  else if i.opcode.isBranch && (i.operand.length == 1 || i.operand.length == 4) then
    [some (base + ofLeBytesSigned i.operand)]
  else []

theorem handlers_eq (base x y : Int) :
    (([x, y].filter (· != 0)).map (base + ·)) =
      ([x, y].map fun o => if o = 0 then none else some (base + o)).filterMap id := by
  by_cases hx : x = 0 <;> by_cases hy : y = 0 <;> simp [hx, hy]

/-- `Located.branchTargets` are the `Located.targetSlots` that are not absent. -/
theorem Located.branchTargets_eq (i : Located) :
    i.branchTargets = i.targetSlots.filterMap id := by
  obtain ⟨⟨op, operand⟩, address⟩ := i
  unfold Located.branchTargets Located.targetSlots
  dsimp only
  split
  · exact handlers_eq _ _ _
  · exact handlers_eq _ _ _
  · next h₁ h₂ =>
    have hno : ¬ op.longForm = .tryL := fun h => (Opcode.longForm_eq_tryL h).elim h₁ h₂
    rw [if_neg hno]
    split <;> rfl

/-- What a `Reference` of a branch at an address reads back as: its target, or nothing where a try
refers to its own address. -/
def SlotOf (t : Targets) (opcode : Opcode) (address : Nat) : Option Reference → Option Int → Prop
  | none, slot => slot = none
  | some r, slot => ∃ target : Nat, t.resolve r = .ok target ∧
      slot = if opcode = .tryL ∧ target = address then none else some (target : Int)

/-- The offsets of a branch are in the range of the bytes that they are written with. -/
def OffsetsFit (form : Form) (offsets : List (Option Int)) : Prop :=
  ∀ offset, some offset ∈ offsets → FitsSigned form.offsetWidth offset

theorem read_offset (form : Form) (offset : Option Int)
    (h : ∀ o, offset = some o → FitsSigned form.offsetWidth o) :
    ofLeBytesSigned (leBytesSigned form.offsetWidth (offset.getD 0)) = offset.getD 0 := by
  apply ofLeBytesSigned_leBytesSigned
  cases offset with
  | none =>
    have := byteRange_pos form.offsetWidth
    show -(byteRange form.offsetWidth : Int) ≤ 2 * 0 ∧ 2 * 0 < (byteRange form.offsetWidth : Int)
    omega
  | some o => exact h o rfl

/-- A handler reads back from its offset, unless the offset is zero. -/
theorem slotOf_handler {t : Targets} {address : Nat} {r : Option Reference} {offset : Option Int}
    (h : OffsetOf t address r offset) :
    SlotOf t .tryL address r
      (if offset.getD 0 = 0 then none else some ((address : Int) + offset.getD 0)) := by
  cases r with
  | none =>
    cases h
    rfl
  | some r =>
    obtain ⟨target, htarget, rfl⟩ := h
    refine ⟨target, htarget, ?_⟩
    rw [Option.getD_some]
    by_cases heq : target = address
    · rw [if_pos (by omega), if_pos ⟨rfl, heq⟩]
    · rw [if_neg (by omega), if_neg (fun h => heq h.2)]
      congr 1
      omega

section Read

variable {t : Targets} {address : Nat} {form : Form} {operation : Operation}
  {opcode : Opcode} {refs : List (Option Reference)} {offsets : List (Option Int)}

/-- `Opcode.longForm` undoes the form of a branch. -/
theorem longForm_of_branch (hb : operation.branch? = some (opcode, refs)) (form : Form) :
    (form.opcode opcode).longForm = opcode ∧ (form.opcode opcode).isBranch = true := by
  cases operation with
  | jump kind l =>
    cases hb
    cases kind <;> cases form <;> decide
  | endTry | call | «try» =>
    cases hb
    cases form <;> decide
  | _ => cases hb

/-- `Located.targetSlots` of a branch with one offset. -/
theorem targetSlots_single {r : Reference}
    (hb : operation.branch? = some (opcode, [some r])) (hop : opcode ≠ .tryL)
    (hoffsets : List.Forall₂ (OffsetOf t address) [some r] offsets)
    (hfit : OffsetsFit form offsets) :
    List.Forall₂ (SlotOf t opcode address) [some r]
      (⟨branchInstruction form opcode offsets, address⟩ : Located).targetSlots := by
  obtain ⟨hlong, hbranch⟩ := longForm_of_branch hb form
  obtain ⟨offset, rest, ⟨target, htarget, rfl⟩, hnil, rfl⟩ := forall₂_cons_left_iff.mp hoffsets
  cases hnil
  have hread := ofLeBytesSigned_leBytesSigned (hfit _ (mem_singleton.mpr rfl))
  have hwidth : form.offsetWidth = 1 ∨ form.offsetWidth = 4 := by cases form <;> decide
  have hslots :
      (⟨branchInstruction form opcode [some ((target : Int) - address)], address⟩ :
        Located).targetSlots = [some (target : Int)] := by
    simp only [Located.targetSlots, branchInstruction, hlong, if_neg hop, hbranch, Bool.true_and,
      flatMap_cons, flatMap_nil, append_nil, Option.getD_some,
      length_leBytesSigned, hread]
    rw [if_pos (by simpa using hwidth)]
    congr 2
    omega
  rw [hslots]
  exact .cons ⟨target, htarget, (if_neg fun h => hop h.1).symm⟩ .nil

/-- Only a try has more than one offset, or an offset that may be absent. -/
theorem refs_of_branch (hb : operation.branch? = some (opcode, refs)) :
    (opcode ≠ .tryL ∧ ∃ r, refs = [some r]) ∨
      (opcode = .tryL ∧ ∃ first second, refs = [first, second]) := by
  cases operation with
  | jump kind l =>
    cases hb
    exact .inl ⟨by cases kind <;> decide, _, rfl⟩
  | endTry | call =>
    cases hb
    exact .inl ⟨by decide, _, rfl⟩
  | «try» handler finalizer =>
    cases hb
    exact .inr ⟨rfl, _, _, rfl⟩
  | _ => cases hb

/-- `Located.targetSlots` of a branch are what it refers to. -/
theorem targetSlots_of_branch (hb : operation.branch? = some (opcode, refs))
    (hoffsets : List.Forall₂ (OffsetOf t address) refs offsets) (hfit : OffsetsFit form offsets) :
    List.Forall₂ (SlotOf t opcode address) refs
      (⟨branchInstruction form opcode offsets, address⟩ : Located).targetSlots := by
  rcases refs_of_branch hb with ⟨hop, r, rfl⟩ | ⟨rfl, ref₁, ref₂, rfl⟩
  · exact targetSlots_single hb hop hoffsets hfit
  · have hlong := (longForm_of_branch hb form).1
    obtain ⟨first, rest, hfirst, hrest, rfl⟩ := forall₂_cons_left_iff.mp hoffsets
    obtain ⟨second, rest, hsecond, hnil, rfl⟩ := forall₂_cons_left_iff.mp hrest
    cases hnil
    have hread₁ := read_offset form first
      fun o ho => hfit o (ho ▸ mem_cons_self)
    have hread₂ := read_offset form second
      fun o ho => hfit o (ho ▸ mem_cons_of_mem _ mem_cons_self)
    -- each offset takes one half of the operand
    have hslots :
        (⟨branchInstruction form .tryL [first, second], address⟩ : Located).targetSlots =
          [if first.getD 0 = 0 then none else some ((address : Int) + first.getD 0),
            if second.getD 0 = 0 then none else some ((address : Int) + second.getD 0)] := by
      have hhalf : (form.offsetWidth + form.offsetWidth) / 2 = form.offsetWidth := by omega
      simp only [Located.targetSlots, branchInstruction, hlong, if_true, flatMap_cons,
        flatMap_nil, append_nil, length_append, length_leBytesSigned, hhalf]
      rw [take_append_of_le_length (by simp), drop_append_of_le_length (by simp)]
      simp only [take_of_length_le, drop_of_length_le, length_leBytesSigned,
        Nat.le_refl, nil_append, map_cons, map_nil, hread₁, hread₂]
    rw [hslots]
    exact .cons (slotOf_handler hfirst) (.cons (slotOf_handler hsecond) .nil)

end Read

/-- If no handler of a try is the try itself, the targets read back are all that a branch refers to.
-/
theorem targets_of_slots {t : Targets} {opcode : Opcode} {address : Nat} :
    ∀ {refs : List (Option Reference)} {slots : List (Option Int)},
      List.Forall₂ (SlotOf t opcode address) refs slots →
      (opcode = .tryL → ∀ r, some r ∈ refs → t.resolve r ≠ .ok address) →
      List.Forall₂
        (fun r (target : Int) => ∃ address : Nat, t.resolve r = .ok address ∧ target = address)
        (refs.filterMap id) (slots.filterMap id)
  | _, _, .nil, _ => .nil
  | none :: refs, none :: slots, .cons _ hrest, hown => by
    show List.Forall₂ _ (refs.filterMap id) (slots.filterMap id)
    exact targets_of_slots hrest fun hop r hr => hown hop r (mem_cons_of_mem _ hr)
  | some r :: refs, _, .cons hslot hrest, hown => by
    obtain ⟨target, htarget, rfl⟩ := hslot
    have hne : ¬ (opcode = .tryL ∧ target = address) := by
      rintro ⟨hop, rfl⟩
      exact hown hop r mem_cons_self htarget
    rw [if_neg hne]
    exact .cons ⟨target, htarget, rfl⟩
      (targets_of_slots hrest fun hop r hr => hown hop r (mem_cons_of_mem _ hr))

/-- The targets of an instruction are the addresses of what is referred to, in order. -/
def Located.LeadsTo (i : Located) (t : Targets) (refs : List Reference) : Prop :=
  List.Forall₂
    (fun r (target : Int) => ∃ address : Nat, t.resolve r = .ok address ∧ target = address)
    refs i.branchTargets

section Written

variable {t : Targets} {address : Nat} {form : Form} {operation : Operation} {i : Instruction}
  {opcode : Opcode} {refs : List (Option Reference)}

/-- `Operation.instruction` of a branch holds the distances to what it refers to. -/
theorem eq_branchInstruction
    (hb : operation.branch? = some (opcode, refs))
    (h : operation.instruction t address form = .ok (some i)) :
    ∃ offsets, List.Forall₂ (OffsetOf t address) refs offsets ∧
      i = branchInstruction form opcode offsets := by
  rw [instruction_of_branch hb, bind_eq_ok] at h
  obtain ⟨offsets, hoffsets, h⟩ := h
  cases h
  exact ⟨offsets, (offsets_eq_ok_iff hb).mp hoffsets, rfl⟩

/-- A branch is carried by its own instruction, if its offsets fit. -/
theorem leadsTo_of_branch
    (hb : operation.branch? = some (opcode, refs))
    (h : operation.instruction t address form = .ok (some i))
    (hfit : ∀ offsets, operation.offsets t address = .ok offsets → OffsetsFit form offsets)
    (hown : opcode = .tryL → ∀ r, some r ∈ refs → t.resolve r ≠ .ok address) :
    i.opcode.longForm = opcode ∧
      (⟨i, address⟩ : Located).LeadsTo t (refs.filterMap id) := by
  obtain ⟨offsets, hoffsets, rfl⟩ := eq_branchInstruction hb h
  refine ⟨(longForm_of_branch hb form).1, ?_⟩
  rw [Located.LeadsTo, Located.branchTargets_eq]
  exact targets_of_slots
    (targetSlots_of_branch hb hoffsets (hfit offsets ((offsets_eq_ok_iff hb).mpr hoffsets))) hown

end Written

end ContractScript
