import ContractScript.Proofs.RoundTrip

/-!
# What the check accepts

On a script that was encoded, `check` comes down to one condition on operations, which no form and
no address enters: after each label that is branched to, some operation is left that is no marker.
-/

namespace ContractScript

open List

variable {op : Op} {j target : Nat} {cell : Cell} {opcode : Opcode} {refs : List (Option Reference)}
  {l : Label} {addresses : List Nat}

/-! ## Places among instructions -/

/-- The number of operations that are no markers. -/
def codeCount (ops : List Op) : Nat :=
  ops.countP fun op => !op.operation.isMarker

theorem codeCount_cons_marker (h : op.operation.isMarker = true) (ops : List Op) :
    codeCount (op :: ops) = codeCount ops :=
  countP_cons_of_neg (by rw [h]; decide)

theorem codeCount_cons_code (h : op.operation.isMarker = false) (ops : List Op) :
    codeCount (op :: ops) = codeCount ops + 1 :=
  countP_cons_of_pos (by rw [h]; decide)

/-- The addresses of instructions and the address after them. -/
def bounds (is : List Located) (stop : Nat) : List Nat :=
  is.map (·.address) ++ [stop]

namespace Written

variable {t : Targets} {a b : Nat} {cells : List Cell} {is : List Located}

variable (h : Written t a cells is b)
include h

/-- There are as many instructions as `codeCount` counts. -/
theorem length_eq : is.length = codeCount (cells.map Cell.op) := by
  induction h with
  | nil => rfl
  | marker hm _ ih => rw [ih, map_cons, codeCount_cons_marker hm]
  | code hi _ ih =>
    rw [length_cons, ih, map_cons, codeCount_cons_code (not_isMarker_of_instruction hi)]

/-- A place has the address of the first instruction from there on, or the end. -/
theorem getElem?_bounds (hj : j ≤ cells.length) :
    (bounds is b)[codeCount ((cells.map Cell.op).take j)]? =
      some (a + totalWidth (cells.take j)) := by
  induction h generalizing j with
  | nil =>
    cases Nat.le_zero.mp hj
    rfl
  | @marker a b c cs is hm _ ih =>
    cases j with
    | zero => exact ih (Nat.zero_le _)
    | succ j =>
      rw [map_cons, take_succ_cons, codeCount_cons_marker hm,
        ih (Nat.le_of_succ_le_succ hj), take_succ_cons, totalWidth, width_of_isMarker hm,
        Nat.zero_add]
  | @code a b c i cs is hi _ ih =>
    cases j with
    | zero => rfl
    | succ j =>
      rw [map_cons, take_succ_cons, codeCount_cons_code (not_isMarker_of_instruction hi),
        take_succ_cons, totalWidth, width_of_instruction hi, ← Nat.add_assoc]
      exact ih (Nat.le_of_succ_le_succ hj)

/-- Every instruction is that of a `Cell`. -/
theorem exists_cell {i : Located} (hi : i ∈ is) :
    ∃ j cell, cells[j]? = some cell ∧ i.address = a + totalWidth (cells.take j) ∧
      cell.op.operation.instruction t i.address cell.form = .ok (some i.toInstruction) := by
  induction h with
  | nil => cases hi
  | @marker a b c cs is hm _ ih =>
    obtain ⟨j, cell, hj, haddress, hcell⟩ := ih hi
    refine ⟨j + 1, cell, hj, ?_, hcell⟩
    rw [haddress, take_succ_cons, totalWidth, width_of_isMarker hm, Nat.zero_add]
  | @code a b c i' cs is hi' _ ih =>
    rcases mem_cons.mp hi with rfl | hi
    · exact ⟨0, c, rfl, rfl, hi'⟩
    · obtain ⟨j, cell, hj, haddress, hcell⟩ := ih hi
      refine ⟨j + 1, cell, hj, ?_, hcell⟩
      rw [haddress, take_succ_cons, totalWidth, width_of_instruction hi', Nat.add_assoc]

/-- Every `Cell` that is no marker has an instruction. -/
theorem exists_located (hj : cells[j]? = some cell) (hm : cell.op.operation.isMarker = false) :
    ∃ i ∈ is, i.address = a + totalWidth (cells.take j) ∧
      cell.op.operation.instruction t i.address cell.form = .ok (some i.toInstruction) := by
  induction h generalizing j with
  | nil => cases hj
  | @marker a b c cs is hm' _ ih =>
    cases j with
    | zero =>
      cases hj
      rw [hm'] at hm
      cases hm
    | succ j =>
      obtain ⟨i, hi, haddress, hcell⟩ := ih hj
      refine ⟨i, hi, ?_, hcell⟩
      rw [haddress, take_succ_cons, totalWidth, width_of_isMarker hm', Nat.zero_add]
  | @code a b c i' cs is hi' _ ih =>
    cases j with
    | zero =>
      cases hj
      exact ⟨⟨i', a⟩, mem_cons_self, rfl, hi'⟩
    | succ j =>
      obtain ⟨i, hi, haddress, hcell⟩ := ih hj
      refine ⟨i, mem_cons_of_mem _ hi, ?_, hcell⟩
      rw [haddress, take_succ_cons, totalWidth, width_of_instruction hi', Nat.add_assoc]

end Written

variable {a b : Nat} {is : List Located}

/-- `bounds` of a row are distinct. -/
theorem Tiles.nodup_bounds (h : Tiles a is b) : (bounds is b).Nodup := by
  rw [bounds, nodup_append]
  refine ⟨?_, pairwise_singleton _ b, ?_⟩
  · rw [List.Nodup, pairwise_map]
    exact h.pairwise_address.imp fun hlt => Nat.ne_of_lt hlt
  · intro address haddress stop hstop
    obtain ⟨i, hi, rfl⟩ := mem_map.mp haddress
    cases mem_singleton.mp hstop
    exact Nat.ne_of_lt (h.address_mem i hi).2

/-- One of the `bounds` is the address of an instruction unless it is the last. -/
theorem mem_addresses_iff (h : Tiles a is b) {n : Nat} (hn : (bounds is b)[n]? = some target) :
    target ∈ is.map (·.address) ↔ n < is.length := by
  constructor
  · intro hmem
    obtain ⟨m, hm⟩ := mem_iff_getElem?.mp hmem
    have hbound := (List.getElem?_eq_some_iff.mp hm).1
    have hm' : (bounds is b)[m]? = some target := by
      rw [bounds, getElem?_append_left hbound, hm]
    have heq : m = n :=
      (getElem?_inj (by rw [bounds, length_append]; omega) h.nodup_bounds).mp
        (hm'.trans hn.symm)
    rw [← heq]
    rwa [length_map] at hbound
  · intro hlt
    rw [bounds, getElem?_append_left (by rw [length_map]; exact hlt)] at hn
    exact mem_of_getElem? hn

/-! ## One instruction -/

variable {operation : Operation} {i : Located}

/-- `Operation.targets` are the labels among the references of a branch. -/
theorem mem_targets_iff (hb : operation.branch? = some (opcode, refs)) :
    Reference.label l ∈ refs.filterMap id ↔ l ∈ operation.targets := by
  cases operation with
  | jump | endTry | call =>
    cases hb
    simp [Operation.targets]
  | «try» handler finalizer =>
    cases hb
    cases handler <;> cases finalizer <;> simp [Operation.targets]
  | _ => cases hb

/-- A branch is a call of a function, or all its references are labels. -/
theorem branch_cases (hb : operation.branch? = some (opcode, refs)) :
    (opcode = .callL ∧ operation.targets = [] ∧ ∃ id, refs = [some (.function id)]) ∨
      (opcode ≠ .callL ∧ ∀ r ∈ refs.filterMap id, ∃ l, r = .label l) := by
  cases operation with
  | call id =>
    cases hb
    exact .inl ⟨rfl, rfl, id, rfl⟩
  | jump kind l =>
    cases hb
    refine .inr ⟨by cases kind <;> decide, fun r hr => ⟨l, ?_⟩⟩
    exact mem_singleton.mp hr
  | endTry l =>
    cases hb
    refine .inr ⟨by decide, fun r hr => ⟨l, ?_⟩⟩
    exact mem_singleton.mp hr
  | «try» handler finalizer =>
    cases hb
    refine .inr ⟨by decide, fun r hr => ?_⟩
    obtain ⟨ref, href, heq⟩ := mem_filterMap.mp hr
    have href : ref ∈ [handler, finalizer].map (Option.map Reference.label) := href
    obtain ⟨handled, -, rfl⟩ := mem_map.mp href
    obtain ⟨l, -, rfl⟩ := Option.map_eq_some_iff.mp heq
    exact ⟨l, rfl⟩
  | _ => cases hb

theorem targets_of_branch?_eq_none (h : operation.branch? = none) : operation.targets = [] := by
  cases operation with
  | jump | endTry | call | «try» => cases h
  | _ => rfl

theorem Opcode.longForm_eq_callL_iff {op : Opcode} :
    op.longForm = .callL ↔ op = .call ∨ op = .callL := by
  have htable : ∀ op ∈ Opcode.all, op.longForm = .callL ↔ op = .call ∨ op = .callL := by
    decide +kernel
  exact htable op (Opcode.mem_all op)

theorem find?_eq_none_iff {targets : List Int} : targets.find? (!isAddress addresses ·) = none ↔
      ∀ target ∈ targets, isAddress addresses target = true := by
  rw [find?_eq_none]
  simp only [Bool.not_eq_true', Bool.not_eq_false]

/-- What `checkInstruction` asks of an instruction. -/
theorem checkInstruction_eq_ok_iff {name : String} {boundaries starts : List Nat} {count : Nat} :
    checkInstruction name boundaries starts count i = .ok () ↔
      (i.opcode.longForm = .callL → ∀ target ∈ i.branchTargets, isAddress starts target = true) ∧
      (i.opcode = .callT → i.operandNat?.getD 4294967295 < count) ∧
      (i.opcode.isBranch = true → i.opcode.longForm ≠ .callL →
        ∀ target ∈ i.branchTargets, isAddress boundaries target = true) := by
  simp only [← find?_eq_none_iff]
  obtain ⟨⟨op, operand⟩, address⟩ := i
  unfold checkInstruction
  dsimp only
  split
  · -- a call in its short form
    split
    · next hfound => simp [hfound, Opcode.longForm]
    · next hfound => simp [hfound, Opcode.longForm]
  · -- a call in its long form
    split
    · next hfound => simp [hfound, Opcode.longForm]
    · next hfound => simp [hfound, Opcode.longForm]
  · have hbranch : Opcode.callT.isBranch = false := rfl
    split
    · next hlt => simp [hlt, hbranch, Opcode.longForm]
    · next hlt => simp [hlt]
  · next h₁ h₂ h₃ =>
    have hcall : ¬ op.longForm = .callL := fun h => (Opcode.longForm_eq_callL_iff.mp h).elim h₁ h₂
    have htoken : ¬ op = .callT := h₃
    split
    · next hbranch =>
      split
      · next hfound => simp [hfound, hbranch, hcall]
      · next hfound => simp [hfound, hcall, htoken]
    · next hbranch => simp [hbranch, hcall, htoken]

theorem isAddress_natCast : isAddress addresses (target : Int) = true ↔ target ∈ addresses := by
  simp [isAddress]

theorem Located.code_le_of_pushedInt? {value : Int} (h : i.pushedInt? = some value) :
    i.opcode.code ≤ 32 := by
  unfold Located.pushedInt? at h
  split at h
  iterate 7
    · next heq =>
      rw [heq]
      decide
  · dsimp only at h
    split at h
    · next hrange =>
      have hle := hrange.2
      rw [Opcode.toNat_byte, Opcode.toNat_byte] at hle
      exact hle
    · cases h

theorem Located.code_of_slotAccess? {access : SlotKind × Bool × Nat}
    (h : i.slotAccess? = some access) : 0x58 ≤ i.opcode.code ∧ i.opcode.code < 0x88 := by
  unfold Located.slotAccess? at h
  dsimp only at h
  split at h
  · next hrange => exact hrange
  · cases h

/-- Branches and token calls stand apart from opcodes without operand, pushes and slots. -/
theorem Opcode.not_branch {op : Opcode}
    (h : op.isSimple = true ∨ op.code ≤ 32 ∨ 0x58 ≤ op.code ∧ op.code < 0x88) :
    op.isBranch = false ∧ op ≠ .callT := by
  have htable : ∀ op ∈ Opcode.all,
      op.isSimple = true ∨ op.code ≤ 32 ∨ 0x58 ≤ op.code ∧ op.code < 0x88 →
        op.isBranch = false ∧ op ≠ .callT := by
    decide +kernel
  exact htable op (Opcode.mem_all op) h

section Instruction

variable {t : Targets} {address : Nat} {form : Form} {operation : Operation} {i : Instruction}

/-- An operation that is no branch asks for nothing but a token, which is there. -/
theorem instruction_of_branch?_eq_none (ht : t.tokenCount ≤ TokenTable.capacity)
    (hb : operation.branch? = none) (h : operation.instruction t address form = .ok (some i)) :
    i.opcode.isBranch = false ∧
      (i.opcode = .callT →
        (⟨i, address⟩ : Located).operandNat?.getD 4294967295 < t.tokenCount) := by
  have hcarried : operation.CarriedBy t ⟨i, address⟩ := by
    refine carriedBy_of_instruction ht h (fun offsets hoffsets => ?_) ?_
    · rw [offsets_of_branch?_eq_none hb] at hoffsets
      cases hoffsets
      exact nofun
    · cases operation with
      | «try» => cases hb
      | _ => trivial
  have hplain : ∀ {op : Opcode}, i.opcode = op → op.isBranch = false ∧ op ≠ .callT →
      i.opcode.isBranch = false ∧
        (i.opcode = .callT →
          (⟨i, address⟩ : Located).operandNat?.getD 4294967295 < t.tokenCount) := by
    rintro op rfl ⟨hbranch, htoken⟩
    exact ⟨hbranch, fun heq => absurd heq htoken⟩
  have hcoded : operation.Coded t i := coded_of_instruction hb h
  cases hcoded with
  | simple hsimple => exact hplain rfl (Opcode.not_branch (.inl hsimple))
  | pushInt _ =>
    exact hplain rfl (Opcode.not_branch (.inr (.inl (Located.code_le_of_pushedInt? hcarried))))
  | @pushData _ op hop =>
    have hpush : op.isBranch = false ∧ op ≠ .callT := by
      obtain ⟨-, -, -, rfl | rfl | rfl⟩ := pushDataOpcode_spec hop <;> decide
    exact hplain rfl hpush
  | load _ | store _ =>
    exact hplain rfl (Opcode.not_branch (.inr (.inr (Located.code_of_slotAccess? hcarried))))
  | callToken hindex =>
    refine ⟨rfl, fun _ => ?_⟩
    rw [hcarried.2]
    exact hindex
  | pushBool value => cases value <;> exact hplain hcarried (by decide)
  | pushNull | «return» => exact hplain hcarried (by decide)
  | convert | isType | service | initSlots | initStatics => exact hplain hcarried.1 (by decide)

end Instruction

/-- What holds of all targets that a branch reads back as holds of all that it refers to. -/
theorem forall_targets_iff {t : Targets} {opcode : Opcode} {address : Nat} (P : Int → Prop)
    (hown : opcode = .tryL → P address) :
    ∀ {refs : List (Option Reference)} {slots : List (Option Int)},
      List.Forall₂ (SlotOf t opcode address) refs slots →
        ((∀ x ∈ slots.filterMap id, P x) ↔
          ∀ r ∈ refs.filterMap id, ∀ target : Nat, t.resolve r = .ok target → P target)
  | [], [], .nil => ⟨nofun, nofun⟩
  | none :: refs, none :: slots, .cons _ hrest => by
    show (∀ x ∈ slots.filterMap id, P x) ↔ ∀ r ∈ refs.filterMap id, _
    exact forall_targets_iff P hown hrest
  | some r :: refs, slot :: slots, .cons hslot hrest => by
    obtain ⟨target, htarget, rfl⟩ := hslot
    show _ ↔ ∀ r' ∈ r :: refs.filterMap id, _
    rw [forall_mem_cons, ← forall_targets_iff P hown hrest]
    by_cases hself : opcode = .tryL ∧ target = address
    · -- a handler that reads back as absent is the try itself
      rw [if_pos hself]
      show (∀ x ∈ slots.filterMap id, P x) ↔ _
      refine ⟨fun h => ⟨fun n hn => ?_, h⟩, fun h => h.2⟩
      cases htarget.symm.trans hn
      exact hself.2 ▸ hown hself.1
    · rw [if_neg hself]
      show (∀ x ∈ (target : Int) :: slots.filterMap id, P x) ↔ _
      rw [forall_mem_cons]
      refine and_congr_left fun _ => ⟨fun h n hn => ?_, fun h => h target htarget⟩
      cases htarget.symm.trans hn
      exact h

/-! ## One function -/

/-- After each label that is branched to, some operation is left that is no marker. -/
def Covered (ops : List Op) : Prop :=
  ∀ op ∈ ops, ∀ l ∈ op.operation.targets, ∀ j ∈ lastPlace? l ops,
    codeCount (ops.take j) < codeCount ops

instance (ops : List Op) : Decidable (Covered ops) :=
  inferInstanceAs (Decidable (∀ op ∈ ops, ∀ l ∈ op.operation.targets, ∀ j ∈ lastPlace? l ops,
    codeCount (ops.take j) < codeCount ops))

section Function

variable {tokens : TokenTable} {chunks : List Chunk} {k : Nat} {c : Chunk} {is : List Located}

/-- A label of a function leads to an instruction exactly if one is left after it. -/
theorem mem_addresses_iff_codeCount (hw : WrittenAt tokens chunks k c is)
    (hj : j ≤ c.cells.length) :
    startOf chunks k + totalWidth (c.cells.take j) ∈ is.map (·.address) ↔
      codeCount (c.ops.take j) < codeCount c.ops := by
  rw [mem_addresses_iff hw.tiles (hw.getElem?_bounds hj), hw.length_eq]
  rfl

/-- `Targets.function` is the start of the function. -/
theorem function_eq_ok_iff {t : Targets} {id : FunctionId} :
    t.function id = .ok target ↔ t.starts[id]? = some target := by
  unfold Targets.function
  split
  · next address haddress =>
    rw [haddress]
    exact ⟨fun h => congrArg some (Except.ok.inj h),
      fun h => congrArg Except.ok (Option.some.inj h)⟩
  · next hnone =>
    rw [hnone]
    exact ⟨nofun, nofun⟩

/-- A label resolves to the address of its `lastPlace?`. -/
theorem resolve_label_eq_ok_iff (tokens : TokenTable) (hsized : Sized (allCells chunks))
    (hk : chunks[k]? = some c) : (targetsOf tokens chunks k c).resolve (.label l) = .ok target ↔
      ∃ n, lastPlace? l c.ops = some n ∧ n ≤ c.cells.length ∧
        target = startOf chunks k + totalWidth (c.cells.take n) := by
  rw [resolve_eq_ok_iff tokens hsized hk]
  constructor
  · rintro ⟨place, hplace, rfl⟩
    obtain ⟨n, hn, rfl⟩ := Option.map_eq_some_iff.mp hplace
    have hlt := lastPlace?_lt hn
    rw [Chunk.ops, length_map] at hlt
    exact ⟨n, hn, Nat.le_of_lt hlt, addressAt_placeOf_add hk (Nat.le_of_lt hlt)⟩
  · rintro ⟨n, hn, hle, rfl⟩
    refine ⟨placeOf chunks k + n, ?_, (addressAt_placeOf_add hk hle).symm⟩
    rw [Reference.place?, hn]
    rfl

/-- The instruction of a branch reads back as what the branch refers to. -/
theorem slotOf_of_instruction (hfits : Fits chunks) (hreach : ShortReach chunks)
    (hk : chunks[k]? = some c) (hj : c.cells[j]? = some cell) {i : Located}
    (haddress : i.address = startOf chunks k + totalWidth (c.cells.take j))
    (hinstruction : cell.op.operation.instruction (targetsOf tokens chunks k c) i.address
      cell.form = .ok (some i.toInstruction))
    (hb : cell.op.operation.branch? = some (opcode, refs)) :
    i.opcode.longForm = opcode ∧ i.opcode.isBranch = true ∧
      List.Forall₂ (SlotOf (targetsOf tokens chunks k c) opcode i.address) refs i.targetSlots := by
  obtain ⟨offsets, hoffsets, hi⟩ := eq_branchInstruction hb hinstruction
  have hfit : OffsetsFit cell.form offsets := by
    refine offsetsFit tokens hfits hreach hk hj ?_
    rw [← haddress]
    exact (offsets_eq_ok_iff hb).mpr hoffsets
  obtain ⟨hlong, hbranch⟩ := longForm_of_branch hb cell.form
  have hslots := targetSlots_of_branch hb hoffsets hfit
  rw [← hi] at hslots
  rw [hi]
  exact ⟨hlong, hbranch, hslots⟩

/-- `checkInstruction` accepts a branch if its labels have an instruction after them. -/
theorem checkInstruction_branch (hfits : Fits chunks) (hreach : ShortReach chunks)
    (hk : chunks[k]? = some c) (hw : WrittenAt tokens chunks k c is)
    (hj : c.cells[j]? = some cell) {i : Located} (hi : i ∈ is)
    (haddress : i.address = startOf chunks k + totalWidth (c.cells.take j))
    (hinstruction : cell.op.operation.instruction (targetsOf tokens chunks k c) i.address
      cell.form = .ok (some i.toInstruction))
    (hb : cell.op.operation.branch? = some (opcode, refs)) (name : String) :
    checkInstruction name (is.map (·.address)) (layoutOf chunks).starts tokens.size i = .ok () ↔
      ∀ l ∈ cell.op.operation.targets, ∀ n, lastPlace? l c.ops = some n →
        codeCount (c.ops.take n) < codeCount c.ops := by
  obtain ⟨hlong, hbranch, hslots⟩ :=
    slotOf_of_instruction hfits hreach hk hj haddress hinstruction hb
  have htoken : ¬ i.opcode = .callT := by
    intro heq
    rw [heq] at hbranch
    cases hbranch
  rw [checkInstruction_eq_ok_iff, Located.branchTargets_eq]
  rcases branch_cases hb with ⟨rfl, htargets, id, rfl⟩ | ⟨hcall, hlabels⟩
  · -- a call always leads to the start of a function
    rw [htargets]
    refine ⟨nofun, fun _ => ⟨fun _ => ?_, fun heq => absurd heq htoken,
      fun _ hno => absurd hlong hno⟩⟩
    have hown : Opcode.callL = .tryL →
        isAddress (layoutOf chunks).starts (i.address : Int) = true := nofun
    refine (forall_targets_iff (isAddress (layoutOf chunks).starts · = true) hown hslots).mpr
      fun r hr target htarget => ?_
    cases mem_singleton.mp hr
    exact isAddress_natCast.mpr (mem_of_getElem? (function_eq_ok_iff.mp htarget))
  · -- any other branch leads to labels of its own function
    have hown : opcode = .tryL → isAddress (is.map (·.address)) (i.address : Int) = true :=
      fun _ => isAddress_natCast.mpr (mem_map_of_mem hi)
    have hno : ¬ i.opcode.longForm = .callL :=
      fun heq => hcall (hlong.symm.trans heq)
    have htargets := forall_targets_iff (isAddress (is.map (·.address)) · = true) hown hslots
    constructor
    · rintro ⟨-, -, h⟩ l hl n hn
      have hlt := lastPlace?_lt hn
      rw [Chunk.ops, length_map] at hlt
      rw [← mem_addresses_iff_codeCount hw (Nat.le_of_lt hlt), ← isAddress_natCast]
      refine htargets.mp (h hbranch hno) (.label l) ((mem_targets_iff hb).mpr hl) _ ?_
      exact (resolve_label_eq_ok_iff tokens hfits.1 hk).mpr ⟨n, hn, Nat.le_of_lt hlt, rfl⟩
    · intro h
      refine ⟨fun heq => absurd heq hno, fun heq => absurd heq htoken, fun _ _ => ?_⟩
      refine htargets.mpr fun r hr target htarget => ?_
      obtain ⟨l, rfl⟩ := hlabels r hr
      obtain ⟨n, hn, hle, rfl⟩ := (resolve_label_eq_ok_iff tokens hfits.1 hk).mp htarget
      rw [isAddress_natCast, mem_addresses_iff_codeCount hw hle]
      exact h l ((mem_targets_iff hb).mp hr) n hn

/-- The instructions of a function are accepted exactly if it is `Covered`. -/
theorem forall_checkInstruction_iff (hfits : Fits chunks) (hreach : ShortReach chunks)
    (hk : chunks[k]? = some c) (hw : WrittenAt tokens chunks k c is) (name : String) :
    (∀ i ∈ is, checkInstruction name (is.map (·.address)) (layoutOf chunks).starts tokens.size i =
      .ok ()) ↔ Covered c.ops := by
  constructor
  · intro h op hop l hl
    -- a branch is no marker, so it has an instruction
    obtain ⟨cell, hcell, rfl⟩ := mem_map.mp hop
    obtain ⟨j, hj⟩ := mem_iff_getElem?.mp hcell
    cases hb : cell.op.operation.branch? with
    | none =>
      rw [targets_of_branch?_eq_none hb] at hl
      cases hl
    | some branch =>
      obtain ⟨i, hi, haddress, hinstruction⟩ := hw.exists_located hj (not_isMarker_of_branch hb)
      exact (checkInstruction_branch hfits hreach hk hw hj hi haddress hinstruction hb name).mp
        (h i hi) l hl
  · intro h i hi
    obtain ⟨j, cell, hj, haddress, hinstruction⟩ := hw.exists_cell hi
    cases hb : cell.op.operation.branch? with
    | none =>
      obtain ⟨hno, htoken⟩ := instruction_of_branch?_eq_none tokens.size_le hb hinstruction
      refine checkInstruction_eq_ok_iff.mpr ⟨fun hcall => ?_, htoken, fun hbranch => ?_⟩
      · rcases Opcode.longForm_eq_callL_iff.mp hcall with heq | heq <;>
        · rw [heq] at hno
          cases hno
      · rw [hno] at hbranch
        cases hbranch
    | some branch =>
      refine (checkInstruction_branch hfits hreach hk hw hj hi haddress hinstruction hb name).mpr ?_
      exact h cell.op (mem_map_of_mem (mem_of_getElem? hj))

end Function

/-! ## The script -/

section Script

variable {tokens : TokenTable} {chunks : List Chunk} {script : Script}

variable (h : Encodes tokens chunks script)
include h

/-- The methods of a script start where `layoutOf` says. -/
theorem Encodes.starts_eq : script.methods.map (·.start) = (layoutOf chunks).starts := by
  refine ext_getElem? fun k => ?_
  rw [getElem?_map, h.method, Layout.starts, getElem?_map, getElem?_layoutOf h.fits.1]
  cases chunks[k]? with
  | none => rfl
  | some c => rfl

/-- The last function ends where the script ends. -/
theorem Encodes.stop_eq {m : Method} (hm : script.methods.getLast? = some m) :
    m.stop = script.bytes.length := by
  have hlen := length_eq_of_getElem? h.method
  rw [getLast?_eq_getElem?, h.method, Option.map_eq_some_iff] at hm
  obtain ⟨c, hk, rfl⟩ := hm
  have hbound := (List.getElem?_eq_some_iff.mp hk).1
  rw [h.length]
  show addressAt chunks (placeOf chunks (script.methods.length - 1)) + totalWidth c.cells = _
  rw [addressAt_placeOf, allCells_eq hk, totalWidth_append, totalWidth_append]
  have hrest : chunks.drop (script.methods.length - 1 + 1) = [] :=
    drop_eq_nil_iff.mpr (by omega)
  rw [hrest]
  rfl

/-- `checkMethod` accepts a method exactly if its function is `Covered`. -/
theorem checkMethod_eq_ok_iff (hreach : ShortReach chunks) {k : Nat} {c : Chunk}
    (hk : chunks[k]? = some c) :
    checkMethod script.bytes (layoutOf chunks).starts tokens.size (methodAt chunks k c) =
      .ok () ↔ Covered c.ops := by
  obtain ⟨is, rest, hw, hbytes⟩ := h.code k c hk
  have hread := functionInstructions_of_tiles c.name rest hw.tiles
  rw [← forall_checkInstruction_iff h.fits hreach hk hw c.name, ← forM_eq_ok_iff, checkMethod,
    bind_eq_ok]
  show (∃ read, functionInstructions c.name _ (startOf chunks k)
    (script.bytes.drop (startOf chunks k)) = .ok read ∧ _) ↔ _
  rw [hbytes]
  constructor
  · rintro ⟨read, hread', hcheck⟩
    cases hread.symm.trans hread'
    exact hcheck
  · intro hcheck
    exact ⟨is, hread, hcheck⟩

/-- `check` accepts an encoded script exactly if all of its functions are `Covered`. -/
theorem check_eq_ok_iff (hreach : ShortReach chunks) :
    check script tokens.size = .ok () ↔ ∀ c ∈ chunks, Covered c.ops := by
  have hall : script.methods.forM
      (checkMethod script.bytes (script.methods.map (·.start)) tokens.size) = .ok () ↔
        ∀ c ∈ chunks, Covered c.ops := by
    rw [forM_eq_ok_iff, h.starts_eq]
    constructor
    · intro hm c hc
      obtain ⟨k, hk⟩ := mem_iff_getElem?.mp hc
      refine (checkMethod_eq_ok_iff h hreach hk).mp (hm _ (mem_of_getElem? (i := k) ?_))
      rw [h.method, hk]
      rfl
    · intro hc m hm
      obtain ⟨k, hk⟩ := mem_iff_getElem?.mp hm
      rw [h.method, Option.map_eq_some_iff] at hk
      obtain ⟨c, hk, rfl⟩ := hk
      exact (checkMethod_eq_ok_iff h hreach hk).mpr (hc c (mem_of_getElem? hk))
  rw [check, bind_eq_ok, ← hall]
  constructor
  · rintro ⟨_, hmethods, -⟩
    exact hmethods
  · intro hmethods
    -- what is left to check is that no byte follows the last method
    refine ⟨(), hmethods, ?_⟩
    split
    · next last hlast => rw [if_pos (h.stop_eq hlast)]
    · rfl

end Script

end ContractScript
