import ContractScript.Proofs.Branches

/-!
# What instructions carry

The instruction of an operation says all that the operation says (`Operation.CarriedBy`): its
opcode, the value that it pushes, the slot that it reads or writes, what it branches to. The views
below are taken from the instruction alone, without a look at how it was written.
-/

namespace ContractScript

/-! ## Integers -/

/-- The opcodes that push a small integer have no operand. -/
theorem Opcode.operand_of_code (op : Opcode) (h : 16 ≤ op.code ∧ op.code ≤ 32) :
    op.operand = .fixed 0 := by
  have htable : ∀ op ∈ Opcode.all, 16 ≤ op.code ∧ op.code ≤ 32 → op.operand = .fixed 0 := by
    decide +kernel
  exact htable op (Opcode.mem_all op) h

/-- Those opcodes push their distance from the first. -/
theorem Located.pushedInt?_of_code {i : Located}
    (h : 16 ≤ i.opcode.code ∧ i.opcode.code ≤ 32) :
    i.pushedInt? = some ((i.opcode.code - 16 : Nat) : Int) := by
  unfold Located.pushedInt?
  split
  iterate 7
    · next heq =>
      rw [heq] at h
      exact absurd h (by decide)
  · rw [Opcode.toNat_byte]
    exact if_pos h

/-- `pushIntOpcode` chooses an opcode that pushes the integer. -/
theorem pushIntOpcode_spec {value : Int} {op : Opcode} (h : pushIntOpcode value = .ok op)
    (address : Nat) :
    op.operand = .fixed (op.headerSize - 1) ∧
      (⟨⟨op, leBytesSigned (op.headerSize - 1) value⟩, address⟩ : Located).pushedInt? =
        some value := by
  unfold pushIntOpcode at h
  split at h
  · next small hsmall =>
    cases h
    unfold Opcode.pushSmall? at hsmall
    split at hsmall
    · next hneg =>
      cases hsmall
      subst hneg
      exact ⟨rfl, rfl⟩
    · split at hsmall
      · next hrange =>
        -- the opcodes that push 0 up to 16 are numbered in that order
        have hbyte := congrArg UInt8.toNat (Opcode.byte_of_ofByte? hsmall)
        rw [Opcode.toNat_byte, UInt8.toNat_add, UInt8.toNat_ofNat'] at hbyte
        have hbase : Opcode.push0.byte.toNat = 16 := rfl
        have hcode : op.code = 16 + value.toNat := by omega
        have hoperand := op.operand_of_code (by omega)
        refine ⟨?_, ?_⟩
        · rw [Opcode.headerSize, hoperand]
          rfl
        · rw [Located.pushedInt?_of_code (by show _ ≤ op.code ∧ op.code ≤ _; omega)]
          show some ((op.code - 16 : Nat) : Int) = some value
          rw [hcode]
          congr 1
          omega
      · cases hsmall
  · dsimp only at h
    split at h
    · next row hrow =>
      -- the first width in the table that is wide enough
      cases h
      have hmem := List.mem_of_find?_eq_some hrow
      have hwidth : signedWidth value ≤ row.1 := by simpa using List.find?_some hrow
      simp only [intWidths, List.mem_cons, List.not_mem_nil, or_false] at hmem
      rcases hmem with rfl | rfl | rfl | rfl | rfl | rfl <;>
      exact ⟨rfl, congrArg some
        (ofLeBytesSigned_leBytesSigned ((signedWidth_le_iff (by decide) value).mp hwidth))⟩
    · cases h

/-! ## Data -/

/-- `pushDataOpcode` chooses an opcode whose count holds the length. -/
theorem pushDataOpcode_spec {length : Nat} {op : Opcode} (h : pushDataOpcode length = .ok op) :
    ∃ n, op.operand = .counted n ∧ length < byteRange n ∧
      (op = .pushData1 ∨ op = .pushData2 ∨ op = .pushData4) := by
  unfold pushDataOpcode at h
  split at h
  · cases h
    exact ⟨1, rfl, by show length < 256; omega, .inl rfl⟩
  · split at h
    · cases h
      exact ⟨2, rfl, by show length < 65536; omega, .inr (.inl rfl)⟩
    · split at h
      · cases h
        exact ⟨4, rfl, by show length < 4294967296; omega, .inr (.inr rfl)⟩
      · cases h

/-! ## Slots -/

/-- The slot that an instruction reads or writes: its kind, whether it is read, and its index. The
opcodes stand in six rows of eight: seven for the first slots, and one whose operand is the
index. -/
def Located.slotAccess? (i : Located) : Option (SlotKind × Bool × Nat) :=
  let code := i.opcode.code
  if 0x58 ≤ code ∧ code < 0x88 then
    let row := (code - 0x58) / 8
    let place := (code - 0x58) % 8
    let kind := if row < 2 then .static else if row < 4 then .local else .argument
    some (kind, row % 2 == 0, if place < 7 then place else ofLeBytes i.operand)
  else none

/-- The opcodes of `slotOpcodes` but for the last of each row have no operand. -/
theorem Opcode.operand_of_compact (op : Opcode)
    (h : 0x58 ≤ op.code ∧ op.code < 0x88 ∧ (op.code - 0x58) % 8 < 7) : op.operand = .fixed 0 := by
  have htable : ∀ op ∈ Opcode.all,
      0x58 ≤ op.code ∧ op.code < 0x88 ∧ (op.code - 0x58) % 8 < 7 → op.operand = .fixed 0 := by
    decide +kernel
  exact htable op (Opcode.mem_all op) h

/-- The row of an access: the number of the first opcode of the row. -/
theorem slotOpcodes_code (kind : SlotKind) (isLoad : Bool) :
    ∃ row < 6, (slotOpcodes kind isLoad).1.code = 0x58 + 8 * row ∧
      (slotOpcodes kind isLoad).2.code = 0x58 + 8 * row + 7 ∧
      (slotOpcodes kind isLoad).2.operand = .fixed 1 ∧
      (if row < 2 then SlotKind.static else if row < 4 then .local else .argument) = kind ∧
      (row % 2 == 0) = isLoad := by
  cases kind <;> cases isLoad
  · exact ⟨5, by decide⟩
  · exact ⟨4, by decide⟩
  · exact ⟨3, by decide⟩
  · exact ⟨2, by decide⟩
  · exact ⟨1, by decide⟩
  · exact ⟨0, by decide⟩

/-- `slotInstruction` says which slot it is, in the compact and in the explicit form. -/
theorem slotInstruction_spec {kind : SlotKind} {index : Nat} {isLoad : Bool} {i : Instruction}
    (h : slotInstruction kind index isLoad = .ok i) (address : Nat) :
    (⟨i, address⟩ : Located).slotAccess? = some (kind, isLoad, index) ∧
      i.opcode.operand = .fixed i.operand.length ∧
      i.operand.length = (if index ≤ 6 then 0 else 1) ∧ index ≤ 255 := by
  obtain ⟨row, hrow, hcompact, hexplicit, hoperand, hkind, hload⟩ := slotOpcodes_code kind isLoad
  unfold slotInstruction at h
  dsimp only at h
  split at h
  · next hindex =>
    split at h
    · next op hop =>
      cases h
      -- the opcodes of a row are numbered by the slots they name
      have hbyte := congrArg UInt8.toNat (Opcode.byte_of_ofByte? hop)
      rw [UInt8.toNat_add, UInt8.toNat_ofNat', Opcode.toNat_byte, Opcode.toNat_byte] at hbyte
      have hcode : op.code = 0x58 + 8 * row + index := by omega
      have hquot : (op.code - 0x58) / 8 = row := by omega
      have hrem : (op.code - 0x58) % 8 = index := by omega
      refine ⟨?_, op.operand_of_compact (by omega),
        (if_pos hindex).symm, by omega⟩
      simp only [Located.slotAccess?, hquot, hrem, hkind, hload]
      rw [if_pos (by omega), if_pos (by omega)]
    · cases h
  · next hindex =>
    split at h
    · next hbyte =>
      cases h
      have hquot : ((slotOpcodes kind isLoad).2.code - 0x58) / 8 = row := by omega
      have hrem : ((slotOpcodes kind isLoad).2.code - 0x58) % 8 = 7 := by omega
      refine ⟨?_, hoperand, (if_neg hindex).symm, hbyte⟩
      simp only [Located.slotAccess?, hquot, hrem, hkind, hload]
      rw [if_pos (by omega), if_neg (by omega)]
      have : ofLeBytes [UInt8.ofNat index] = index := by
        simp only [ofLeBytes, UInt8.toNat_ofNat']
        omega
      rw [this]
    · cases h

/-! ## All operations -/

/-- An instruction says what an `Operation` says; labels and functions stand for the addresses that
they have in the layout. A marker is carried by no instruction. -/
def Operation.CarriedBy (t : Targets) (i : Located) : Operation → Prop
  | .simple op => i.opcode = op ∧ i.operand = []
  | .pushInt value => i.pushedInt? = some value
  | .pushData data => i.pushedData? = some data
  | .pushBool value => i.opcode = if value then .pushT else .pushF
  | .pushNull => i.opcode = .pushNull
  | .convert ty => i.opcode = .convert ∧ i.operand = [ty.byte]
  | .isType ty => i.opcode = .isType ∧ i.operand = [ty.byte]
  | .load kind index => i.slotAccess? = some (kind, true, index)
  | .store kind index => i.slotAccess? = some (kind, false, index)
  | .jump kind l => i.opcode.longForm = kind.opcode ∧ i.LeadsTo t [.label l]
  | .endTry l => i.opcode.longForm = .endTryL ∧ i.LeadsTo t [.label l]
  | .try handler finalizer =>
    i.opcode.longForm = .tryL ∧
      i.LeadsTo t ((handler.toList ++ finalizer.toList).map .label)
  | .call id => i.opcode.longForm = .callL ∧ i.LeadsTo t [.function id]
  | .callToken index => i.opcode = .callT ∧ i.operandNat? = some index
  | .service s => i.opcode = .syscall ∧ i.operandNat? = some s.id
  | .initSlots locals params =>
    i.opcode = .initSlot ∧ i.operand.map UInt8.toNat = [locals, params]
  | .initStatics count => i.opcode = .initSSlot ∧ i.operandNat? = some count
  | .return => i.opcode = .ret
  | .label _ | .anchor => False

/-- A marker is written as nothing. -/
theorem instruction_of_isMarker {operation : Operation} (h : operation.isMarker = true)
    (t : Targets) (address : Nat) (form : Form) :
    operation.instruction t address form = .ok none ∧ operation.size form = .ok 0 := by
  cases operation with
  | label | anchor => exact ⟨rfl, rfl⟩
  | _ => cases h

section Written

variable {t : Targets} {address : Nat} {form : Form} {operation : Operation} {i : Instruction}

/-- The `Instruction`s of operations that are neither markers nor branches. -/
inductive Operation.Coded (t : Targets) : Operation → Instruction → Prop where
  | simple {op : Opcode} : op.isSimple = true → Coded t (.simple op) ⟨op, []⟩
  | pushInt {value : Int} {op : Opcode} : pushIntOpcode value = .ok op →
    Coded t (.pushInt value) ⟨op, leBytesSigned (op.headerSize - 1) value⟩
  | pushData {data : List UInt8} {op : Opcode} : pushDataOpcode data.length = .ok op →
    Coded t (.pushData data) ⟨op, data⟩
  | pushBool (value : Bool) : Coded t (.pushBool value) ⟨if value then .pushT else .pushF, []⟩
  | pushNull : Coded t .pushNull ⟨.pushNull, []⟩
  | convert (ty : ItemType) : Coded t (.convert ty) ⟨.convert, [ty.byte]⟩
  | isType (ty : ItemType) : Coded t (.isType ty) ⟨.isType, [ty.byte]⟩
  | load {kind : SlotKind} {index : Nat} {i : Instruction} :
    slotInstruction kind index true = .ok i → Coded t (.load kind index) i
  | store {kind : SlotKind} {index : Nat} {i : Instruction} :
    slotInstruction kind index false = .ok i → Coded t (.store kind index) i
  | callToken {index : Nat} : index < t.tokenCount →
    Coded t (.callToken index) ⟨.callT, leBytes 2 index⟩
  | service (s : Service) : Coded t (.service s) ⟨.syscall, leBytes 4 s.id⟩
  | initSlots {locals params : Nat} {b b' : UInt8} : slotCount "local count" locals = .ok b →
    slotCount "parameter count" params = .ok b' →
    Coded t (.initSlots locals params) ⟨.initSlot, [b, b']⟩
  | initStatics {count : Nat} {b : UInt8} : slotCount "static count" count = .ok b →
    Coded t (.initStatics count) ⟨.initSSlot, [b]⟩
  | return : Coded t .return ⟨.ret, []⟩

/-- `Operation.instruction` writes what `Coded` says, or nothing for a marker. -/
theorem coded_of_instruction {found : Option Instruction} (hb : operation.branch? = none)
    (h : operation.instruction t address form = .ok found) :
    found.elim (operation.isMarker = true) (operation.Coded t) := by
  cases operation with
  | label | anchor =>
    cases h
    rfl
  | jump | endTry | call | «try» => cases hb
  | simple op =>
    rw [Operation.instruction] at h
    split at h
    · next hsimple =>
      cases h
      exact .simple hsimple
    · cases h
  | pushInt value =>
    obtain ⟨op, hop, h⟩ := bind_eq_ok.mp h
    cases h
    exact .pushInt hop
  | pushData data =>
    obtain ⟨op, hop, h⟩ := bind_eq_ok.mp h
    cases h
    exact .pushData hop
  | load kind index =>
    obtain ⟨i, hi, rfl⟩ := map_eq_ok.mp h
    exact .load hi
  | store kind index =>
    obtain ⟨i, hi, rfl⟩ := map_eq_ok.mp h
    exact .store hi
  | callToken index =>
    rw [Operation.instruction] at h
    split at h
    · next hindex =>
      cases h
      exact .callToken hindex
    · cases h
  | initSlots locals params =>
    obtain ⟨b, hlocals, h⟩ := bind_eq_ok.mp h
    obtain ⟨b', hparams, h⟩ := bind_eq_ok.mp h
    cases h
    exact .initSlots hlocals hparams
  | initStatics count =>
    obtain ⟨b, hcount, h⟩ := bind_eq_ok.mp h
    cases h
    exact .initStatics hcount
  | _ =>
    cases h
    constructor

/-- Only a marker is written as nothing. -/
theorem isMarker_of_instruction (h : operation.instruction t address form = .ok none) :
    operation.isMarker = true := by
  cases hb : operation.branch? with
  | some b =>
    rw [instruction_of_branch hb, bind_eq_ok] at h
    obtain ⟨_, _, h⟩ := h
    cases h
  | none => exact coded_of_instruction hb h

/-- What has an instruction is no marker. -/
theorem not_isMarker_of_instruction (h : operation.instruction t address form = .ok (some i)) :
    operation.isMarker = false := by
  cases hm : operation.isMarker with
  | false => rfl
  | true =>
    rw [(instruction_of_isMarker hm t address form).1] at h
    cases h

/-- `Operation.size` reserves as many bytes as `Operation.instruction` writes. -/
theorem instruction_reserved (h : operation.instruction t address form = .ok (some i)) :
    i.WellFormed ∧ operation.size form = .ok i.size := by
  cases hb : operation.branch? with
  | some b =>
    obtain ⟨offsets, hoffsets, rfl⟩ := eq_branchInstruction hb h
    exact branchInstruction_wellFormed hb form hoffsets.length_eq
  | none =>
    have hcoded : operation.Coded t i := coded_of_instruction hb h
    cases hcoded with
    | @simple op hsimple =>
      have hop : op.operand = .fixed 0 := by simpa [Opcode.isSimple] using hsimple
      simp [Instruction.WellFormed, Instruction.size, Operation.size, hop]
    | @pushInt _ op hop =>
      have hoperand := (pushIntOpcode_spec hop address).1
      have hpos := op.headerSize_pos
      simp only [Instruction.WellFormed, Instruction.size, Operation.size, hop, hoperand,
        length_leBytesSigned, true_and]
      congr 1
      omega
    | pushData hop =>
      obtain ⟨n, hoperand, hlt, -⟩ := pushDataOpcode_spec hop
      simp only [Instruction.WellFormed, Instruction.size, Operation.size, hop, hoperand,
        Opcode.headerSize]
      exact ⟨hlt, trivial⟩
    | load hi | store hi =>
      obtain ⟨-, hoperand, hlen, hindex⟩ := slotInstruction_spec hi address
      simp only [Instruction.WellFormed, Instruction.size, Operation.size, hoperand, hlen,
        if_pos hindex, true_and]
      split <;> rfl
    | pushBool value => cases value <;> exact ⟨rfl, rfl⟩
    | _ => exact ⟨rfl, rfl⟩

end Written

/-- No handler of a try is placed at the address of the try itself. -/
def Operation.NotOwnHandler (t : Targets) (address : Nat) : Operation → Prop
  | .try handler finalizer =>
    ∀ l ∈ handler.toList ++ finalizer.toList, t.label l ≠ .ok address
  | _ => True

instance (t : Targets) (address : Nat) (operation : Operation) :
    Decidable (operation.NotOwnHandler t address) := by
  unfold Operation.NotOwnHandler
  split <;> infer_instance

section Carried

variable {t : Targets} {address : Nat} {form : Form} {operation : Operation} {i : Instruction}

theorem slotCount_spec {what : String} {count : Nat} {b : UInt8}
    (h : slotCount what count = .ok b) : b.toNat = count := by
  unfold slotCount at h
  split at h
  · cases h
    rw [UInt8.toNat_ofNat']
    omega
  · cases h

/-- The id of a service fits its four bytes. -/
theorem Service.id_lt (s : Service) : s.id < byteRange 4 :=
  Nat.lt_of_lt_of_le (ofLeBytes_lt _) (byteRange_le_byteRange (List.length_take_le 4 _))

/-- `operandNat?` reads a number back from its bytes. -/
theorem operandNat?_leBytes {opcode : Opcode} {n v address : Nat} (hn : 0 < n ∧ n ≤ 4)
    (hv : v < byteRange n) :
    (⟨⟨opcode, leBytes n v⟩, address⟩ : Located).operandNat? = some v := by
  have hempty : (leBytes n v).isEmpty = false := by
    rw [List.isEmpty_eq_false_iff]
    exact List.ne_nil_of_length_pos (by rw [length_leBytes]; exact hn.1)
  simp only [Located.operandNat?, hempty, length_leBytes, Bool.false_or]
  rw [if_neg (by simp; omega), ofLeBytes_leBytes_of_lt hv]

/-- An operation is `CarriedBy` its own instruction, if its offsets fit. -/
theorem carriedBy_of_instruction (ht : t.tokenCount ≤ TokenTable.capacity)
    (h : operation.instruction t address form = .ok (some i))
    (hfit : ∀ offsets, operation.offsets t address = .ok offsets → OffsetsFit form offsets)
    (hown : operation.NotOwnHandler t address) :
    operation.CarriedBy t ⟨i, address⟩ := by
  cases hb : operation.branch? with
  | some b =>
    cases operation with
    | jump kind l => exact leadsTo_of_branch rfl h hfit fun hop => by cases kind <;> cases hop
    | endTry l => exact leadsTo_of_branch rfl h hfit nofun
    | call id => exact leadsTo_of_branch rfl h hfit nofun
    | «try» handler finalizer =>
      have hrefs : [handler.map Reference.label, finalizer.map .label].filterMap id =
          (handler.toList ++ finalizer.toList).map .label := by
        cases handler <;> cases finalizer <;> rfl
      show _ ∧ Located.LeadsTo _ t ((handler.toList ++ finalizer.toList).map .label)
      rw [← hrefs]
      refine leadsTo_of_branch rfl h hfit fun _ r hr => ?_
      have hmem : r ∈ (handler.toList ++ finalizer.toList).map .label :=
        hrefs ▸ List.mem_filterMap.mpr ⟨some r, hr, rfl⟩
      obtain ⟨l, hl, rfl⟩ := List.mem_map.mp hmem
      exact hown l hl
    | _ => cases hb
  | none =>
    have hcoded : operation.Coded t i := coded_of_instruction hb h
    cases hcoded with
    | simple _ => exact ⟨rfl, rfl⟩
    | pushInt hop => exact (pushIntOpcode_spec hop address).2
    | pushData hop => obtain ⟨-, -, -, rfl | rfl | rfl⟩ := pushDataOpcode_spec hop <;> rfl
    | load hi | store hi => exact (slotInstruction_spec hi address).1
    | callToken hindex =>
      exact ⟨rfl, operandNat?_leBytes (by decide) (Nat.lt_of_lt_of_le hindex ht)⟩
    | service s => exact ⟨rfl, operandNat?_leBytes (by decide) s.id_lt⟩
    | initSlots hlocals hparams =>
      exact ⟨rfl, congrArg₂ (fun m n => [m, n]) (slotCount_spec hlocals) (slotCount_spec hparams)⟩
    | initStatics hcount => exact ⟨rfl, congrArg some (slotCount_spec hcount)⟩
    | pushBool | pushNull | «return» => rfl
    | convert | isType => exact ⟨rfl, rfl⟩

end Carried

end ContractScript
