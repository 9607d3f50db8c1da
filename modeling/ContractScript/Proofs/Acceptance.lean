import Mathlib
import ContractScript.Proofs.Checked

/-!
# What the check decides

`check` reads a script that it knows nothing about. Given methods that stand one after another, it
accepts exactly the scripts whose bytes are whole instructions that refer to what is there.
-/

namespace ContractScript

open List

variable {n address a b tokenCount : Nat} {bs rest script : List UInt8} {is : List Located}
  {name : String} {addresses starts : List Nat} {target : Int}

/-! ## Reading instructions -/

namespace Instruction

/-- `takeExactly` splits off a front of the asked length. -/
theorem takeExactly_eq_some_iff {front : List UInt8} :
    takeExactly n bs = some (front, rest) ↔ bs = front ++ rest ∧ front.length = n := by
  constructor
  · exact takeExactly_eq_some
  · rintro ⟨rfl, hlength⟩
    exact takeExactly_append rest hlength

theorem WellFormed.length_eq {i : Instruction} (h : i.WellFormed)
    (hlayout : i.opcode.operand = .fixed n) : i.operand.length = n := by
  rw [WellFormed, hlayout] at h
  exact h

/-- `Instruction.read` gives an instruction exactly if the bytes begin with it. -/
theorem read_eq_ok_iff {i : Instruction} :
    read address bs = .ok (i, rest) ↔ i.WellFormed ∧ bs = i.bytes ++ rest := by
  constructor
  · intro h
    unfold read at h
    split at h
    · cases h
    · next b bs =>
      split at h
      · cases h
      · next op hop =>
        split at h
        · cases h
        · next operand rest' hread =>
          cases h
          rw [← Opcode.byte_of_ofByte? hop]
          unfold readOperand at hread
          split at hread
          · next n hlayout =>
            obtain ⟨hbs, hlength⟩ := takeExactly_eq_some_iff.mp hread
            simp only [WellFormed, bytes, hlayout]
            exact ⟨hlength, by rw [hbs, cons_append]⟩
          · next n hlayout =>
            -- the bytes before the data are its length, and no other bytes could be
            obtain ⟨⟨count, mid⟩, hcount, hdata⟩ := Option.bind_eq_some_iff.mp hread
            obtain ⟨rfl, rfl⟩ := takeExactly_eq_some_iff.mp hcount
            obtain ⟨rfl, hlength⟩ := takeExactly_eq_some_iff.mp hdata
            simp only [WellFormed, bytes, hlayout, hlength]
            exact ⟨ofLeBytes_lt count,
              by rw [leBytes_ofLeBytes, cons_append, append_assoc]⟩
  · rintro ⟨hwf, rfl⟩
    exact read_bytes hwf address rest

end Instruction

/-- `decodeAt` gives the instruction that stands at the address. -/
theorem decodeAt_eq_ok_iff {i : Located} : decodeAt script address = .ok i ↔
      i.address = address ∧ i.toInstruction.WellFormed ∧
        i.toInstruction.bytes <+: script.drop address := by
  obtain ⟨instruction, place⟩ := i
  unfold decodeAt
  constructor
  · intro h
    split at h
    · cases h
    · next hread =>
      cases h
      obtain ⟨hwf, hbytes⟩ := Instruction.read_eq_ok_iff.mp hread
      exact ⟨rfl, hwf, _, hbytes.symm⟩
  · rintro ⟨rfl, hwf, rest, hbytes⟩
    rw [← hbytes, Instruction.read_bytes hwf]

/-! ## Rows of instructions in a script -/

/-- The bytes of a script from `a` up to `b` are these instructions, one after another. -/
inductive Splits (script : List UInt8) : Nat → List Located → Nat → Prop where
  | nil {a : Nat} : Splits script a [] a
  | cons {a b : Nat} {i : Located} {is : List Located} : decodeAt script a = .ok i →
    Splits script i.next is b → Splits script a (i :: is) b

/-- `Splits` says that the row of the instructions stands there. -/
theorem splits_iff : Splits script a is b ↔ Tiles a is b ∧ codeBytes is <+: script.drop a := by
  constructor
  · intro h
    induction h with
    | nil => exact ⟨rfl, nil_prefix⟩
    | @cons a b i is hdecode _ ih =>
      obtain ⟨rfl, hwf, rest, hrest⟩ := decodeAt_eq_ok_iff.mp hdecode
      obtain ⟨htiles, hprefix⟩ := ih
      have hdrop : script.drop i.next = rest := by
        rw [Located.next, ← drop_drop, ← hrest, ← Instruction.length_bytes, drop_left]
      refine ⟨⟨rfl, hwf, htiles⟩, ?_⟩
      rw [codeBytes_cons, ← hrest]
      rw [hdrop] at hprefix
      exact (prefix_append_right_inj _).mpr hprefix
  · induction is generalizing a with
    | nil =>
      rintro ⟨rfl, -⟩
      exact .nil
    | cons i is ih =>
      rintro ⟨⟨rfl, hwf, htiles⟩, rest, hrest⟩
      rw [codeBytes_cons, append_assoc] at hrest
      refine .cons (decodeAt_eq_ok_iff.mpr ⟨rfl, hwf, _, hrest⟩) (ih ⟨htiles, rest, ?_⟩)
      rw [Located.next, ← drop_drop, ← hrest, ← Instruction.length_bytes, drop_left]

theorem Splits.append {c : Nat} {js : List Located} (h : Splits script a is b)
    (h' : Splits script b js c) : Splits script a (is ++ js) c := by
  induction h with
  | nil => exact h'
  | cons hdecode _ ih => exact .cons hdecode (ih h')

/-- `functionInstructions` finds a row of instructions, or fails. -/
theorem tiles_of_functionInstructions (hab : a ≤ b)
    (h : functionInstructions name b a bs = .ok is) : Tiles a is b ∧ codeBytes is <+: bs := by
  induction is generalizing a bs with
  | nil =>
    rw [functionInstructions] at h
    split at h
    · split at h
      · cases h
      · split at h
        · cases h
        · split at h <;> cases h
    · next hlt => exact ⟨Nat.le_antisymm hab (Nat.not_lt.mp hlt), nil_prefix⟩
  | cons i is ih =>
    rw [functionInstructions] at h
    split at h
    · split at h
      · cases h
      · next instruction rest hread =>
        split at h
        · cases h
        · next hcross =>
          split at h
          · cases h
          · next is' hrest =>
            cases h
            obtain ⟨hwf, rfl⟩ := Instruction.read_eq_ok_iff.mp hread
            obtain ⟨htiles, hprefix⟩ := ih (Nat.not_lt.mp hcross) hrest
            refine ⟨⟨rfl, hwf, htiles⟩, ?_⟩
            rw [codeBytes_cons]
            exact (prefix_append_right_inj _).mpr hprefix
    · cases h

/-- `functionInstructions` gives what a part of the script `Splits` into. -/
theorem functionInstructions_eq_ok_iff (hab : a ≤ b) :
    functionInstructions name b a (script.drop a) = .ok is ↔ Splits script a is b := by
  rw [splits_iff]
  constructor
  · exact tiles_of_functionInstructions hab
  · rintro ⟨htiles, rest, hrest⟩
    rw [← hrest]
    exact functionInstructions_of_tiles name rest htiles

/-- `decode` gives the instructions that the whole script `Splits` into. -/
theorem Splits.decode {script : List UInt8} {is : List Located}
    (h : Splits script 0 is script.length) : decode script = .ok is := by
  obtain ⟨htiles, rest, hrest⟩ := splits_iff.mp h
  have hlength := htiles.add_length
  have hnil : rest = [] := by
    have := congrArg List.length hrest
    simp only [length_append, drop_zero] at this
    exact length_eq_zero_iff.mp (by omega)
  subst hnil
  rw [append_nil, drop_zero] at hrest
  rw [ContractScript.decode, ← hrest]
  exact decodeFrom_of_tiles htiles

/-! ## Methods in a row -/

/-- Methods stand one after another from `a` up to `b`, and none is empty. -/
def Consecutive : Nat → List Method → Nat → Prop
  | a, [], b => a = b
  | a, m :: ms, b => m.start = a ∧ m.start < m.stop ∧ Consecutive m.stop ms b

namespace Consecutive

/-- No method of `Consecutive` ones is empty. -/
theorem start_lt_stop : ∀ {a b : Nat} {ms : List Method}, Consecutive a ms b →
    ∀ m ∈ ms, m.start < m.stop
  | _, _, [], _, _, hm => (nomatch hm)
  | _, _, _ :: _, ⟨_, hlt, h⟩, m, hm => by
    rcases mem_cons.mp hm with rfl | hm
    · exact hlt
    · exact h.start_lt_stop m hm

/-- Every method of `Consecutive` ones ends within the row. -/
theorem stop_le : ∀ {a b : Nat} {ms : List Method}, Consecutive a ms b →
    a ≤ b ∧ ∀ m ∈ ms, m.stop ≤ b
  | _, _, [], h => ⟨Nat.le_of_eq h, nofun⟩
  | _, _, m :: _, ⟨hstart, hlt, h⟩ => by
    obtain ⟨hle, hall⟩ := h.stop_le
    refine ⟨by omega, fun m' hm' => ?_⟩
    rcases mem_cons.mp hm' with rfl | hm'
    · exact hle
    · exact hall m' hm'

/-- `Consecutive` methods end where the last of them ends. -/
theorem stop_eq : ∀ {a b : Nat} {ms : List Method}, Consecutive a ms b →
    ∀ last, ms.getLast? = some last → last.stop = b
  | _, _, [], _, _, hlast => (nomatch hlast)
  | _, _, [_], ⟨_, _, h⟩, last, hlast => by
    cases hlast
    exact h
  | _, _, _ :: m :: ms, ⟨_, _, h⟩, last, hlast => by
    rw [getLast?_cons_cons] at hlast
    exact h.stop_eq last hlast

end Consecutive

/-! ## References of an instruction -/

/-- The `Opcode`s of jumps, and those that leave a try. -/
def Opcode.jumps : List Opcode :=
  [.jmp, .jmpL, .jmpIf, .jmpIfL, .jmpIfNot, .jmpIfNotL, .jmpEq, .jmpEqL, .jmpNe, .jmpNeL, .jmpGt,
    .jmpGtL, .jmpGe, .jmpGeL, .jmpLt, .jmpLtL, .jmpLe, .jmpLeL, .endTry, .endTryL]

/-- What an instruction refers to is there: a jump, and a try by each offset that is not zero, leads
to one of some addresses, a call to one of some starts, and a token is within a table. -/
structure Located.Sound (addresses starts : List Nat) (tokenCount : Nat) (i : Located) : Prop where
  jump : i.opcode ∈ Opcode.jumps →
    ∃ target ∈ addresses, (target : Int) = i.address + ofLeBytesSigned i.operand
  handlers : i.opcode = .try ∨ i.opcode = .tryL → ∀ first second,
    i.operand = first ++ second → first.length = second.length →
    ∀ offset ∈ [ofLeBytesSigned first, ofLeBytesSigned second], offset ≠ 0 →
      ∃ target ∈ addresses, (target : Int) = i.address + offset
  call : i.opcode = .call ∨ i.opcode = .callL →
    ∃ target ∈ starts, (target : Int) = i.address + ofLeBytesSigned i.operand
  token : i.opcode = .callT → ofLeBytes i.operand < tokenCount

/-- `isAddress` looks for an integer among addresses. -/
theorem isAddress_iff :
    isAddress addresses target = true ↔ ∃ address ∈ addresses, (address : Int) = target := by
  simp only [isAddress, Bool.and_eq_true, decide_eq_true_eq, contains_iff_mem]
  constructor
  · rintro ⟨hpos, hmem⟩
    exact ⟨target.toNat, hmem, Int.toNat_of_nonneg hpos⟩
  · rintro ⟨address, hmem, rfl⟩
    exact ⟨Int.natCast_nonneg address, by rwa [Int.toNat_natCast]⟩

theorem Opcode.isBranch_not_call_iff (op : Opcode) :
    op.isBranch = true ∧ op.longForm ≠ .callL ↔ op ∈ Opcode.jumps ∨ op = .try ∨ op = .tryL := by
  have htable : ∀ op ∈ Opcode.all, (op.isBranch = true ∧ op.longForm ≠ .callL ↔
      op ∈ Opcode.jumps ∨ op = .try ∨ op = .tryL) := by
    decide +kernel
  exact htable op (Opcode.mem_all op)

/-- An opcode of `Opcode.jumps`, or a call, has an operand of one byte or of four. -/
theorem Opcode.operand_of_jump {op : Opcode} (h : op ∈ Opcode.jumps ∨ op = .call ∨ op = .callL) :
    op.isBranch = true ∧ op ≠ .try ∧ op ≠ .tryL ∧
      (op.operand = .fixed 1 ∨ op.operand = .fixed 4) := by
  have htable : ∀ op ∈ Opcode.call :: Opcode.callL :: Opcode.jumps,
      op.isBranch = true ∧ op ≠ .try ∧ op ≠ .tryL ∧
        (op.operand = .fixed 1 ∨ op.operand = .fixed 4) := by
    decide +kernel
  refine htable op ?_
  rw [mem_cons, mem_cons]
  tauto

namespace Located

variable {i : Located}

variable (hwf : i.toInstruction.WellFormed)
include hwf

/-- The one of the `branchTargets` of a jump or a call. -/
theorem branchTargets_of_jump (h : i.opcode ∈ Opcode.jumps ∨ i.opcode = .call ∨ i.opcode = .callL) :
    i.branchTargets = [i.address + ofLeBytesSigned i.operand] := by
  obtain ⟨hbranch, htry, htryL, hoperand⟩ := Opcode.operand_of_jump h
  have hlength : i.operand.length = 1 ∨ i.operand.length = 4 := by
    rcases hoperand with hoperand | hoperand
    · exact .inl (hwf.length_eq hoperand)
    · exact .inr (hwf.length_eq hoperand)
  unfold branchTargets
  split
  · next heq => exact absurd heq htry
  · next heq => exact absurd heq htryL
  · rw [if_pos]
    rcases hlength with hlength | hlength <;> simp [hbranch, hlength]

/-- The `branchTargets` of a try come from the halves of its operand that are not zero. -/
theorem mem_branchTargets_of_try (h : i.opcode = .try ∨ i.opcode = .tryL) :
    target ∈ i.branchTargets ↔ ∃ first second, i.operand = first ++ second ∧
      first.length = second.length ∧ ∃ offset ∈ [ofLeBytesSigned first, ofLeBytesSigned second],
        offset ≠ 0 ∧ i.address + offset = target := by
  have heven : ∃ n, i.operand.length = n + n := by
    rcases h with h | h
    · exact ⟨1, hwf.length_eq (by rw [h]; rfl)⟩
    · exact ⟨4, hwf.length_eq (by rw [h]; rfl)⟩
  obtain ⟨n, hn⟩ := heven
  have hhalf : i.operand.length / 2 = n := by omega
  have htargets : i.branchTargets =
      (([ofLeBytesSigned (i.operand.take n), ofLeBytesSigned (i.operand.drop n)].filter
        (· != 0)).map ((i.address : Int) + ·)) := by
    rcases h with h | h <;> simp only [branchTargets, h, hhalf] <;> rfl
  rw [htargets, mem_map]
  constructor
  · rintro ⟨offset, hoffset, rfl⟩
    obtain ⟨hmem, hne⟩ := mem_filter.mp hoffset
    refine ⟨_, _, (take_append_drop n _).symm, ?_, offset, hmem, by simpa using hne, rfl⟩
    rw [length_take, length_drop]
    omega
  · rintro ⟨first, second, hsplit, hlength, offset, hmem, hne, rfl⟩
    have hfirst : first.length = n := by
      rw [hsplit, length_append] at hn
      omega
    refine ⟨offset, mem_filter.mpr ⟨?_, by simpa using hne⟩, rfl⟩
    rwa [hsplit, take_left' hfirst, drop_left' hfirst]

/-- `checkInstruction` asks that an instruction is `Located.Sound`. -/
theorem checkInstruction_eq_ok_iff_sound :
    checkInstruction name addresses starts tokenCount i = .ok () ↔
      i.Sound addresses starts tokenCount := by
  rw [checkInstruction_eq_ok_iff]
  have htoken : i.opcode = .callT → i.operandNat? = some (ofLeBytes i.operand) := by
    intro h
    have hlength : i.operand.length = 2 := hwf.length_eq (by rw [h]; rfl)
    rw [operandNat?, if_neg]
    simp [← length_eq_zero_iff, hlength]
  constructor
  · rintro ⟨hcall, hindex, hbranch⟩
    refine ⟨fun h => ?_, fun h => ?_, fun h => ?_, fun h => ?_⟩
    · obtain ⟨hisBranch, hnot⟩ := (Opcode.isBranch_not_call_iff _).mpr (.inl h)
      have hall := hbranch hisBranch hnot
      rw [branchTargets_of_jump hwf (.inl h)] at hall
      exact isAddress_iff.mp (hall _ (mem_singleton_self _))
    · intro first second hsplit hlength offset hoffset hne
      obtain ⟨hisBranch, hnot⟩ := (Opcode.isBranch_not_call_iff _).mpr (.inr h)
      exact isAddress_iff.mp (hbranch hisBranch hnot _ ((mem_branchTargets_of_try hwf h).mpr
        ⟨first, second, hsplit, hlength, offset, hoffset, hne, rfl⟩))
    · have hall := hcall (Opcode.longForm_eq_callL_iff.mpr h)
      rw [branchTargets_of_jump hwf (.inr h)] at hall
      exact isAddress_iff.mp (hall _ (mem_singleton_self _))
    · have hlt := hindex h
      rwa [htoken h] at hlt
  · intro hsound
    refine ⟨fun h target htarget => ?_, fun h => ?_, fun hisBranch hnot target htarget => ?_⟩
    · have h := Opcode.longForm_eq_callL_iff.mp h
      rw [branchTargets_of_jump hwf (.inr h)] at htarget
      cases mem_singleton.mp htarget
      exact isAddress_iff.mpr (hsound.call h)
    · rw [htoken h]
      exact hsound.token h
    · rcases (Opcode.isBranch_not_call_iff _).mp ⟨hisBranch, hnot⟩ with h | h
      · rw [branchTargets_of_jump hwf (.inl h)] at htarget
        cases mem_singleton.mp htarget
        exact isAddress_iff.mpr (hsound.jump h)
      · obtain ⟨first, second, hsplit, hlength, offset, hoffset, hne, rfl⟩ :=
          (mem_branchTargets_of_try hwf h).mp htarget
        exact isAddress_iff.mpr (hsound.handlers h first second hsplit hlength offset hoffset hne)

end Located

/-! ## Scripts -/

theorem Tiles.wellFormed : ∀ {a b : Nat} {is : List Located}, Tiles a is b →
    ∀ i ∈ is, i.toInstruction.WellFormed
  | _, _, [], _, _, hi => (nomatch hi)
  | _, _, _ :: _, ⟨_, hwf, h⟩, i, hi => by
    rcases mem_cons.mp hi with rfl | hi
    · exact hwf
    · exact h.wellFormed i hi

/-- `checkMethod` asks that the bytes of a method are `Located.Sound` instructions. -/
theorem checkMethod_eq_ok_iff_splits {m : Method} (hm : m.start ≤ m.stop) :
    checkMethod script starts tokenCount m = .ok () ↔ ∃ is, Splits script m.start is m.stop ∧
      ∀ i ∈ is, i.Sound (is.map (·.address)) starts tokenCount := by
  simp only [checkMethod, bind_eq_ok, functionInstructions_eq_ok_iff hm, forM_eq_ok_iff]
  refine exists_congr fun is => and_congr_right fun hsplits => ?_
  have hwf := (splits_iff.mp hsplits).1.wellFormed
  exact forall₂_congr fun i hi => Located.checkInstruction_eq_ok_iff_sound (hwf i hi)

/-- Given `Consecutive` methods from the first byte on, `check` accepts exactly if the last of them
ends with the script and the bytes of each `Splits` into whole instructions: jumps and handlers lead
to instructions of the same method, calls to the start of a method, and tokens are within the table.
-/
theorem check_decides (script : Script) (tokenCount stop : Nat) (hne : script.methods ≠ [])
    (hrow : Consecutive 0 script.methods stop) :
    check script tokenCount = .ok () ↔
      stop = script.bytes.length ∧
      ∀ m ∈ script.methods, ∃ is, Splits script.bytes m.start is m.stop ∧
        ∀ i ∈ is, i.Sound (is.map (·.address)) (script.methods.map (·.start)) tokenCount := by
  have hmethods : script.methods.forM
      (checkMethod script.bytes (script.methods.map (·.start)) tokenCount) = .ok () ↔
      ∀ m ∈ script.methods, ∃ is, Splits script.bytes m.start is m.stop ∧
        ∀ i ∈ is, i.Sound (is.map (·.address)) (script.methods.map (·.start)) tokenCount := by
    rw [forM_eq_ok_iff]
    exact forall₂_congr fun m hm =>
      checkMethod_eq_ok_iff_splits (Nat.le_of_lt (hrow.start_lt_stop m hm))
  obtain ⟨last, hlast⟩ := Option.ne_none_iff_exists'.mp (mt getLast?_eq_none_iff.mp hne)
  rw [check, bind_eq_ok, ← hmethods, hlast, ← hrow.stop_eq last hlast]
  dsimp only
  constructor
  · rintro ⟨_, hall, hstop⟩
    split at hstop
    · next heq => exact ⟨heq, hall⟩
    · cases hstop
  · rintro ⟨hstop, hall⟩
    exact ⟨(), hall, if_pos hstop⟩

/-- Two methods: a try with one handler, a jump back, a call of the second method and one of a
method of another contract. -/
def referring : Script where
  bytes :=
    [Opcode.try.byte, 3, 0, Opcode.endTry.byte, 2, Opcode.jmp.byte, 254, Opcode.call.byte, 5,
      Opcode.callT.byte, 0, 0, Opcode.ret.byte]
  methods := [⟨0, "first", 0, 12, []⟩, ⟨1, "second", 12, 13, []⟩]

theorem check_decides_referring :
    Consecutive 0 referring.methods 13 ∧ check referring 1 = .ok () ∧
      (∀ m ∈ referring.methods, ∃ is, Splits referring.bytes m.start is m.stop ∧
        ∀ i ∈ is, i.Sound (is.map (·.address)) [0, 12] 1) ∧
      ¬ ∀ m ∈ referring.methods, ∃ is, Splits referring.bytes m.start is m.stop ∧
        ∀ i ∈ is, i.Sound (is.map (·.address)) [0, 12] 0 := by
  have hrow : Consecutive 0 referring.methods 13 := by simp [Consecutive, referring]
  have hok : check referring 1 = .ok () := by cbv
  have hno : check referring 0 ≠ .ok () := by cbv; simp
  have hdecides := fun count => check_decides referring count 13 (by simp [referring]) hrow
  exact ⟨hrow, hok, ((hdecides 1).mp hok).2, fun h => hno ((hdecides 0).mpr ⟨rfl, h⟩)⟩

end ContractScript
