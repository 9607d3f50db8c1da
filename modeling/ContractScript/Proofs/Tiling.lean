import ContractScript.Proofs.TwosComplement
import ContractScript.Script.Check

/-!
# Code as a row of instructions

Instructions that stand one after another (`Tiles`), each with an operand that its opcode admits,
are read back from their bytes one by one.
-/

namespace ContractScript

namespace Instruction

/-- The operand is as long as the opcode says, or its length can be counted. -/
def WellFormed (i : Instruction) : Prop :=
  match i.opcode.operand with
  | .fixed n => i.operand.length = n
  | .counted n => i.operand.length < byteRange n

instance (i : Instruction) : Decidable i.WellFormed := by
  unfold WellFormed
  split <;> infer_instance

/-- `takeExactly` takes the front of as many bytes. -/
theorem takeExactly_append {n : Nat} {front : List UInt8} (rest : List UInt8)
    (h : front.length = n) : takeExactly n (front ++ rest) = some (front, rest) := by
  subst h
  simp [takeExactly]

/-- `read` gives back the instruction whose bytes come first, whatever follows. -/
theorem read_bytes {i : Instruction} (h : i.WellFormed) (address : Nat) (rest : List UInt8) :
    read address (i.bytes ++ rest) = .ok (i, rest) := by
  obtain ⟨op, operand⟩ := i
  cases hop : op.operand with
  | fixed n =>
    simp only [WellFormed, bytes, hop] at h ⊢
    have hread : readOperand op (operand ++ rest) = some (operand, rest) := by
      rw [readOperand, hop]
      exact takeExactly_append rest h
    rw [List.cons_append, read, Opcode.ofByte?_byte]
    dsimp only
    rw [hread]
  | counted n =>
    -- the length stands before the operand, and says how much to take
    simp only [WellFormed, bytes, hop] at h ⊢
    have hread :
        readOperand op (leBytes n operand.length ++ (operand ++ rest)) = some (operand, rest) := by
      rw [readOperand, hop]
      show (takeExactly n _).bind _ = _
      rw [takeExactly_append _ (length_leBytes n operand.length)]
      show takeExactly (ofLeBytes (leBytes n operand.length)) _ = _
      rw [ofLeBytes_leBytes_of_lt h]
      exact takeExactly_append rest rfl
    rw [List.cons_append, List.append_assoc, read, Opcode.ofByte?_byte]
    dsimp only
    rw [hread]

theorem size_pos (i : Instruction) : 0 < i.size := by
  unfold size
  split <;> omega

end Instruction

/-! ## Rows of instructions -/

/-- The instructions stand one after another from `a` up to `b`. -/
def Tiles : Nat → List Located → Nat → Prop
  | a, [], b => a = b
  | a, i :: is, b => i.address = a ∧ i.toInstruction.WellFormed ∧ Tiles i.next is b

/-- The bytes of a row of instructions. -/
def codeBytes (is : List Located) : List UInt8 :=
  is.flatMap fun i => i.toInstruction.bytes

@[simp] theorem codeBytes_nil : codeBytes [] = [] := rfl

@[simp] theorem codeBytes_cons (i : Located) (is : List Located) :
    codeBytes (i :: is) = i.toInstruction.bytes ++ codeBytes is := by
  simp [codeBytes]

namespace Tiles

/-- A row that `Tiles` addresses is as long as its bytes. -/
theorem add_length : ∀ {a b : Nat} {is : List Located},
    Tiles a is b → a + (codeBytes is).length = b
  | _, _, [], h => h
  | a, b, i :: is, ⟨ha, _, h⟩ => by
    have hrest := h.add_length
    rw [Located.next, ha] at hrest
    rw [codeBytes_cons, List.length_append, Instruction.length_bytes]
    omega

/-- Every instruction of a row starts between its ends. -/
theorem address_mem : ∀ {a b : Nat} {is : List Located}, Tiles a is b →
    ∀ i ∈ is, a ≤ i.address ∧ i.address < b
  | _, _, [], _, _, hi => (nomatch hi)
  | a, b, i :: is, ⟨ha, _, h⟩, j, hj => by
    have hpos := i.toInstruction.size_pos
    have hlen := h.add_length
    rw [Located.next] at hlen
    rcases List.mem_cons.mp hj with rfl | hj
    · omega
    · have := h.address_mem j hj
      rw [Located.next] at this
      omega

/-- The addresses of a row ascend. -/
theorem pairwise_address : ∀ {a b : Nat} {is : List Located}, Tiles a is b →
    is.Pairwise fun i j => i.address < j.address
  | _, _, [], _ => .nil
  | a, b, i :: is, ⟨_, _, h⟩ => by
    refine List.Pairwise.cons (fun j hj => ?_) h.pairwise_address
    have hpos := i.toInstruction.size_pos
    have := (h.address_mem j hj).1
    rw [Located.next] at this
    omega

end Tiles

/-- `decodeFrom` gives a row of instructions back. -/
theorem decodeFrom_of_tiles : ∀ {a b : Nat} {is : List Located}, Tiles a is b →
    decodeFrom a (codeBytes is) = .ok is
  | a, b, [], _ => by
    rw [codeBytes_nil, decodeFrom]
    rfl
  | a, b, i :: is, ⟨ha, hwf, h⟩ => by
    have hne : (codeBytes (i :: is)).isEmpty = false := by
      have hpos := i.toInstruction.size_pos
      rw [← Instruction.length_bytes] at hpos
      rw [codeBytes_cons, List.isEmpty_eq_false_iff]
      exact List.append_ne_nil_of_left_ne_nil (List.ne_nil_of_length_pos hpos) _
    rw [decodeFrom, hne, if_neg Bool.false_ne_true, codeBytes_cons]
    have hread := Instruction.read_bytes hwf a (codeBytes is)
    have hrest := decodeFrom_of_tiles h
    rw [Located.next, ha] at hrest
    split
    · next e he => rw [hread] at he; cases he
    · next i' rest he =>
      rw [hread] at he
      cases he
      rw [hrest]
      subst ha
      rfl

/-- `functionInstructions` gives a row of instructions back, whatever follows it. -/
theorem functionInstructions_of_tiles (name : String) (rest : List UInt8) :
    ∀ {a b : Nat} {is : List Located}, Tiles a is b →
      functionInstructions name b a (codeBytes is ++ rest) = .ok is
  | a, b, [], h => by
    cases h
    rw [functionInstructions, if_neg (Nat.lt_irrefl a)]
  | a, b, i :: is, ⟨ha, hwf, h⟩ => by
    have hpos := i.toInstruction.size_pos
    have hlen := h.add_length
    have hrest := functionInstructions_of_tiles name rest h
    rw [Located.next, ha] at hlen hrest
    have hread := Instruction.read_bytes hwf a (codeBytes is ++ rest)
    rw [functionInstructions, if_pos (by omega), codeBytes_cons, List.append_assoc]
    split
    · next e he => rw [hread] at he; cases he
    · next i' rest' he =>
      rw [hread] at he
      cases he
      rw [if_neg (by omega), hrest]
      subst ha
      rfl

end ContractScript
