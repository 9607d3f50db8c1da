import Mathlib
import ContractScript.Proofs.Written

/-!
# Pushes of integers

An integer is pushed by an opcode of its own, if it is small, or by an opcode with an operand of 1,
2, 4, 8, 16 or 32 bytes. The operand is the shortest two's complement of the integer, filled up with
its sign.
-/

namespace ContractScript

open List

variable {n : Nat} {v : Int}

/-! ## Filling up with the sign -/

theorem byteRange_add (n k : Nat) : byteRange (n + k) = byteRange n * byteRange k := by
  simp only [byteRange_eq_two_pow, Nat.pow_eq]
  rw [Nat.mul_add, Nat.pow_add]

/-- `ofLeBytes` weighs the bytes behind by the range of those in front. -/
theorem ofLeBytes_append (front back : List UInt8) :
    ofLeBytes (front ++ back) = ofLeBytes front + byteRange front.length * ofLeBytes back := by
  induction front with
  | nil => simp [ofLeBytes, byteRange]
  | cons b bs ih =>
    rw [cons_append, ofLeBytes, ofLeBytes, ih, length_cons, byteRange]
    ring

theorem ofLeBytes_replicate_zero (k : Nat) : ofLeBytes (List.replicate k 0) = 0 := by
  induction k with
  | zero => rfl
  | succ k ih => simp [replicate_succ, ofLeBytes, ih]

theorem ofLeBytes_replicate_max (k : Nat) : ofLeBytes (List.replicate k 255) + 1 = byteRange k := by
  induction k with
  | zero => rfl
  | succ k ih =>
    have hbyte : (255 : UInt8).toNat = 255 := rfl
    rw [replicate_succ, ofLeBytes, byteRange, hbyte]
    omega

theorem FitsSigned.mono {m : Nat} (h : FitsSigned m v) (hmn : m ≤ n) : FitsSigned n v := by
  have hrange := byteRange_le_byteRange hmn
  obtain ⟨hlow, hhigh⟩ := h
  exact ⟨by omega, by omega⟩

/-- The range of `n` bytes as powers of two. -/
theorem fitsSigned_iff (hn : 0 < n) :
    FitsSigned n v ↔ -2 ^ (8 * n - 1) ≤ v ∧ v < 2 ^ (8 * n - 1) := by
  have hrange : (byteRange n : Int) = 2 * 2 ^ (8 * n - 1) := by
    rw [byteRange_eq_two_pow, Nat.pow_eq, ← pow_succ', Nat.sub_add_cancel (by omega)]
    push_cast
    rfl
  rw [FitsSigned, hrange]
  constructor
  · rintro ⟨hlow, hhigh⟩
    exact ⟨by linarith, by linarith⟩
  · rintro ⟨hlow, hhigh⟩
    exact ⟨by linarith, by linarith⟩

theorem signedWidth_pos (v : Int) : 0 < signedWidth v := by
  cases v <;> exact Nat.succ_pos _

/-- `leBytesSigned` with more bytes than needed is the narrower one filled up with the sign. -/
theorem leBytesSigned_eq_append_fill (h : FitsSigned n v) (k : Nat) : leBytesSigned (n + k) v =
      leBytesSigned n v ++ List.replicate k (if v < 0 then 255 else 0) := by
  -- both sides have as many bytes, so it is enough that they stand for the same number
  have hread : ofLeBytes (leBytesSigned n v ++ List.replicate k (if v < 0 then 255 else 0)) =
      (v % (byteRange (n + k) : Int)).toNat := by
    have hwide := h.mono (Nat.le_add_right n k)
    have hfront := ofLeBytes_leBytesSigned n v
    rw [h.emod_byteRange] at hfront
    rw [ofLeBytes_append, length_leBytesSigned, hwide.emod_byteRange, byteRange_add]
    obtain ⟨hlow, hhigh⟩ := h
    split at hfront
    · next hneg =>
      have hmax := ofLeBytes_replicate_max k
      rw [if_pos hneg, if_pos hneg, hfront, ← hmax, Nat.mul_add, Nat.mul_one]
      push_cast
      omega
    · next hnonneg =>
      rw [if_neg hnonneg, if_neg hnonneg, hfront, ofLeBytes_replicate_zero, Nat.mul_zero,
        Nat.add_zero]
  have hback := leBytes_ofLeBytes
    (leBytesSigned n v ++ List.replicate k (if v < 0 then 255 else 0))
  rw [hread, length_append, length_leBytesSigned, length_replicate] at hback
  exact hback

/-! ## The opcode of an integer -/

/-- Small integers have opcodes without operand. -/
theorem pushIntOpcode_of_small (h : -1 ≤ v ∧ v ≤ 16) :
    ∃ op, pushIntOpcode v = .ok op ∧ op.headerSize = 1 := by
  obtain ⟨hlow, hhigh⟩ := h
  interval_cases v <;> exact ⟨_, rfl, rfl⟩

theorem pushSmall?_of_large (h : ¬ (-1 ≤ v ∧ v ≤ 16)) : Opcode.pushSmall? v = none := by
  rw [Opcode.pushSmall?, if_neg (by omega), if_neg (by omega)]

/-- The first row of `intWidths` that is wide enough is the narrowest. -/
theorem isLeast_of_find? {row : Nat × Opcode}
    (h : intWidths.find? (fun row => signedWidth v ≤ row.1) = some row) :
    IsLeast {w | w ∈ [1, 2, 4, 8, 16, 32] ∧ FitsSigned w v} row.1 := by
  have hwidths : ∀ w, w ∈ [1, 2, 4, 8, 16, 32] ↔ w ∈ intWidths.map Prod.fst := fun w => Iff.rfl
  have hfits : ∀ w ∈ [1, 2, 4, 8, 16, 32], (signedWidth v ≤ w ↔ FitsSigned w v) := by
    intro w hw
    exact signedWidth_le_iff ((by decide : ∀ w ∈ [1, 2, 4, 8, 16, 32], 0 < w) w hw) v
  have hsorted : intWidths.Pairwise fun row row' => row.1 ≤ row'.1 := by decide
  obtain ⟨hwide, before, after, hsplit, hbefore⟩ := find?_eq_some_iff_append.mp h
  have hmem : row.1 ∈ [1, 2, 4, 8, 16, 32] :=
    (hwidths _).mpr (mem_map_of_mem (mem_of_find?_eq_some h))
  refine ⟨⟨hmem, (hfits _ hmem).mp (by simpa using hwide)⟩, ?_⟩
  rintro w ⟨hw, hwfits⟩
  obtain ⟨row', hrow', rfl⟩ := mem_map.mp ((hwidths _).mp hw)
  rw [hsplit] at hrow' hsorted
  rcases mem_append.mp hrow' with hrow' | hrow'
  · have hnarrow := hbefore row' hrow'
    rw [← hfits _ hw] at hwfits
    simp [hwfits] at hnarrow
  · rcases mem_cons.mp hrow' with rfl | hrow'
    · exact Nat.le_refl _
    · exact rel_of_pairwise_cons (pairwise_append.mp hsorted).2.1 hrow'

/-- `pushIntOpcode` finds the opcode with the narrowest operand for an integer that has none of its
own. -/
theorem pushIntOpcode_of_large (h : ¬ (-1 ≤ v ∧ v ≤ 16)) (hfits : FitsSigned 32 v) :
    ∃ op, pushIntOpcode v = .ok op ∧
      IsLeast {w | w ∈ [1, 2, 4, 8, 16, 32] ∧ FitsSigned w v} (op.headerSize - 1) := by
  have hwidth : signedWidth v ≤ 32 := (signedWidth_le_iff (by decide) v).mpr hfits
  have htable : ∀ row ∈ intWidths, row.2.headerSize - 1 = row.1 := by decide
  cases hfind : intWidths.find? fun row => signedWidth v ≤ row.1 with
  | none =>
    have hnone := find?_eq_none.mp hfind (32, .pushInt256) (by decide)
    simp [hwidth] at hnone
  | some row =>
    refine ⟨row.2, ?_, ?_⟩
    · simp only [pushIntOpcode, pushSmall?_of_large h, hfind]
    · rw [htable row (mem_of_find?_eq_some hfind)]
      exact isLeast_of_find? hfind

/-- `pushIntOpcode` has none for integers beyond 32 bytes. -/
theorem pushIntOpcode_of_tooLarge (h : ¬ FitsSigned 32 v) :
    pushIntOpcode v = .error (.tooLarge "integer width in bytes" (signedWidth v) 32) := by
  have hlarge : ¬ (-1 ≤ v ∧ v ≤ 16) := by
    rw [fitsSigned_iff (by decide)] at h
    norm_num at h ⊢
    omega
  have hwidth : 32 < signedWidth v := by
    rw [← signedWidth_le_iff (by decide), Nat.not_le] at h
    exact h
  have hnone : intWidths.find? (fun row => signedWidth v ≤ row.1) = none := by
    rw [find?_eq_none]
    intro row hrow
    have hle := (by decide : ∀ row ∈ intWidths, row.1 ≤ 32) row hrow
    rw [decide_eq_true_eq]
    omega
  simp only [pushIntOpcode, pushSmall?_of_large hlarge, hnone]

/-! ## Scripts of one operation -/

section

variable (tokens : TokenTable) (id : FunctionId) (name : String) {c : Cell}

/-- A function of one operation that is written the same everywhere. -/
theorem encode_single {bytes : List UInt8} (hsize : c.size = .ok n) (hn : n ≤ maxScriptSize)
    (hbytes : ∀ t a, c.bytes t a = .ok bytes) :
    ∃ methods, encode tokens [⟨id, name, [c]⟩] = .ok ⟨bytes, methods⟩ := by
  let part : Method × List UInt8 := (⟨id, name, 0, n, sequencePoints [0] [c]⟩, bytes)
  obtain ⟨p, haddresses, hstop, hlayout⟩ : ∃ p, p.addresses = [0] ∧ p.stop = n ∧
      layout [⟨id, name, [c]⟩] = .ok ⟨[(0, p)], n⟩ := by
    refine ⟨⟨[0], labelsAt c.op.operation 0 ++ [], n, none⟩, rfl, rfl, ?_⟩
    simp [layout, layoutEach, placeChunks, placeCells, hsize, Nat.not_lt.mpr hn]
  have hchunk : encodeChunk [0] tokens.size ⟨id, name, [c]⟩ 0 p = .ok part := by
    simp [encodeChunk, encodeCells, haddresses, hstop, hbytes, part]
  have hparts : (encodeChunks ⟨[(0, p)], n⟩ tokens [⟨id, name, [c]⟩]).mapM (fun x => x) =
      .ok [part] := by
    show [encodeChunk [0] tokens.size ⟨id, name, [c]⟩ 0 p].mapM (fun x => x) = _
    rw [hchunk]
    rfl
  have hjoin : joinMethods [part] = ⟨bytes, [part.1]⟩ := by
    simp [joinMethods, part]
  refine ⟨[part.1], ?_⟩
  rw [encode, bind_eq_ok]
  exact ⟨_, hlayout, bind_eq_ok.mpr ⟨[part], hparts, congrArg Except.ok hjoin⟩⟩

/-- A function of one operation that has no size. -/
theorem encode_single_error {fault : Fault} (hsize : c.size = .error fault) :
    encode tokens [⟨id, name, [c]⟩] = .error (fault.toError name c.op.location) := by
  have hlayout : layout [⟨id, name, [c]⟩] = .error (fault.toError name c.op.location) := by
    simp [layout, layoutEach, placeChunks, placeCells, hsize]
  rw [encode, hlayout]
  rfl

end

/-! ## Pushes -/

/-- The `Instruction` that an integer is pushed by. It is decoded from its bytes and pushes the
integer. It is one byte for the integers from -1 up to 16. For all others its operand is the
narrowest that holds the integer, and is written as the shortest two's complement of the integer and
as many bytes of its sign as are missing. -/
structure ShortestPush (v : Int) (i : Instruction) : Prop where
  decoded : decode i.bytes = .ok [⟨i, 0⟩]
  pushed : (⟨i, 0⟩ : Located).pushedInt? = some v
  single : i.bytes.length = 1 ↔ -1 ≤ v ∧ v ≤ 16
  width : i.bytes.length ≠ 1 → IsLeast
    {w | w ∈ [1, 2, 4, 8, 16, 32] ∧ -2 ^ (8 * w - 1) ≤ v ∧ v < 2 ^ (8 * w - 1)} i.operand.length
  operand : i.bytes.length ≠ 1 → i.operand = leBytesSigned (signedWidth v) v ++
    List.replicate (i.operand.length - signedWidth v) (if v < 0 then 255 else 0)

/-- The opcode of `pushIntOpcode` with the integer as operand is its `ShortestPush`. -/
theorem shortestPush_of_pushIntOpcode {op : Opcode} (h : pushIntOpcode v = .ok op)
    (hfits : FitsSigned 32 v) : ShortestPush v ⟨op, leBytesSigned (op.headerSize - 1) v⟩ := by
  obtain ⟨hoperand, hpushed⟩ := pushIntOpcode_spec h 0
  have hwf : (⟨op, leBytesSigned (op.headerSize - 1) v⟩ : Instruction).WellFormed := by
    simp [Instruction.WellFormed, hoperand]
  have htiles : Tiles 0 [⟨⟨op, leBytesSigned (op.headerSize - 1) v⟩, 0⟩] _ := ⟨rfl, hwf, rfl⟩
  have hdecoded := decodeFrom_of_tiles htiles
  rw [codeBytes_cons, codeBytes_nil, append_nil] at hdecoded
  have hlength : (⟨op, leBytesSigned (op.headerSize - 1) v⟩ : Instruction).bytes.length =
      op.headerSize - 1 + 1 := by
    simp [Instruction.bytes, hoperand]
  have hpos : ∀ w ∈ [1, 2, 4, 8, 16, 32], 0 < w := by decide
  by_cases hsmall : -1 ≤ v ∧ v ≤ 16
  · obtain ⟨op', hop', hheader⟩ := pushIntOpcode_of_small hsmall
    obtain rfl : op = op' := Except.ok.inj (h.symm.trans hop')
    have hone : (⟨op, leBytesSigned (op.headerSize - 1) v⟩ : Instruction).bytes.length = 1 := by
      rw [hlength, hheader]
    exact ⟨hdecoded, hpushed, ⟨fun _ => hsmall, fun _ => hone⟩, absurd hone, absurd hone⟩
  · obtain ⟨op', hop', hleast⟩ := pushIntOpcode_of_large hsmall hfits
    obtain rfl : op = op' := Except.ok.inj (h.symm.trans hop')
    obtain ⟨hmem, hholds⟩ := hleast.1
    have hwide := hpos _ hmem
    have hmore : op.headerSize - 1 + 1 ≠ 1 := by omega
    refine ⟨hdecoded, hpushed, ?_, fun _ => ?_, fun _ => ?_⟩
    · rw [hlength]
      exact ⟨fun hone => absurd hone hmore, fun hv => absurd hv hsmall⟩
    · rw [length_leBytesSigned]
      convert hleast using 1
      ext w
      exact and_congr_right fun hw => (fitsSigned_iff (hpos w hw)).symm
    · have hle := (signedWidth_le_iff hwide v).mpr hholds
      have hshort : FitsSigned (signedWidth v) v :=
        (signedWidth_le_iff (signedWidth_pos v) v).mp (Nat.le_refl _)
      have hfill := leBytesSigned_eq_append_fill hshort (op.headerSize - 1 - signedWidth v)
      rw [Nat.add_sub_cancel' hle] at hfill
      rw [length_leBytesSigned]
      exact hfill

/-- An integer from `-2 ^ 255` up to below `2 ^ 255` is pushed by its `ShortestPush`, at every
address of every function and as a script of its own. Any other integer is too large, and the fault
of `encode` says how many bytes it takes. -/
theorem integer_pushes_are_exact (v : Int) (tokens : TokenTable) (id : FunctionId) (name : String)
    (location : Option Span) (form : Form) :
    (-2 ^ 255 ≤ v ∧ v < 2 ^ 255 → ∃ i, ShortestPush v i ∧
      (∀ t a, Cell.bytes t a ⟨⟨.pushInt v, location⟩, form⟩ = .ok i.bytes) ∧
      ∃ methods, encode tokens [⟨id, name, [⟨⟨.pushInt v, location⟩, form⟩]⟩] =
        .ok ⟨i.bytes, methods⟩) ∧
    (¬ (-2 ^ 255 ≤ v ∧ v < 2 ^ 255) →
      (∀ t a, Cell.bytes t a ⟨⟨.pushInt v, location⟩, form⟩ =
        .error (.tooLarge "integer width in bytes" (signedWidth v) 32)) ∧
      encode tokens [⟨id, name, [⟨⟨.pushInt v, location⟩, form⟩]⟩] =
        .error (.operandTooLarge name "integer width in bytes" (signedWidth v) 32 location)) := by
  have hrange : FitsSigned 32 v ↔ -2 ^ 255 ≤ v ∧ v < 2 ^ 255 := fitsSigned_iff (by decide)
  rw [← hrange]
  constructor
  · intro hfits
    obtain ⟨op, hop⟩ : ∃ op, pushIntOpcode v = .ok op := by
      by_cases hsmall : -1 ≤ v ∧ v ≤ 16
      · exact (pushIntOpcode_of_small hsmall).imp fun _ h => h.1
      · exact (pushIntOpcode_of_large hsmall hfits).imp fun _ h => h.1
    have hbytes : ∀ t a, Cell.bytes t a ⟨⟨.pushInt v, location⟩, form⟩ =
        .ok (⟨op, leBytesSigned (op.headerSize - 1) v⟩ : Instruction).bytes := by
      intro t a
      refine Cell.bytes_eq_ok_iff.mpr (.inr ⟨_, ?_, rfl⟩)
      simp only [Operation.instruction, hop]
      rfl
    have hsize : Cell.size ⟨⟨.pushInt v, location⟩, form⟩ = .ok op.headerSize := by
      simp only [Cell.size, Operation.size, hop]
    have hheader : op.headerSize ≤ maxScriptSize :=
      (by decide +kernel : ∀ op ∈ Opcode.all, op.headerSize ≤ maxScriptSize) op (Opcode.mem_all op)
    exact ⟨_, shortestPush_of_pushIntOpcode hop hfits, hbytes,
      encode_single tokens id name hsize hheader hbytes⟩
  · intro hlarge
    have hop := pushIntOpcode_of_tooLarge hlarge
    refine ⟨fun t a => ?_, ?_⟩
    · simp only [Cell.bytes, Operation.instruction, hop]
      rfl
    · have hsize : Cell.size ⟨⟨.pushInt v, location⟩, form⟩ =
          .error (.tooLarge "integer width in bytes" (signedWidth v) 32) := by
        simp only [Cell.size, Operation.size, hop]
      exact encode_single_error tokens id name hsize

theorem integer_pushes_are_exact_ends :
    (∃ i, ShortestPush (-2 ^ 255) i ∧
      ∃ methods, encode .empty [⟨0, "f", [⟨⟨.pushInt (-2 ^ 255), none⟩, .long⟩]⟩] =
        .ok ⟨i.bytes, methods⟩) ∧
    encode .empty [⟨0, "f", [⟨⟨.pushInt (2 ^ 255), none⟩, .long⟩]⟩] =
      .error (.operandTooLarge "f" "integer width in bytes" 33 32 none) := by
  have hwidth : signedWidth (2 ^ 255) = 33 := by decide +kernel
  obtain ⟨hlow, -⟩ := integer_pushes_are_exact (-2 ^ 255) .empty 0 "f" none .long
  obtain ⟨-, hhigh⟩ := integer_pushes_are_exact (2 ^ 255) .empty 0 "f" none .long
  obtain ⟨i, hi, -, hencode⟩ := hlow (by norm_num)
  obtain ⟨-, herror⟩ := hhigh (by norm_num)
  rw [hwidth] at herror
  exact ⟨⟨i, hi, hencode⟩, herror⟩

end ContractScript
