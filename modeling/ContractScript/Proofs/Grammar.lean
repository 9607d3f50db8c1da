import ContractScript.Proofs.Acceptance

/-!
# The grammar of scripts

A script is a concatenation of instructions. The byte of an opcode comes first; it decides whether
the operand has a fixed length, or whether its length stands before it. Reading one instruction
after another goes on up to the first bytes that are none, and nothing else can be read before
them.
-/

namespace ContractScript

open List

variable {i : Instruction} {bs : List UInt8} {address a : Nat} {e : DecodeError} {is : List Located}

/-! ## One instruction -/

/-- Bytes are an `Instruction`: the byte of an opcode and as many bytes of operand as the opcode
has, or a length of one, two or four bytes, least significant first, and that many bytes. -/
inductive Spells : Instruction → List UInt8 → Prop where
  | fixed {op : Opcode} {operand : List UInt8} : op.operand = .fixed operand.length →
    Spells ⟨op, operand⟩ (op.byte :: operand)
  | counted {op : Opcode} {count operand : List UInt8} : op.operand = .counted count.length →
    count.length ∈ [1, 2, 4] → ofLeBytes count = operand.length →
    Spells ⟨op, operand⟩ (op.byte :: (count ++ operand))

/-- A length takes one, two or four bytes. -/
theorem Opcode.width_of_counted {op : Opcode} {n : Nat} (h : op.operand = .counted n) :
    n ∈ [1, 2, 4] := by
  have htable : ∀ op ∈ Opcode.all,
      op.operand ∈ [1, 2, 4].map OperandLayout.counted ∨ ∃ n ≤ 32, op.operand = .fixed n := by
    decide +kernel
  rcases htable op (Opcode.mem_all op) with hcounted | ⟨_, -, hfixed⟩
  · rw [h, mem_map] at hcounted
    obtain ⟨m, hm, heq⟩ := hcounted
    cases heq
    exact hm
  · rw [h] at hfixed
    cases hfixed

/-- `Spells` has one spelling for an instruction, its `bytes`, if the operand is as long as the
opcode says. -/
theorem spells_iff : Spells i bs ↔ i.WellFormed ∧ bs = i.bytes := by
  constructor
  · intro h
    cases h with
    | fixed hop => simp [Instruction.WellFormed, Instruction.bytes, hop]
    | @counted op count operand hop _ hlength =>
      have hlt := ofLeBytes_lt count
      have hcount := leBytes_ofLeBytes count
      rw [hlength] at hlt hcount
      simp only [Instruction.WellFormed, Instruction.bytes, hop, hcount, and_true]
      exact hlt
  · obtain ⟨op, operand⟩ := i
    rintro ⟨hwf, rfl⟩
    cases hop : op.operand with
    | fixed n =>
      simp only [Instruction.WellFormed, Instruction.bytes, hop] at hwf ⊢
      exact .fixed (hop.trans (congrArg _ hwf.symm))
    | counted n =>
      simp only [Instruction.WellFormed, Instruction.bytes, hop] at hwf ⊢
      have hlength := length_leBytes n operand.length
      refine .counted ?_ ?_ (ofLeBytes_leBytes_of_lt hwf)
      · rw [hlength, hop]
      · rw [hlength]
        exact Opcode.width_of_counted hop

/-- Where `Instruction.read` fails, no instruction begins. -/
theorem not_spells_of_read_error {part : List UInt8} (h : Instruction.read address bs = .error e)
    (hpart : Spells i part) : ¬ part <+: bs := by
  rintro ⟨rest, rfl⟩
  obtain ⟨hwf, rfl⟩ := spells_iff.mp hpart
  rw [Instruction.read_bytes hwf] at h
  cases h

/-- What is reported where nothing can be read: a byte that is no opcode, or the opcode whose
operand is cut off. -/
theorem read_error_cases {byte : UInt8} (h : Instruction.read address (byte :: bs) = .error e) :
    e.address = address ∧ (e = .unknownOpcode address byte ↔ ∀ op : Opcode, op.byte ≠ byte) ∧
      ∀ op : Opcode, op.byte = byte → e = .truncated address op.name := by
  rw [Instruction.read] at h
  cases hop : Opcode.ofByte? byte with
  | none =>
    rw [hop] at h
    cases h
    have hnone : ∀ op : Opcode, op.byte ≠ byte := by
      rintro op rfl
      rw [Opcode.ofByte?_byte] at hop
      cases hop
    exact ⟨rfl, ⟨fun _ => hnone, fun _ => rfl⟩, fun op heq => absurd heq (hnone op)⟩
  | some op =>
    rw [hop] at h
    dsimp only at h
    split at h
    · cases h
      have hbyte : op.byte = byte := Opcode.byte_of_ofByte? hop
      have hunknown : DecodeError.truncated address op.name = .unknownOpcode address byte ↔
          ∀ op : Opcode, op.byte ≠ byte := by
        constructor
        · intro heq
          cases heq
        · intro hnone
          exact absurd hbyte (hnone op)
      refine ⟨rfl, hunknown, ?_⟩
      rintro op' rfl
      rw [Opcode.ofByte?_byte] at hop
      cases hop
      rfl
    · cases h

/-! ## Rows of instructions -/

/-- Reading goes on from one instruction to the next up to the first bytes that are none.
`decodeFrom` and `opcodesFrom` go as far; bytes are left over exactly if decoding fails, and it
fails with what is found there. -/
theorem exists_walk (a : Nat) (bs : List UInt8) : ∃ is rest b e, Tiles a is b ∧
    bs = codeBytes is ++ rest ∧ Instruction.read b rest = .error e ∧
    opcodesFrom a bs = is.map (·.opcode) ∧
    decodeFrom a bs = if rest.isEmpty then .ok is else .error e := by
  fun_induction opcodesFrom a bs with
  | case1 a bs e hread =>
    refine ⟨[], bs, a, e, rfl, rfl, hread, rfl, ?_⟩
    rw [decodeFrom]
    split
    · rfl
    · split
      · next heq =>
        rw [hread] at heq
        cases heq
        rfl
      · next heq =>
        rw [hread] at heq
        cases heq
  | case2 a bs i rest hread ih =>
    obtain ⟨is, left, b, e, htiles, hrest, hstuck, hopcodes, hdecode⟩ := ih
    obtain ⟨hwf, hbs⟩ := Instruction.read_eq_ok_iff.mp hread
    refine ⟨⟨i, a⟩ :: is, left, b, e, ⟨rfl, hwf, htiles⟩, ?_, hstuck, ?_, ?_⟩
    · rw [codeBytes_cons, append_assoc, ← hrest, hbs]
    · rw [hopcodes, map_cons]
    · have hne : bs.isEmpty = false := by
        have hlt := Instruction.read_length hread
        rw [isEmpty_eq_false_iff]
        exact ne_nil_of_length_pos (Nat.zero_lt_of_lt hlt)
      rw [decodeFrom, hne, if_neg Bool.false_ne_true]
      split
      · next heq =>
        rw [hread] at heq
        cases heq
      · next heq =>
        rw [hread] at heq
        cases heq
        rw [hdecode]
        by_cases hleft : left.isEmpty
        · rw [if_pos hleft, if_pos hleft]
        · rw [if_neg hleft, if_neg hleft]

/-- `decodeFrom` gives the row of instructions that the bytes are. -/
theorem decodeFrom_eq_ok_iff :
    decodeFrom a bs = .ok is ↔ Tiles a is (a + bs.length) ∧ codeBytes is = bs := by
  constructor
  · intro h
    obtain ⟨js, rest, b, e, htiles, rfl, -, -, hdecode⟩ := exists_walk a bs
    rw [h] at hdecode
    split at hdecode
    · next hempty =>
      cases hdecode
      obtain rfl := List.isEmpty_iff.mp hempty
      rw [append_nil]
      exact ⟨htiles.add_length.symm ▸ htiles, rfl⟩
    · cases hdecode
  · rintro ⟨htiles, rfl⟩
    exact decodeFrom_of_tiles htiles

/-- Where nothing more can be read after a row of instructions, every other row that the bytes begin
with is a part of it. -/
theorem Tiles.prefix_of_stuck {rest : List UInt8} :
    ∀ {a b c : Nat} {is js : List Located}, Tiles a is b → Instruction.read b rest = .error e →
      Tiles a js c → codeBytes js <+: codeBytes is ++ rest → js <+: is
  | _, _, _, _, [], _, _, _, _ => nil_prefix
  | a, _, _, [], j :: js, h, hstuck, ⟨_, hwf, _⟩, hjs => by
    cases h
    rw [codeBytes_cons] at hjs
    have hspells : Spells j.toInstruction j.toInstruction.bytes := spells_iff.mpr ⟨hwf, rfl⟩
    exact absurd ((prefix_append _ _).trans hjs) (not_spells_of_read_error hstuck hspells)
  | a, _, _, i :: is, j :: js, ⟨hi, hwf, h⟩, hstuck, ⟨hj, hwf', h'⟩, ⟨after, hjs⟩ => by
    rw [codeBytes_cons, codeBytes_cons, append_assoc, append_assoc] at hjs
    -- both rows begin with what is read first
    have hfirst := Instruction.read_bytes hwf a (codeBytes is ++ rest)
    rw [← hjs, Instruction.read_bytes hwf'] at hfirst
    obtain ⟨heq, hafter⟩ := Prod.mk.inj (Except.ok.inj hfirst)
    have hsame : j = i := by
      obtain ⟨_, _⟩ := i
      obtain ⟨_, _⟩ := j
      cases hi
      cases hj
      cases heq
      rfl
    subst hsame
    exact (cons_prefix_cons).mpr ⟨rfl, h.prefix_of_stuck hstuck h' ⟨after, hafter⟩⟩

theorem codeBytes_mono {js : List Located} (h : js <+: is) : codeBytes js <+: codeBytes is := by
  obtain ⟨rest, rfl⟩ := h
  rw [codeBytes, codeBytes, flatMap_append]
  exact prefix_append _ _

/-- Bytes decode exactly if they are what instructions one after another are spelt as. -/
theorem exists_decodeFrom_iff :
    (∃ is, decodeFrom a bs = .ok is) ↔ ∃ parts : List (List UInt8), parts.flatten = bs ∧
      ∀ part ∈ parts, ∃ i, Spells i part := by
  constructor
  · rintro ⟨is, h⟩
    obtain ⟨htiles, rfl⟩ := decodeFrom_eq_ok_iff.mp h
    refine ⟨is.map fun i => i.toInstruction.bytes, rfl, forall_mem_map.mpr fun i hi => ?_⟩
    exact ⟨i.toInstruction, spells_iff.mpr ⟨htiles.wellFormed i hi, rfl⟩⟩
  · rintro ⟨parts, rfl, hparts⟩
    induction parts generalizing a with
    | nil => exact ⟨[], decodeFrom_eq_ok_iff.mpr ⟨rfl, rfl⟩⟩
    | cons part parts ih =>
      obtain ⟨⟨i, hi⟩, hrest⟩ := forall_mem_cons.mp hparts
      obtain ⟨hwf, rfl⟩ := spells_iff.mp hi
      obtain ⟨is, his⟩ := ih (a := a + i.size) hrest
      obtain ⟨htiles, hbytes⟩ := decodeFrom_eq_ok_iff.mp his
      refine ⟨⟨i, a⟩ :: is, decodeFrom_eq_ok_iff.mpr ⟨⟨rfl, hwf, ?_⟩, ?_⟩⟩
      · rw [flatten_cons, length_append, i.length_bytes, ← Nat.add_assoc]
        exact htiles
      · rw [codeBytes_cons, hbytes, flatten_cons]

/-! ## Scripts -/

/-- `decode` accepts a script exactly if it is a concatenation of what `Spells` instructions, and
then gives the row of instructions that fills it and is written as it. Otherwise a place is
reported: the bytes before it are decoded on their own, no instruction begins there, and the byte
there is said to be no opcode exactly if it is none. In both cases the opcodes of a script are those
of its longest part from the first byte on that is decoded. -/
theorem decode_accepts_grammar (script : List UInt8) :
    ((∃ is, decode script = .ok is) ↔ ∃ parts : List (List UInt8), parts.flatten = script ∧
      ∀ part ∈ parts, ∃ i, Spells i part) ∧
    (∀ is, decode script = .ok is ↔ Tiles 0 is script.length ∧ codeBytes is = script) ∧
    (∀ e, decode script = .error e →
      (∃ is, decode (script.take e.address) = .ok is) ∧
      (∀ i part, Spells i part → ¬ part <+: script.drop e.address) ∧
      ∃ byte, script[e.address]? = some byte ∧
        (e = .unknownOpcode e.address byte ↔ ∀ op : Opcode, op.byte ≠ byte) ∧
        ∀ op : Opcode, op.byte = byte → e = .truncated e.address op.name) ∧
    ∃ front is, front <+: script ∧ decode front = .ok is ∧
      opcodes script = is.map (·.opcode) ∧
      ∀ longer js, longer <+: script → decode longer = .ok js → longer.length ≤ front.length := by
  have hok : ∀ {bs is}, decode bs = .ok is ↔ Tiles 0 is bs.length ∧ codeBytes is = bs := by
    intro bs is
    rw [decode, decodeFrom_eq_ok_iff, Nat.zero_add]
  obtain ⟨is, rest, b, e, htiles, hscript, hstuck, hopcodes, hdecode⟩ := exists_walk 0 script
  have hb := htiles.add_length
  rw [Nat.zero_add] at hb
  have hfront : decode (codeBytes is) = .ok is := hok.mpr ⟨hb ▸ htiles, rfl⟩
  refine ⟨exists_decodeFrom_iff, fun is => hok, fun e' he => ?_, codeBytes is, is, ?_, hfront,
    hopcodes, fun longer js hlonger hjs => ?_⟩
  · rw [decode, hdecode] at he
    split at he
    · cases he
    · next hne =>
      cases he
      cases rest with
      | nil => exact absurd rfl hne
      | cons byte rest =>
        obtain ⟨haddress, hunknown, htruncated⟩ := read_error_cases hstuck
        -- the walk is stuck at the address that the error names
        have hlength : (codeBytes is).length = e.address := hb.trans haddress.symm
        refine ⟨⟨is, ?_⟩, fun i part hpart => ?_, byte, ?_, haddress.symm ▸ hunknown,
          haddress.symm ▸ htruncated⟩
        · rw [hscript, take_left' hlength, hfront]
        · rw [hscript, drop_left' hlength]
          exact not_spells_of_read_error hstuck hpart
        · rw [hscript, getElem?_append_right (Nat.le_of_eq hlength), hlength, Nat.sub_self]
          rfl
  · exact hscript ▸ prefix_append _ _
  · obtain ⟨htiles', rfl⟩ := hok.mp hjs
    exact (codeBytes_mono (htiles.prefix_of_stuck hstuck htiles' (hscript ▸ hlonger))).length_le

/-- Data of two bytes after its length, of which one is there. -/
def cutOff : List UInt8 := [Opcode.nop.byte, Opcode.pushData1.byte, 2, 7]

theorem decode_accepts_grammar_cutOff :
    decode cutOff = .error (.truncated 1 Opcode.pushData1.name) ∧
      (∃ is, decode [Opcode.nop.byte] = .ok is) ∧
      (∀ i part, Spells i part → ¬ part <+: [Opcode.pushData1.byte, 2, 7]) ∧
      ¬ ∃ parts : List (List UInt8), parts.flatten = cutOff ∧ ∀ part ∈ parts, ∃ i, Spells i part := by
  have hdecode : decode cutOff = .error (.truncated 1 Opcode.pushData1.name) := by cbv
  obtain ⟨haccepts, -, herror, -⟩ := decode_accepts_grammar cutOff
  obtain ⟨hbefore, hthere, -⟩ := herror _ hdecode
  refine ⟨hdecode, hbefore, hthere, fun hparts => ?_⟩
  obtain ⟨is, his⟩ := haccepts.mpr hparts
  rw [hdecode] at his
  cases his

end ContractScript
