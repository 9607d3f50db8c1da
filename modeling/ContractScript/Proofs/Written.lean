import ContractScript.Proofs.Content
import ContractScript.Proofs.Placement

/-!
# Cells and the instructions they are written as

The cells of a function are `Written` as instructions, one for each cell that is no marker. A script
consists of what its functions are written as (`Encodes`); collecting the faults of all of them
(`encodeEach`) changes no script.
-/

namespace ContractScript

open List

variable {c : Cell} {t : Targets} {a k : Nat} {is : List Located} {bytes : List UInt8}
  {part : Method × List UInt8} {tokens : TokenTable} {chunks : List Chunk} {script : Script}

/-! ## One function -/

/-- The cells from `a` up to `b` are written as a list of instructions: markers as nothing, each
other cell as its own instruction at its address. -/
inductive Written (t : Targets) : Nat → List Cell → List Located → Nat → Prop where
  | nil {a : Nat} : Written t a [] [] a
  | marker {a b : Nat} {c : Cell} {cs : List Cell} {is : List Located} :
    c.op.operation.isMarker = true → Written t a cs is b → Written t a (c :: cs) is b
  | code {a b : Nat} {c : Cell} {i : Instruction} {cs : List Cell} {is : List Located} :
    c.op.operation.instruction t a c.form = .ok (some i) → Written t (a + i.size) cs is b →
      Written t a (c :: cs) (⟨i, a⟩ :: is) b

theorem width_of_isMarker (h : c.op.operation.isMarker = true) : c.width = 0 :=
  Cell.width_of_size (instruction_of_isMarker h ⟨[], [], 0⟩ 0 c.form).2

/-- The `width` of a cell is the size of its instruction. -/
theorem width_of_instruction {i : Instruction}
    (h : c.op.operation.instruction t a c.form = .ok (some i)) : c.width = i.size :=
  Cell.width_of_size (instruction_reserved h).2

/-- What cells are `Written` as stands in a row. -/
theorem Written.tiles {b : Nat} {cells : List Cell} (h : Written t a cells is b) :
    Tiles a is b := by
  induction h with
  | nil => rfl
  | marker _ _ ih => exact ih
  | code hi _ ih => exact ⟨rfl, (instruction_reserved hi).1, ih⟩

/-- `Cell.bytes` are those of its instruction, and none for a marker. -/
theorem Cell.bytes_eq_ok_iff : c.bytes t a = .ok bytes ↔
      (c.op.operation.isMarker = true ∧ bytes = []) ∨
        ∃ i, c.op.operation.instruction t a c.form = .ok (some i) ∧ bytes = i.bytes := by
  rw [Cell.bytes, bind_eq_ok]
  constructor
  · rintro ⟨found, hfound, h⟩
    cases found with
    | none =>
      cases h
      exact .inl ⟨isMarker_of_instruction hfound, rfl⟩
    | some i =>
      cases h
      exact .inr ⟨i, hfound, rfl⟩
  · rintro (⟨hm, rfl⟩ | ⟨i, hi, rfl⟩)
    · exact ⟨none, (instruction_of_isMarker hm t a c.form).1, rfl⟩
    · exact ⟨some i, hi, rfl⟩

/-- `encodeCells` goes cell by cell. -/
theorem encodeCells_cons_eq_ok_iff {name : String} {as : List Nat} {cs : List Cell} :
    encodeCells t name (a :: as) (c :: cs) = .ok bytes ↔
      ∃ front rest, c.bytes t a = .ok front ∧ encodeCells t name as cs = .ok rest ∧
        bytes = front ++ rest := by
  rw [encodeCells]
  cases c.bytes t a with
  | error fault => simp
  | ok front =>
    cases encodeCells t name as cs with
    | error e => simp
    | ok rest => simp [eq_comm]

/-- `encodeCells` gives the bytes of the instructions that the cells are `Written` as. -/
theorem encodeCells_eq_ok_iff {t : Targets} {name : String} :
    ∀ {a : Nat} {cells : List Cell} {bytes : List UInt8},
      encodeCells t name (addressesFrom a cells) cells = .ok bytes ↔
        ∃ is, Written t a cells is (a + totalWidth cells) ∧ bytes = codeBytes is
  | a, [], bytes => by
    constructor
    · intro h
      cases h
      exact ⟨[], .nil, rfl⟩
    · rintro ⟨is, h, rfl⟩
      cases h
      rfl
  | a, c :: cs, bytes => by
    rw [addressesFrom, encodeCells_cons_eq_ok_iff, totalWidth, ← Nat.add_assoc]
    simp only [Cell.bytes_eq_ok_iff, encodeCells_eq_ok_iff]
    constructor
    · rintro ⟨front, rest, ⟨hm, rfl⟩ | ⟨i, hi, rfl⟩, ⟨is, his, rfl⟩, rfl⟩
      · rw [width_of_isMarker hm, Nat.add_zero] at his ⊢
        exact ⟨is, .marker hm his, rfl⟩
      · rw [width_of_instruction hi] at his ⊢
        exact ⟨⟨i, a⟩ :: is, .code hi his, (codeBytes_cons ⟨i, a⟩ is).symm⟩
    · rintro ⟨is, h, rfl⟩
      cases h with
      | marker hm h =>
        rw [width_of_isMarker hm, Nat.add_zero] at h ⊢
        exact ⟨[], codeBytes is, .inl ⟨hm, rfl⟩, ⟨is, h, rfl⟩, rfl⟩
      | code hi h =>
        rw [width_of_instruction hi] at h ⊢
        exact ⟨_, _, .inr ⟨_, hi, rfl⟩, ⟨_, h, rfl⟩, codeBytes_cons _ _⟩

/-! ## All functions -/

/-- The address where the function at a position starts. -/
def startOf (chunks : List Chunk) (k : Nat) : Nat :=
  addressAt chunks (placeOf chunks k)

/-- The function at a position can be written as a list of instructions. -/
def WrittenAt (tokens : TokenTable) (chunks : List Chunk) (k : Nat) (c : Chunk)
    (is : List Located) : Prop :=
  Written (targetsOf tokens chunks k c) (startOf chunks k) c.cells is
    (startOf chunks k + totalWidth c.cells)

/-- The `Method` that the function at a position becomes. -/
def methodAt (chunks : List Chunk) (k : Nat) (c : Chunk) : Method :=
  ⟨c.id, c.name, startOf chunks k, startOf chunks k + totalWidth c.cells,
    sequencePoints (addressesFrom (startOf chunks k) c.cells) c.cells⟩

/-- The outcome of encoding the function at a position. -/
def encodedAt (tokens : TokenTable) (chunks : List Chunk) (k : Nat) (c : Chunk) :
    Except EncodingError (Method × List UInt8) :=
  encodeChunk (layoutOf chunks).starts tokens.size c (startOf chunks k)
    (c.placedFrom (startOf chunks k))

/-- `encodeChunk` puts a method around the bytes of its cells. -/
theorem encodeChunk_eq_ok_iff {starts : List Nat} {count : Nat} {c : Chunk} {start : Nat}
    {p : Placement} : encodeChunk starts count c start p = .ok part ↔
      ∃ bytes, encodeCells ⟨p.labels, starts, count⟩ c.name p.addresses c.cells = .ok bytes ∧
        part = (⟨c.id, c.name, start, p.stop, sequencePoints p.addresses c.cells⟩, bytes) := by
  rw [encodeChunk]
  cases encodeCells ⟨p.labels, starts, count⟩ c.name p.addresses c.cells with
  | error e => simp
  | ok bytes => simp [eq_comm]

/-- `encodedAt` succeeds if the function can be written. -/
theorem encodedAt_eq_ok_iff {c : Chunk} : encodedAt tokens chunks k c = .ok part ↔
      ∃ is, WrittenAt tokens chunks k c is ∧ part = (methodAt chunks k c, codeBytes is) := by
  rw [encodedAt, encodeChunk_eq_ok_iff]
  constructor
  · rintro ⟨bytes, hbytes, rfl⟩
    obtain ⟨is, his, rfl⟩ := encodeCells_eq_ok_iff.mp hbytes
    exact ⟨is, his, rfl⟩
  · rintro ⟨is, his, rfl⟩
    exact ⟨codeBytes is, encodeCells_eq_ok_iff.mpr ⟨is, his, rfl⟩, rfl⟩

/-- `encodeChunks` encodes each function at its own position. -/
theorem getElem?_encodeChunks (tokens : TokenTable) (h : Sized (allCells chunks)) (k : Nat) :
    (encodeChunks (layoutOf chunks) tokens chunks)[k]? =
      chunks[k]?.map (encodedAt tokens chunks k) := by
  rw [encodeChunks, getElem?_map, List.zip, getElem?_zipWith, getElem?_layoutOf h k]
  cases chunks[k]? with
  | none => rfl
  | some c => rfl

/-- What a `Script` of functions consists of: their methods in order, and their instructions back to
back from the starts of the methods on. -/
structure Encodes (tokens : TokenTable) (chunks : List Chunk) (script : Script) : Prop where
  fits : Fits chunks
  method : ∀ k, script.methods[k]? = chunks[k]?.map (methodAt chunks k)
  code : ∀ k c, chunks[k]? = some c → ∃ is rest, WrittenAt tokens chunks k c is ∧
    script.bytes.drop (startOf chunks k) = codeBytes is ++ rest
  length : script.bytes.length = totalWidth (allCells chunks)

/-- The bytes of a function are as many as its cells take. -/
theorem length_codeBytes {c : Chunk} (h : WrittenAt tokens chunks k c is) :
    (codeBytes is).length = totalWidth c.cells := by
  have := h.tiles.add_length
  omega

theorem length_parts : ∀ {chunks : List Chunk} {parts : List (Method × List UInt8)},
    List.Forall₂ (fun c part => part.2.length = totalWidth c.cells) chunks parts →
      (parts.flatMap Prod.snd).length = totalWidth (allCells chunks)
  | [], [], .nil => rfl
  | c :: cs, part :: parts, .cons h hrest => by
    rw [flatMap_cons, length_append, h, length_parts hrest, allCells_cons,
      totalWidth_append]

/-- The bytes of a part stand where its function starts. -/
theorem drop_parts {parts : List (Method × List UInt8)}
    (h : List.Forall₂ (fun c part => part.2.length = totalWidth c.cells) chunks parts)
    (hk : parts[k]? = some part) : (parts.flatMap Prod.snd).drop (startOf chunks k) =
      part.2 ++ (parts.drop (k + 1)).flatMap Prod.snd := by
  obtain ⟨hbound, hget⟩ := List.getElem?_eq_some_iff.mp hk
  -- the parts before this one are as long as the start of the function says
  have hfront := length_parts (forall₂_take k h)
  rw [← addressAt_placeOf] at hfront
  rw [startOf, ← hfront]
  conv =>
    lhs
    rw [← take_append_drop k parts, flatMap_append]
  rw [drop_left', drop_eq_getElem_cons hbound, flatMap_cons, hget]
  rw [take_append_drop]

/-- `encode` gives a script of what its functions are written as. -/
theorem encodes_of_encode (h : encode tokens chunks = .ok script) :
    Encodes tokens chunks script := by
  simp only [encode, bind_eq_ok, layout_eq_ok_iff, mapM_eq_ok_iff] at h
  obtain ⟨_, ⟨hfits, rfl⟩, parts, hparts, h⟩ := h
  cases h
  obtain ⟨hlen, hparts⟩ := forall₂_iff_getElem?.mp hparts
  have hlen : parts.length = chunks.length := by
    rw [← hlen, encodeChunks, length_map, length_zip, layoutOf, length_placeChunks,
      Nat.min_self]
  -- each part is the method of its function with the bytes that it is written as
  have hpart : ∀ k c, chunks[k]? = some c →
      ∃ is, WrittenAt tokens chunks k c is ∧
        parts[k]? = some (methodAt chunks k c, codeBytes is) := by
    intro k c hk
    have hoption := getElem?_encodeChunks tokens hfits.1 k
    rw [hk] at hoption
    obtain ⟨part, hpart⟩ := exists_getElem? hlen hk
    obtain ⟨is, his, rfl⟩ := encodedAt_eq_ok_iff.mp (hparts k _ part hoption hpart)
    exact ⟨is, his, hpart⟩
  have hlengths :
      List.Forall₂ (fun c part => part.2.length = totalWidth c.cells) chunks parts := by
    refine forall₂_iff_getElem?.mpr ⟨hlen.symm, fun k c part hc hpart' => ?_⟩
    obtain ⟨is, his, heq⟩ := hpart k c hc
    cases Option.some.inj (hpart'.symm.trans heq)
    exact length_codeBytes his
  refine ⟨hfits, fun k => ?_, fun k c hk => ?_, length_parts hlengths⟩
  · show (parts.map Prod.fst)[k]? = _
    rw [getElem?_map]
    cases hk : chunks[k]? with
    | none =>
      rw [getElem?_eq_none (hlen ▸ List.getElem?_eq_none_iff.mp hk)]
      rfl
    | some c =>
      obtain ⟨is, -, heq⟩ := hpart k c hk
      rw [heq]
      rfl
  · obtain ⟨is, his, heq⟩ := hpart k c hk
    exact ⟨is, _, his, drop_parts hlengths heq⟩

/-- `encode` succeeds for code that `Fits` if each of its functions can be written. -/
theorem exists_encode (hfits : Fits chunks)
    (h : ∀ k c, chunks[k]? = some c → ∃ is, WrittenAt tokens chunks k c is) :
    ∃ script, encode tokens chunks = .ok script := by
  have hparts : ∃ parts, (encodeChunks (layoutOf chunks) tokens chunks).mapM id = .ok parts := by
    refine exists_mapM_eq_ok fun outcome houtcome => ?_
    obtain ⟨k, hk⟩ := mem_iff_getElem?.mp houtcome
    rw [getElem?_encodeChunks tokens hfits.1, Option.map_eq_some_iff] at hk
    obtain ⟨c, hc, rfl⟩ := hk
    obtain ⟨is, his⟩ := h k c hc
    exact ⟨_, encodedAt_eq_ok_iff.mpr ⟨is, his, rfl⟩⟩
  obtain ⟨parts, hparts⟩ := hparts
  refine ⟨joinMethods parts, ?_⟩
  rw [encode, bind_eq_ok]
  exact ⟨_, layout_eq_ok_iff.mpr ⟨hfits, rfl⟩, bind_eq_ok.mpr ⟨parts, hparts, rfl⟩⟩

/-! ## Faults of all functions together -/

/-- All outcomes succeed exactly if none of them failed. -/
theorem mapM_id_eq_ok_iff {α : Type} :
    ∀ {outcomes : List (Except EncodingError α)} {parts : List α},
    outcomes.mapM id = .ok parts ↔ failures outcomes = [] ∧ successes outcomes = parts
  | [], parts => by
    rw [mapM_nil]
    exact ⟨fun h => ⟨rfl, Except.ok.inj h⟩, fun h => congrArg Except.ok h.2⟩
  | outcome :: outcomes, parts => by
    rw [mapM_cons, bind_eq_ok]
    simp only [bind_eq_ok, mapM_id_eq_ok_iff]
    cases outcome with
    | error e =>
      constructor
      · rintro ⟨_, h, _⟩
        cases h
      · rintro ⟨h, _⟩
        cases h
    | ok part =>
      constructor
      · rintro ⟨_, h, _, ⟨hfail, rfl⟩, hparts⟩
        cases h
        cases hparts
        exact ⟨hfail, rfl⟩
      · rintro ⟨hfail, rfl⟩
        exact ⟨part, rfl, _, ⟨hfail, rfl⟩, rfl⟩

/-- Of code that fits, every function is placed in full. -/
theorem filter_placed (hfits : Fits chunks) :
    (chunks.zip (layoutOf chunks).functions).filter (fun f => f.2.2.fault.isNone) =
      chunks.zip (layoutOf chunks).functions := by
  rw [filter_eq_self]
  rintro ⟨c, f⟩ hf
  rw [(faults_placeChunks 0).mpr hfits.1 f (of_mem_zip hf).2]
  rfl

/-- `encodeEach` and `encode` succeed on the same code, with the same script. -/
theorem encodeEach_eq_ok_iff :
    encodeEach tokens chunks = .ok script ↔ encode tokens chunks = .ok script := by
  rw [encode, bind_eq_ok]
  simp only [layout_eq_ok_iff, bind_eq_ok, mapM_id_eq_ok_iff]
  constructor
  · intro h
    unfold encodeEach at h
    dsimp only at h
    split at h
    · next hnil =>
      obtain ⟨hfaults, hfail⟩ := append_eq_nil_iff.mp hnil
      have hfits := layoutEach_eq_nil_iff.mp hfaults
      rw [layoutEach_of_sized hfits.1, filter_placed hfits] at hfail h
      cases h
      exact ⟨_, ⟨hfits, rfl⟩, _, ⟨hfail, rfl⟩, rfl⟩
    · cases h
  · rintro ⟨_, ⟨hfits, rfl⟩, _, ⟨hfail, rfl⟩, h⟩
    cases h
    rw [encodeChunks] at hfail
    unfold encodeEach
    dsimp only
    rw [layoutEach_of_sized hfits.1, layoutEach_eq_nil_iff.mpr hfits, filter_placed hfits,
      nil_append, hfail]
    rfl

end ContractScript
