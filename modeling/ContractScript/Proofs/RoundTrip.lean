import ContractScript.Proofs.Shortening

/-!
# Decoding undoes encoding

The bytes of a method decode to what the operations of its function say (`DecodesTo`), whatever
rounds of shortening came before. No offset is cut off on the way, in either form.
-/

namespace ContractScript

open List

variable {t : Targets} {a k j : Nat} {offsets : List (Option Int)} {chunks : List Chunk} {c : Chunk}
  {is : List Located} {tokens : TokenTable}

/-- The offsets of a branch come from what it refers to. -/
theorem exists_of_mem_offsets {refs : List (Option Reference)}
    (h : List.Forall₂ (OffsetOf t a) refs offsets) {offset : Int} (hmem : some offset ∈ offsets) :
    ∃ r target, some r ∈ refs ∧ t.resolve r = .ok target ∧ offset = (target : Int) - a := by
  obtain ⟨k, hk⟩ := mem_iff_getElem?.mp hmem
  obtain ⟨hlen, hall⟩ := forall₂_iff_getElem?.mp h
  obtain ⟨ref, href⟩ := exists_getElem? hlen hk
  have hoffset := hall k ref _ href hk
  cases ref with
  | none => cases hoffset
  | some r =>
    obtain ⟨target, htarget, heq⟩ := hoffset
    exact ⟨r, target, mem_of_getElem? href, htarget, Option.some.inj heq⟩

/-- No offset is cut off: a long one reaches across every script, a short one was measured. -/
theorem offsetsFit (tokens : TokenTable) (hfits : Fits chunks) (hreach : ShortReach chunks)
    (hk : chunks[k]? = some c) {cell : Cell} (hj : c.cells[j]? = some cell)
    (h : cell.op.operation.offsets (targetsOf tokens chunks k c)
      (startOf chunks k + totalWidth (c.cells.take j)) = .ok offsets) :
    OffsetsFit cell.form offsets := by
  intro offset hmem
  cases hb : cell.op.operation.branch? with
  | none =>
    rw [offsets_of_branch?_eq_none hb] at h
    cases h
    cases hmem
  | some branch =>
    obtain ⟨r, target, hr, htarget, rfl⟩ :=
      exists_of_mem_offsets ((offsets_eq_ok_iff hb).mp h) hmem
    obtain ⟨place, hplace, rfl⟩ := (resolve_eq_ok_iff tokens hfits.1 hk).mp htarget
    rw [← addressAt_cell hk hj]
    cases hform : cell.form with
    | short => exact hreach k c j cell hk hj hform branch.1 branch.2 hb r place hr hplace
    | long =>
      -- the layout refuses code that four bytes do not reach across
      have htotal : totalWidth (allCells chunks) ≤ 2147483647 := hfits.2
      have h₁ := addressAt_le chunks place
      have h₂ := addressAt_le chunks (placeOf chunks k + j)
      show -(4294967296 : Int) ≤ _ ∧ _ < (4294967296 : Int)
      omega

/-- The cells that are no markers, with their addresses, are what the instructions come from. -/
theorem Written.forall₂ {b : Nat} {cells : List Cell} (h : Written t a cells is b) : List.Forall₂
      (fun (x : Nat × Cell) (i : Located) => i.address = x.1 ∧
        x.2.op.operation.instruction t x.1 x.2.form = .ok (some i.toInstruction))
      (((addressesFrom a cells).zip cells).filter fun x => !x.2.op.operation.isMarker) is := by
  induction h with
  | nil => exact .nil
  | @marker a b c cs is hm _ ih =>
    rw [addressesFrom, zip_cons_cons, filter_cons_of_neg (by rw [hm]; decide),
      width_of_isMarker hm]
    exact ih
  | @code a b c i cs is hi _ ih =>
    have hm := not_isMarker_of_instruction hi
    rw [addressesFrom, zip_cons_cons, filter_cons_of_pos (by rw [hm]; decide),
      width_of_instruction hi]
    exact .cons ⟨rfl, hi⟩ ih

/-- The address of a cell counts the cells before it. -/
theorem getElem?_addressesFrom {c : Cell} : ∀ {a : Nat} {cells : List Cell},
    cells[j]? = some c → (addressesFrom a cells)[j]? = some (a + totalWidth (cells.take j)) := by
  induction j with
  | zero =>
    intro a cells h
    cases cells with
    | nil => cases h
    | cons c' cs => rfl
  | succ j ih =>
    intro a cells h
    cases cells with
    | nil => cases h
    | cons c' cs =>
      rw [addressesFrom, getElem?_cons_succ, ih h, take_succ_cons, totalWidth,
        Nat.add_assoc]

/-! ## Every method -/

/-- What the operations of a function that is placed as `p` says can refer to. -/
def Layout.targets (l : Layout) (tokens : TokenTable) (p : Placement) : Targets :=
  ⟨p.labels, l.starts, tokens.size⟩

/-- The instructions that the bytes of a `Method` decode to. -/
def Script.decodeMethod (s : Script) (m : Method) : Except DecodeError (List Located) :=
  decodeFrom m.start ((s.bytes.drop m.start).take (m.stop - m.start))

/-- `decodeMethod` gives what the function is written as. -/
theorem Encodes.decodeMethod_eq {script : Script} (h : Encodes tokens chunks script)
    (hk : chunks[k]? = some c) : ∃ is, WrittenAt tokens chunks k c is ∧
      script.decodeMethod (methodAt chunks k c) = .ok is := by
  obtain ⟨is, rest, hw, hbytes⟩ := h.code k c hk
  refine ⟨is, hw, ?_⟩
  have htake : (methodAt chunks k c).stop - (methodAt chunks k c).start =
      (codeBytes is).length := by
    rw [length_codeBytes hw]
    exact Nat.add_sub_cancel_left _ _
  rw [Script.decodeMethod, htake]
  show decodeFrom _ ((script.bytes.drop (startOf chunks k)).take _) = _
  rw [hbytes, take_left]
  exact decodeFrom_of_tiles hw.tiles

/-- The bytes of a `Method` decode to one instruction for each operation of its function that is no
marker, in order, at the address of the operation and with all that the operation says. -/
structure DecodesTo (script : Script) (t : Targets) (r : Routine) (p : Placement) (m : Method) :
    Prop where
  length_eq : p.addresses.length = r.ops.length
  decoded : ∃ is, script.decodeMethod m = .ok is ∧
    List.Forall₂ (fun x i => i.address = x.1 ∧ x.2.operation.CarriedBy t i)
      ((p.addresses.zip r.ops).filter fun x => !x.2.operation.isMarker) is

/-- The operations of a function are `CarriedBy` what its cells are written as. -/
theorem carriedBy_of_writtenAt (hfits : Fits chunks) (hreach : ShortReach chunks)
    (hk : chunks[k]? = some c) (hw : WrittenAt tokens chunks k c is)
    (hown : ∀ x ∈ (addressesFrom (startOf chunks k) c.cells).zip c.ops,
      x.2.operation.NotOwnHandler (targetsOf tokens chunks k c) x.1) :
    List.Forall₂
      (fun x i => i.address = x.1 ∧ x.2.operation.CarriedBy (targetsOf tokens chunks k c) i)
      (((addressesFrom (startOf chunks k) c.cells).zip c.ops).filter
        fun x => !x.2.operation.isMarker) is := by
  -- an operation is looked at together with its cell, which has its form
  rw [Chunk.ops, zip_map_right] at hown ⊢
  rw [filter_map, forall₂_map_left_iff]
  have hcells : ∀ x ∈ ((addressesFrom (startOf chunks k) c.cells).zip c.cells).filter
      (fun x => !x.2.op.operation.isMarker),
      ∃ j, c.cells[j]? = some x.2 ∧ x.1 = startOf chunks k + totalWidth (c.cells.take j) ∧
        x.2.op.operation.NotOwnHandler (targetsOf tokens chunks k c) x.1 := by
    intro x hx
    have hx := (mem_filter.mp hx).1
    obtain ⟨j, hj⟩ := mem_iff_getElem?.mp hx
    obtain ⟨ha, hcell⟩ := getElem?_zip_eq_some.mp hj
    rw [getElem?_addressesFrom hcell] at ha
    exact ⟨j, hcell, (Option.some.inj ha).symm, hown _ (mem_map_of_mem hx)⟩
  refine List.Forall₂.imp ?_ ((forall₂_and_left _ _).mpr ⟨hcells, hw.forall₂⟩)
  rintro ⟨a, cell⟩ ⟨i, address⟩ ⟨⟨j, hj, ha, hnot⟩, haddress, hi⟩
  cases haddress
  refine ⟨rfl, carriedBy_of_instruction tokens.size_le hi (fun offsets hoffsets => ?_) hnot⟩
  refine offsetsFit tokens hfits hreach hk hj ?_
  rw [← ha]
  exact hoffsets

/-- Decoding undoes `encode`: each method of a script `DecodesTo` the operations of its function, at
the addresses and with the targets of the layout, whichever branches are short. -/
theorem decode_encode {tokens : TokenTable} {routines : List Routine} {chunks : List Chunk}
    {script : Script} {l : Layout} (hshort : Shortens tokens (routines.map Chunk.ofRoutine) chunks)
    (hencode : encode tokens chunks = .ok script) (hlayout : layout chunks = .ok l)
    (hown : ∀ f ∈ routines.zip l.functions, ∀ x ∈ f.2.2.addresses.zip f.1.ops,
      x.2.operation.NotOwnHandler (l.targets tokens f.2.2) x.1) :
    script.methods.length = routines.length ∧ l.functions.length = routines.length ∧
      ∀ (k : Nat) r start p m, routines[k]? = some r → l.functions[k]? = some (start, p) →
        script.methods[k]? = some m →
          m.start = start ∧ m.stop = p.stop ∧ DecodesTo script (l.targets tokens p) r p m := by
  have hencodes := encodes_of_encode hencode
  have hfits := hencodes.fits
  obtain ⟨-, rfl⟩ := layout_eq_ok_iff.mp hlayout
  obtain ⟨hlen, hnarrows⟩ := forall₂_iff_getElem?.mp (narrows_of_shortens hshort)
  rw [length_map] at hlen
  have hmethods : script.methods.length = chunks.length := length_eq_of_getElem? hencodes.method
  refine ⟨hmethods.trans hlen.symm, (length_placeChunks 0 chunks).trans hlen.symm, ?_⟩
  intro k r start p m hr hf hm
  obtain ⟨c, hk⟩ := exists_getElem? hlen.symm hr
  -- the cells of the function have the operations of the routine
  have hnarrow := hnarrows k (Chunk.ofRoutine r) c (by rw [getElem?_map, hr]; rfl) hk
  have hops : c.ops = r.ops := by
    rw [Chunk.ops, map_op_of_narrows hnarrow.cells]
    exact Chunk.ops_ofRoutine r
  rw [getElem?_layoutOf hfits.1, hk] at hf
  rw [hencodes.method, hk] at hm
  cases hf
  cases hm
  obtain ⟨is, hw, hdecode⟩ := hencodes.decodeMethod_eq hk
  refine ⟨rfl, rfl, ?_, is, hdecode, ?_⟩
  · show (addressesFrom _ c.cells).length = _
    rw [length_addressesFrom, ← hops, Chunk.ops, length_map]
  · have hmem : (r, startOf chunks k, c.placedFrom (startOf chunks k)) ∈
        routines.zip (layoutOf chunks).functions := by
      refine mem_of_getElem? (getElem?_zip_eq_some.mpr ⟨hr, ?_⟩)
      rw [getElem?_layoutOf hfits.1, hk]
      rfl
    have hnot := hown _ hmem
    dsimp only at hnot
    rw [← hops] at hnot ⊢
    exact carriedBy_of_writtenAt hfits (shortReach_of_shortens hshort) hk hw hnot

/-- The code of a `Routine` with every branch short. -/
def Chunk.allShort (r : Routine) : Chunk :=
  ⟨r.id, r.name, r.ops.map fun op => ⟨op, if op.operation.branch?.isSome then .short else .long⟩⟩

/-- A function with a protected region, a conditional jump, slots and a call. -/
def guarded : Routine where
  id := 0
  name := "guarded"
  ops := [⟨.initSlots 8 1, none⟩, ⟨.try (some 1) none, none⟩, ⟨.load .argument 0, none⟩,
    ⟨.jump .ifTrue 2, none⟩, ⟨.pushInt 300, none⟩, ⟨.store .local 7, none⟩, ⟨.label 2, none⟩,
    ⟨.endTry 3, none⟩, ⟨.label 1, none⟩, ⟨.simple .drop, none⟩, ⟨.endTry 3, none⟩,
    ⟨.label 3, none⟩, ⟨.call 1, none⟩, ⟨.return, none⟩]

/-- A function that pushes data. -/
def constant : Routine where
  id := 1
  name := "constant"
  ops := [⟨.pushData [7, 8], none⟩, ⟨.return, none⟩]

/-- The `Script` of both, with every branch short. -/
def guardedScript : Script :=
  ⟨[87, 8, 1, 59, 13, 0, 120, 36, 7, 1, 44, 1, 119, 7, 61, 5, 69, 61, 2, 52, 3, 64,
    12, 2, 7, 8, 64],
    [⟨0, "guarded", 0, 22, []⟩, ⟨1, "constant", 22, 27, []⟩]⟩

theorem decode_encode_guarded :
    encode {} ([guarded, constant].map Chunk.allShort) = .ok guardedScript ∧
      ∃ p, DecodesTo guardedScript ⟨[(2, 14), (1, 16), (3, 19)], [0, 22], 0⟩ guarded p
        ⟨0, "guarded", 0, 22, []⟩ := by
  have hencode : encode {} ([guarded, constant].map Chunk.allShort) = .ok guardedScript := rfl
  have hround : shortenRound {} ([guarded, constant].map Chunk.ofRoutine) =
      .ok ([guarded, constant].map Chunk.allShort) := rfl
  have hmethods := (decode_encode (.round .none hround) hencode rfl (by decide +kernel)).2.2
  exact ⟨hencode, _, (hmethods 0 guarded _ _ _ rfl rfl rfl).2.2⟩

end ContractScript
