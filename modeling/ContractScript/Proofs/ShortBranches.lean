import ContractScript.Proofs.Checked
import ContractScript.Script.Build

/-!
# Short branches do not change the program

The script with short branches is compared to the one without them, method by method and
instruction by instruction (`SameMethod`). Addresses differ, so a target is compared by what it
denotes: the number of an instruction in its method, or the number of a method (`SameTarget`).
-/

namespace ContractScript

open List

variable {t t' : Targets} {a n j a' : Nat} {i : Located} {opcode : Opcode} {slot slot' : Option Int}
  {script script' : Script} {routines : List Routine}

/-- Two targets are absent both, or they stand at the same index of two lists of addresses. -/
def SameTarget (addresses addresses' : List Nat) (target target' : Option Int) : Prop :=
  (target = none ∧ target' = none) ∨
    ∃ n a a' : Nat, addresses[n]? = some a ∧ addresses'[n]? = some a' ∧
      target = some (a : Int) ∧ target' = some (a' : Int)

/-- Two instructions have the same opcode but for its form, and the same operand or, if they
branch, the same targets: starts of methods for a call, else instructions of the method. -/
structure SameInstruction (starts starts' addresses addresses' : List Nat) (i i' : Located) :
    Prop where
  opcode_eq : i'.opcode.longForm = i.opcode.longForm
  operand_eq : i.opcode.isBranch = false → i'.operand = i.operand
  call : i.opcode.longForm = .callL →
    List.Forall₂ (SameTarget starts starts') i.targetSlots i'.targetSlots
  branch : i.opcode.longForm ≠ .callL →
    List.Forall₂ (SameTarget addresses addresses') i.targetSlots i'.targetSlots

/-- Two places of the source are the same, at the same index of two lists of addresses. -/
def SamePoint (addresses addresses' : List Nat) (point point' : Nat × Span) : Prop :=
  point'.2 = point.2 ∧ ∃ n : Nat, addresses[n]? = some point.1 ∧ addresses'[n]? = some point'.1

/-- Two `Method`s of two scripts mean the same. -/
structure SameMethod (script script' : Script) (m m' : Method) : Prop where
  id_eq : m'.id = m.id
  name_eq : m'.name = m.name
  code : ∃ is is', script.decodeMethod m = .ok is ∧ script'.decodeMethod m' = .ok is' ∧
    List.Forall₂
      (SameInstruction (script.methods.map (·.start)) (script'.methods.map (·.start))
        (is.map (·.address)) (is'.map (·.address))) is is' ∧
    List.Forall₂ (SamePoint (bounds is m.stop) (bounds is' m'.stop)) m.points m'.points

/-! ## Instructions side by side -/

/-- Instructions that come from the same place. -/
def FromCells (t t' : Targets) (a a' : Nat) (cells cells' : List Cell) (i i' : Located) : Prop :=
  ∃ j cell cell', cells[j]? = some cell ∧ cells'[j]? = some cell' ∧ cell.Narrows cell' ∧
    i.address = a + totalWidth (cells.take j) ∧ i'.address = a' + totalWidth (cells'.take j) ∧
    cell.op.operation.instruction t i.address cell.form = .ok (some i.toInstruction) ∧
    cell'.op.operation.instruction t' i'.address cell'.form = .ok (some i'.toInstruction)

/-- `FromCells` with one more cell before both. -/
theorem FromCells.cons {t t' : Targets} {a a' : Nat} {c c' : Cell} {cs cs' : List Cell}
    {i i' : Located} (h : FromCells t t' (a + c.width) (a' + c'.width) cs cs' i i') :
    FromCells t t' a a' (c :: cs) (c' :: cs') i i' := by
  obtain ⟨j, cell, cell', hj, hj', hn, haddress, haddress', hi, hi'⟩ := h
  refine ⟨j + 1, cell, cell', hj, hj', hn, ?_, ?_, hi, hi'⟩
  · rw [haddress, take_succ_cons, totalWidth, Nat.add_assoc]
  · rw [haddress', take_succ_cons, totalWidth, Nat.add_assoc]

/-- Cells and narrower cells are written as instructions that come from the same places. -/
theorem Written.fromCells {b : Nat} {cells : List Cell} {is : List Located}
    (h : Written t a cells is b) :
    ∀ {a' b' : Nat} {cells' : List Cell} {is' : List Located}, Written t' a' cells' is' b' →
      List.Forall₂ Cell.Narrows cells cells' →
        List.Forall₂ (FromCells t t' a a' cells cells') is is' := by
  induction h with
  | nil =>
    intro a' b' cells' is' h' hn
    cases hn
    cases h'
    exact .nil
  | @marker a b c cs is hm _ ih =>
    intro a' b' cells' is' h' hn
    obtain ⟨c', cs', hc, hcs, rfl⟩ := forall₂_cons_left_iff.mp hn
    have hm' : c'.op.operation.isMarker = true := hc.1 ▸ hm
    cases h' with
    | marker _ h' =>
      refine List.Forall₂.imp (fun i i' hi => FromCells.cons ?_) (ih h' hcs)
      rw [width_of_isMarker hm, width_of_isMarker hm']
      exact hi
    | code hi' _ =>
      rw [not_isMarker_of_instruction hi'] at hm'
      cases hm'
  | @code a b c i cs is hi _ ih =>
    intro a' b' cells' is' h' hn
    obtain ⟨c', cs', hc, hcs, rfl⟩ := forall₂_cons_left_iff.mp hn
    cases h' with
    | marker hm' _ =>
      rw [hc.1, not_isMarker_of_instruction hi] at hm'
      cases hm'
    | code hi' h' =>
      refine .cons ⟨0, c, c', rfl, rfl, hc, rfl, rfl, hi, hi'⟩ ?_
      refine List.Forall₂.imp (fun i₁ i₁' hi₁ => FromCells.cons ?_) (ih h' hcs)
      rw [width_of_instruction hi, width_of_instruction hi']
      exact hi₁

/-- What is no branch has no targets. -/
theorem Located.targetSlots_of_not_branch (h : i.opcode.isBranch = false) : i.targetSlots = [] := by
  have hno : ¬ i.opcode.longForm = .tryL := by
    intro hlong
    rcases Opcode.longForm_eq_tryL hlong with heq | heq <;>
    · rw [heq] at h
      cases h
  rw [Located.targetSlots]
  dsimp only
  rw [if_neg hno, h]
  rfl

/-! ## Targets side by side -/

/-- The function at a position of some code and of narrower code, and what both are written as. -/
structure SideBySide (tokens : TokenTable) (chunks chunks' : List Chunk) (k : Nat) (c c' : Chunk)
    (is is' : List Located) : Prop where
  narrows : List.Forall₂ Chunk.Narrows chunks chunks'
  fits : Fits chunks
  fits' : Fits chunks'
  reach : ShortReach chunks
  reach' : ShortReach chunks'
  get : chunks[k]? = some c
  get' : chunks'[k]? = some c'
  written : WrittenAt tokens chunks k c is
  written' : WrittenAt tokens chunks' k c' is'

/-- In a list without repetition, elements are equal exactly if their indices are. -/
theorem eq_iff_index_eq {xs : List Nat} (h : xs.Nodup) {m x y : Nat} (hx : xs[m]? = some x)
    (hy : xs[n]? = some y) : x = y ↔ m = n := by
  rw [← getElem?_inj (List.getElem?_eq_some_iff.mp hx).1 h, hx, hy, Option.some.injEq]

namespace SideBySide

variable {tokens : TokenTable} {chunks chunks' : List Chunk} {k : Nat} {c c' : Chunk}
  {is is' : List Located}

section

variable (h : SideBySide tokens chunks chunks' k c c' is is')
include h

/-- A function `Narrows` to the one beside it. -/
theorem chunk : c.Narrows c' :=
  (forall₂_iff_getElem?.mp h.narrows).2 k c c' h.get h.get'

theorem ops_eq : c'.ops = c.ops :=
  map_op_of_narrows h.chunk.cells

/-- A place is the same boundary in both. -/
theorem getElem?_bounds (hj : j ≤ c.cells.length) :
    (bounds is (startOf chunks k + totalWidth c.cells))[codeCount (c.ops.take j)]? =
        some (startOf chunks k + totalWidth (c.cells.take j)) ∧
      (bounds is' (startOf chunks' k + totalWidth c'.cells))[codeCount (c.ops.take j)]? =
        some (startOf chunks' k + totalWidth (c'.cells.take j)) := by
  refine ⟨h.written.getElem?_bounds hj, ?_⟩
  rw [← h.ops_eq]
  exact h.written'.getElem?_bounds (h.chunk.cells.length_eq ▸ hj)

/-- Two places have one address in both or in neither. -/
theorem address_eq_iff (hj : j ≤ c.cells.length) (hn : n ≤ c.cells.length) :
    startOf chunks k + totalWidth (c.cells.take n) =
        startOf chunks k + totalWidth (c.cells.take j) ↔
      startOf chunks' k + totalWidth (c'.cells.take n) =
        startOf chunks' k + totalWidth (c'.cells.take j) := by
  rw [eq_iff_index_eq h.written.tiles.nodup_bounds (h.getElem?_bounds hn).1
      (h.getElem?_bounds hj).1,
    eq_iff_index_eq h.written'.tiles.nodup_bounds (h.getElem?_bounds hn).2 (h.getElem?_bounds hj).2]

/-- A label that something is left after denotes the same instruction in both. -/
theorem sameTarget_label (hn : n ≤ c.cells.length)
    (hcovered : codeCount (c.ops.take n) < codeCount c.ops) :
    SameTarget (is.map (·.address)) (is'.map (·.address))
      (some ((startOf chunks k + totalWidth (c.cells.take n) : Nat) : Int))
      (some ((startOf chunks' k + totalWidth (c'.cells.take n) : Nat) : Int)) := by
  obtain ⟨hbound, hbound'⟩ := h.getElem?_bounds hn
  refine .inr ⟨codeCount (c.ops.take n), _, _, ?_, ?_, rfl, rfl⟩
  · have hlt : codeCount (c.ops.take n) < (is.map (·.address)).length := by
      rw [length_map, h.written.length_eq]
      exact hcovered
    rwa [bounds, getElem?_append_left hlt] at hbound
  · have hlt : codeCount (c.ops.take n) < (is'.map (·.address)).length := by
      rw [length_map, h.written'.length_eq, ← Chunk.ops, h.ops_eq]
      exact hcovered
    rwa [bounds, getElem?_append_left hlt] at hbound'

/-- A reference to a label of a `Covered` function reads back as the same target in both. -/
theorem sameTarget_of_label (hj : j ≤ c.cells.length) {l : Label}
    (hcovered : ∀ n, lastPlace? l c.ops = some n → codeCount (c.ops.take n) < codeCount c.ops)
    (hslot : SlotOf (targetsOf tokens chunks k c) opcode
      (startOf chunks k + totalWidth (c.cells.take j)) (some (.label l)) slot)
    (hslot' : SlotOf (targetsOf tokens chunks' k c') opcode
      (startOf chunks' k + totalWidth (c'.cells.take j)) (some (.label l)) slot') :
    SameTarget (is.map (·.address)) (is'.map (·.address)) slot slot' := by
  obtain ⟨target, htarget, rfl⟩ := hslot
  obtain ⟨target', htarget', rfl⟩ := hslot'
  obtain ⟨n, hn, hle, rfl⟩ := (resolve_label_eq_ok_iff tokens h.fits.1 h.get).mp htarget
  obtain ⟨n', hn', -, rfl⟩ := (resolve_label_eq_ok_iff tokens h.fits'.1 h.get').mp htarget'
  rw [h.ops_eq] at hn'
  cases hn.symm.trans hn'
  have haddress := h.address_eq_iff hj hle
  by_cases hself : opcode = .tryL ∧ startOf chunks k + totalWidth (c.cells.take n) =
      startOf chunks k + totalWidth (c.cells.take j)
  · -- a handler at the address of its own try reads back as absent in both
    rw [if_pos hself, if_pos ⟨hself.1, haddress.mp hself.2⟩]
    exact .inl ⟨rfl, rfl⟩
  · rw [if_neg hself, if_neg fun hself' => hself ⟨hself'.1, haddress.mpr hself'.2⟩]
    exact h.sameTarget_label hle (hcovered n hn)

end

/-- A call leads to the start of the same function in both. -/
theorem sameTarget_of_function {id : FunctionId}
    (hslot : SlotOf t .callL a (some (.function id)) slot)
    (hslot' : SlotOf t' .callL a' (some (.function id)) slot') :
    SameTarget t.starts t'.starts slot slot' := by
  obtain ⟨target, htarget, rfl⟩ := hslot
  obtain ⟨target', htarget', rfl⟩ := hslot'
  rw [if_neg fun h => (nomatch h.1), if_neg fun h => (nomatch h.1)]
  exact .inr ⟨id, target, target', function_eq_ok_iff.mp htarget, function_eq_ok_iff.mp htarget',
    rfl, rfl⟩

/-- References that lead to the same targets read back as the same targets. -/
theorem forall₂_sameTarget {refs : List (Option Reference)} {slots slots' : List (Option Int)}
    {xs xs' : List Nat} (hslots : List.Forall₂ (SlotOf t opcode a) refs slots)
    (hslots' : List.Forall₂ (SlotOf t' opcode a') refs slots')
    (hsame : ∀ r, some r ∈ refs → ∀ slot slot', SlotOf t opcode a (some r) slot →
      SlotOf t' opcode a' (some r) slot' → SameTarget xs xs' slot slot') :
    List.Forall₂ (SameTarget xs xs') slots slots' := by
  have hmem : List.Forall₂ (fun ref slot => ref ∈ refs ∧ SlotOf t opcode a ref slot) refs slots :=
    (forall₂_and_left _ _).mpr ⟨fun _ href => href, hslots⟩
  refine forall₂_comp ?_ hmem.flip hslots'
  rintro slot ref slot' ⟨href, hslot⟩ hslot'
  cases ref with
  | none => exact .inl ⟨hslot, hslot'⟩
  | some r => exact hsame r href slot slot' hslot hslot'

/-- Instructions from the same place of a `Covered` function mean the same. -/
theorem sameInstruction (h : SideBySide tokens chunks chunks' k c c' is is')
    (hcovered : Covered c.ops) {i' : Located}
    (hi : FromCells (targetsOf tokens chunks k c) (targetsOf tokens chunks' k c')
      (startOf chunks k) (startOf chunks' k) c.cells c'.cells i i') :
    SameInstruction (layoutOf chunks).starts (layoutOf chunks').starts
      (is.map (·.address)) (is'.map (·.address)) i i' := by
  obtain ⟨j, cell, cell', hj, hj', hnarrow, haddress, haddress', hinstr, hinstr'⟩ := hi
  rw [hnarrow.1] at hinstr'
  have hcell : cell.op ∈ c.ops := mem_map_of_mem (mem_of_getElem? hj)
  cases hb : cell.op.operation.branch? with
  | none =>
    -- what is no branch is written the same in both
    have hcount : (targetsOf tokens chunks k c).tokenCount =
        (targetsOf tokens chunks' k c').tokenCount := rfl
    rw [← instruction_eq_of_branch?_eq_none hb hcount i.address i'.address cell.form cell'.form,
      hinstr] at hinstr'
    have heq : i.toInstruction = i'.toInstruction := Option.some.inj (Except.ok.inj hinstr')
    have hno := (instruction_of_branch?_eq_none tokens.size_le hb hinstr).1
    have hslots := Located.targetSlots_of_not_branch hno
    have hslots' := Located.targetSlots_of_not_branch (i := i') (heq ▸ hno)
    refine ⟨by rw [heq], fun _ => by rw [heq], fun _ => ?_, fun _ => ?_⟩ <;>
    · rw [hslots, hslots']
      exact .nil
  | some branch =>
    obtain ⟨opcode, refs⟩ := branch
    have hb' : cell'.op.operation.branch? = some (opcode, refs) := hnarrow.1 ▸ hb
    rw [← hnarrow.1] at hinstr'
    obtain ⟨hlong, hbranch, hslots⟩ :=
      slotOf_of_instruction h.fits h.reach h.get hj haddress hinstr hb
    obtain ⟨hlong', -, hslots'⟩ :=
      slotOf_of_instruction h.fits' h.reach' h.get' hj' haddress' hinstr' hb'
    have hle := Nat.le_of_lt (List.getElem?_eq_some_iff.mp hj).1
    rw [haddress] at hslots
    rw [haddress'] at hslots'
    refine ⟨hlong'.trans hlong.symm, fun hno => absurd (hno.symm.trans hbranch) (by decide), ?_, ?_⟩
    · intro hcall
      rw [hlong] at hcall
      subst hcall
      rcases branch_cases hb with ⟨-, -, id, rfl⟩ | ⟨hno, -⟩
      · refine forall₂_sameTarget hslots hslots' fun r hr slot slot' hslot hslot' => ?_
        cases mem_singleton.mp hr
        exact sameTarget_of_function hslot hslot'
      · exact absurd rfl hno
    · intro hcall
      rw [hlong] at hcall
      rcases branch_cases hb with ⟨heq, -⟩ | ⟨-, hlabels⟩
      · exact absurd heq hcall
      · refine forall₂_sameTarget hslots hslots' fun r hr slot slot' hslot hslot' => ?_
        have hr : r ∈ refs.filterMap id := mem_filterMap.mpr ⟨some r, hr, rfl⟩
        obtain ⟨l, rfl⟩ := hlabels r hr
        exact h.sameTarget_of_label hle (hcovered cell.op hcell l ((mem_targets_iff hb).mp hr))
          hslot hslot'

end SideBySide

/-! ## Places of the source side by side -/

section Points

variable {xs xs' : List Nat}

/-- `addPoint` keeps points the same. -/
theorem samePoints_addPoint (hxs : xs.Nodup) (hxs' : xs'.Nodup) {points points' : List (Nat × Span)}
    {point point' : Nat × Span} (h : List.Forall₂ (SamePoint xs xs') points points')
    (hp : SamePoint xs xs' point point') :
    List.Forall₂ (SamePoint xs xs') (addPoint points point) (addPoint points' point') := by
  cases h with
  | nil => exact .cons hp .nil
  | @cons last last' earlier earlier' hlast hearlier =>
    -- a place replaces the last one at its address, in both lists or in neither
    obtain ⟨-, n, hn, hn'⟩ := id hlast
    obtain ⟨-, m, hm, hm'⟩ := id hp
    have hiff : last.1 = point.1 ↔ last'.1 = point'.1 := by
      rw [eq_iff_index_eq hxs hn hm, eq_iff_index_eq hxs' hn' hm']
    dsimp only [addPoint]
    by_cases heq : last.1 = point.1
    · rw [if_pos (beq_iff_eq.mpr heq), if_pos (beq_iff_eq.mpr (hiff.mp heq))]
      exact .cons hp hearlier
    · rw [if_neg (fun h => heq (beq_iff_eq.mp h)),
        if_neg (fun h => heq (hiff.mpr (beq_iff_eq.mp h)))]
      exact .cons hp (.cons hlast hearlier)

/-- Points that are noted one after another stay the same. -/
theorem samePoints_foldl (hxs : xs.Nodup) (hxs' : xs'.Nodup) {located located' : List (Nat × Span)}
    (h : List.Forall₂ (SamePoint xs xs') located located') :
    ∀ {points points' : List (Nat × Span)}, List.Forall₂ (SamePoint xs xs') points points' →
      List.Forall₂ (SamePoint xs xs') (located.foldl addPoint points)
        (located'.foldl addPoint points') := by
  induction h with
  | nil =>
    intro points points' hpoints
    exact hpoints
  | cons hp _ ih =>
    intro points points' hpoints
    exact ih (samePoints_addPoint hxs hxs' hpoints hp)

/-- Cells with the same operations at the same boundaries have the same places. -/
theorem samePoints_located {cells cells' : List (Nat × Cell)}
    (h : List.Forall₂ (fun x x' => x'.2.op = x.2.op ∧
      ∃ n : Nat, xs[n]? = some x.1 ∧ xs'[n]? = some x'.1) cells cells') :
    List.Forall₂ (SamePoint xs xs')
      (cells.filterMap fun (a, c) => c.op.location.map fun s => (a, s))
      (cells'.filterMap fun (a, c) => c.op.location.map fun s => (a, s)) := by
  induction h with
  | nil => exact .nil
  | @cons x x' rest rest' hx _ ih =>
    obtain ⟨a, c⟩ := x
    obtain ⟨a', c'⟩ := x'
    obtain ⟨hop, hbound⟩ := hx
    have hop : c'.op = c.op := hop
    rw [filterMap_cons, filterMap_cons]
    dsimp only
    rw [hop]
    cases c.op.location with
    | none => exact ih
    | some s => exact .cons ⟨rfl, hbound⟩ ih

end Points

/-- Both have the same places of the source, at the same boundaries. -/
theorem SideBySide.samePoints {tokens : TokenTable} {chunks chunks' : List Chunk} {k : Nat}
    {c c' : Chunk} {is is' : List Located}
    (h : SideBySide tokens chunks chunks' k c c' is is') :
    List.Forall₂
      (SamePoint (bounds is (startOf chunks k + totalWidth c.cells))
        (bounds is' (startOf chunks' k + totalWidth c'.cells)))
      (methodAt chunks k c).points (methodAt chunks' k c').points := by
  refine forall₂_reverse_iff.mpr (samePoints_foldl h.written.tiles.nodup_bounds
    h.written'.tiles.nodup_bounds (samePoints_located ?_) .nil)
  refine forall₂_iff_getElem?.mpr ⟨?_, ?_⟩
  · simp only [length_zip, length_addressesFrom, h.chunk.cells.length_eq]
  · rintro j ⟨a, cell⟩ ⟨a', cell'⟩ hx hx'
    obtain ⟨ha, hj⟩ := getElem?_zip_eq_some.mp hx
    obtain ⟨ha', hj'⟩ := getElem?_zip_eq_some.mp hx'
    dsimp only at ha hj ha' hj'
    rw [getElem?_addressesFrom hj] at ha
    rw [getElem?_addressesFrom hj'] at ha'
    cases ha
    cases ha'
    have hle := Nat.le_of_lt (List.getElem?_eq_some_iff.mp hj).1
    exact ⟨((forall₂_iff_getElem?.mp h.chunk.cells).2 j cell cell' hj hj').1, _,
      h.getElem?_bounds hle⟩

/-! ## Scripts side by side -/

variable {tokens : TokenTable} {chunks chunks' : List Chunk}

/-- The methods of narrower code are each the `SameMethod` as one of the wider code. -/
theorem sameMethods_of_narrows (hn : List.Forall₂ Chunk.Narrows chunks chunks')
    (h : Encodes tokens chunks script) (h' : Encodes tokens chunks' script')
    (hreach : ShortReach chunks) (hreach' : ShortReach chunks')
    (hcovered : ∀ c ∈ chunks, Covered c.ops) :
    List.Forall₂ (SameMethod script script') script.methods script'.methods := by
  have hlen := length_eq_of_getElem? h.method
  have hlen' := length_eq_of_getElem? h'.method
  refine forall₂_iff_getElem?.mpr ⟨hlen.trans (hn.length_eq.trans hlen'.symm), ?_⟩
  intro k m m' hm hm'
  rw [h.method, Option.map_eq_some_iff] at hm
  rw [h'.method, Option.map_eq_some_iff] at hm'
  obtain ⟨c, hk, rfl⟩ := hm
  obtain ⟨c', hk', rfl⟩ := hm'
  obtain ⟨is, hw, hdecode⟩ := h.decodeMethod_eq hk
  obtain ⟨is', hw', hdecode'⟩ := h'.decodeMethod_eq hk'
  have hside : SideBySide tokens chunks chunks' k c c' is is' :=
    ⟨hn, h.fits, h'.fits, hreach, hreach', hk, hk', hw, hw'⟩
  refine ⟨hside.chunk.id_eq, hside.chunk.name_eq, is, is', hdecode, hdecode', ?_, hside.samePoints⟩
  rw [h.starts_eq, h'.starts_eq]
  refine List.Forall₂.imp (fun i i' hi => ?_) (hw.fromCells hw' hside.chunk.cells)
  exact hside.sameInstruction (hcovered c (mem_of_getElem? hk)) hi

theorem oneFault_eq_ok_iff {α : Type} {x : Except EncodingError α} {a : α} :
    oneFault x = .ok a ↔ x = .ok a := by
  cases x with
  | error e => exact ⟨nofun, nofun⟩
  | ok b => exact ⟨fun h => congrArg Except.ok (Except.ok.inj h), fun h => h ▸ rfl⟩

/-- Without short branches, `buildScript` encodes the routines as they are. -/
theorem buildScript_long_iff : buildScript tokens routines false = .ok script ↔
      encode tokens (routines.map Chunk.ofRoutine) = .ok script ∧
        check script tokens.size = .ok () := by
  show (encodeEach tokens (routines.map Chunk.ofRoutine) >>= fun long =>
    oneFault (check long tokens.size) >>= fun _ => pure long) = .ok script ↔ _
  simp only [bind_eq_ok, encodeEach_eq_ok_iff, oneFault_eq_ok_iff]
  constructor
  · rintro ⟨long, hlong, _, hcheck, hscript⟩
    cases hscript
    exact ⟨hlong, hcheck⟩
  · rintro ⟨hlong, hcheck⟩
    exact ⟨script, hlong, (), hcheck, rfl⟩

/-- With short branches, `buildScript` encodes the routines twice and shortens in between. -/
theorem buildScript_short_iff : buildScript tokens routines true = .ok script ↔
      ∃ long chunks, encode tokens (routines.map Chunk.ofRoutine) = .ok long ∧
        shorten tokens (routines.map Chunk.ofRoutine) = .ok chunks ∧
        encode tokens chunks = .ok script ∧ check script tokens.size = .ok () := by
  simp only [buildScript, if_true, bind_eq_ok, encodeEach_eq_ok_iff, oneFault_eq_ok_iff]
  constructor
  · rintro ⟨long, hlong, _, ⟨chunks, hshorten, hencode⟩, _, hcheck, hscript⟩
    cases hscript
    exact ⟨long, chunks, hlong, hshorten, hencode, hcheck⟩
  · rintro ⟨long, chunks, hlong, hshorten, hencode, hcheck⟩
    exact ⟨long, hlong, script, ⟨chunks, hshorten, hencode⟩, (), hcheck, rfl⟩

/-- `Shortens` changes no operation. -/
theorem map_ops_of_shortens (h : Shortens tokens chunks chunks') :
    chunks'.map Chunk.ops = chunks.map Chunk.ops := by
  rw [← forall₂_eq_eq_eq, forall₂_map_left_iff, forall₂_map_right_iff]
  exact (narrows_of_shortens h).flip.imp fun c c' hc => map_op_of_narrows hc.cells

/-- After `Shortens`, the operations are those of the routines. -/
theorem map_ops_of_shortens_routines (h : Shortens tokens (routines.map Chunk.ofRoutine) chunks) :
    chunks.map Chunk.ops = routines.map Routine.ops := by
  rw [map_ops_of_shortens h, map_map]
  exact map_congr_left fun r _ => Chunk.ops_ofRoutine r

/-- `check` accepts code after rounds of shortening exactly if it accepts it before. -/
theorem check_of_shortens (h : Shortens tokens (routines.map Chunk.ofRoutine) chunks)
    (hlong : encode tokens (routines.map Chunk.ofRoutine) = .ok script)
    (hshort : encode tokens chunks = .ok script') :
    check script' tokens.size = .ok () ↔ check script tokens.size = .ok () := by
  have hnone : Shortens tokens (routines.map Chunk.ofRoutine) (routines.map Chunk.ofRoutine) :=
    .none
  rw [check_eq_ok_iff (encodes_of_encode hshort) (shortReach_of_shortens h),
    check_eq_ok_iff (encodes_of_encode hlong) (shortReach_of_shortens hnone)]
  rw [← forall_mem_map (P := Covered), map_ops_of_shortens h, forall_mem_map]

/-- With and without short branches `buildScript` succeeds for the same routines. The script with
short branches is no longer than the other, and each of its methods means the same (`SameMethod`).
-/
theorem buildScript_optimize (tokens : TokenTable) (routines : List Routine) :
    ((∃ short, buildScript tokens routines true = .ok short) ↔
        ∃ long, buildScript tokens routines false = .ok long) ∧
      ∀ long short, buildScript tokens routines false = .ok long →
        buildScript tokens routines true = .ok short →
          short.bytes.length ≤ long.bytes.length ∧
            List.Forall₂ (SameMethod long short) long.methods short.methods := by
  refine ⟨⟨?_, ?_⟩, ?_⟩
  · rintro ⟨short, hshort⟩
    obtain ⟨long, chunks, hlong, hshorten, hencode, hcheck⟩ := buildScript_short_iff.mp hshort
    refine ⟨long, buildScript_long_iff.mpr ⟨hlong, ?_⟩⟩
    exact (check_of_shortens (shortens_of_shorten .none hshorten) hlong hencode).mp hcheck
  · rintro ⟨long, h⟩
    obtain ⟨hlong, hcheck⟩ := buildScript_long_iff.mp h
    obtain ⟨chunks, hshorten⟩ := exists_shorten hlong
    have hshortens := shortens_of_shorten .none hshorten
    obtain ⟨short, hencode⟩ := exists_encode_of_narrows (narrows_of_shortens hshortens) hlong
    refine ⟨short, buildScript_short_iff.mpr ⟨long, chunks, hlong, hshorten, hencode, ?_⟩⟩
    exact (check_of_shortens hshortens hlong hencode).mpr hcheck
  · intro long short h h'
    obtain ⟨hlong, hcheck⟩ := buildScript_long_iff.mp h
    obtain ⟨_, chunks, -, hshorten, hencode, -⟩ := buildScript_short_iff.mp h'
    have hnone : Shortens tokens (routines.map Chunk.ofRoutine) (routines.map Chunk.ofRoutine) :=
      .none
    have hshortens := shortens_of_shorten hnone hshorten
    have hn := narrows_of_shortens hshortens
    have hencodes := encodes_of_encode hlong
    have hencodes' := encodes_of_encode hencode
    refine ⟨?_, ?_⟩
    · rw [hencodes.length, hencodes'.length]
      exact totalWidth_le_of_narrows (allCells_narrows hn)
    · refine sameMethods_of_narrows hn hencodes hencodes' (shortReach_of_shortens hnone)
        (shortReach_of_shortens hshortens) ?_
      exact (check_eq_ok_iff hencodes (shortReach_of_shortens hnone)).mp hcheck

theorem buildScript_optimize_guarded :
    ∃ long short, buildScript {} [guarded, constant] false = .ok long ∧
      buildScript {} [guarded, constant] true = .ok short ∧
      short.bytes.length ≤ long.bytes.length ∧
      List.Forall₂ (SameMethod long short) long.methods short.methods := by
  have hnone : Shortens {} ([guarded, constant].map Chunk.ofRoutine)
      ([guarded, constant].map Chunk.ofRoutine) := .none
  obtain ⟨long, hencode⟩ :
      ∃ long, encode {} ([guarded, constant].map Chunk.ofRoutine) = .ok long := ⟨_, rfl⟩
  have hcheck : check long 0 = .ok () :=
    (check_eq_ok_iff (encodes_of_encode hencode) (shortReach_of_shortens hnone)).mpr
      (by decide +kernel)
  have hlong := buildScript_long_iff.mpr ⟨hencode, hcheck⟩
  obtain ⟨short, hshort⟩ := (buildScript_optimize {} [guarded, constant]).1.mpr ⟨long, hlong⟩
  exact ⟨long, short, hlong, hshort, (buildScript_optimize {} _).2 long short hlong hshort⟩

end ContractScript
