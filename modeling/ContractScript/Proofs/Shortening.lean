import ContractScript.Proofs.Narrowing

/-!
# Rounds of shortening

Each round (`shortenRound`) leaves the operations as they are and makes some branches short that
reach their targets. Because nothing moves apart, they still reach them after any number of rounds
(`Shortens`).
-/

namespace ContractScript

open List

variable {c cell : Cell} {j : Nat} {tokens : TokenTable} {chunks chunks' next : List Chunk}
  {script : Script}

/-- Rounds of shortening lead from one code to another. -/
inductive Shortens (tokens : TokenTable) (chunks : List Chunk) : List Chunk → Prop where
  | none : Shortens tokens chunks chunks
  | round {mid next : List Chunk} :
    Shortens tokens chunks mid → shortenRound tokens mid = .ok next → Shortens tokens chunks next

/-! ## One round -/

/-- `fitsByte` is `FitsSigned` for one byte. -/
theorem fitsByte_iff {offset : Int} : fitsByte offset = true ↔ FitsSigned 1 offset := by
  rw [fitsByte, Bool.and_eq_true, decide_eq_true_iff, decide_eq_true_iff]
  show _ ↔ -(256 : Int) ≤ 2 * offset ∧ 2 * offset < 256
  omega

/-- `nextForm` is short for a cell that is short already, or whose targets are all near. -/
theorem nextForm_eq_ok {t : Targets} {a : Nat} {form : Form} (h : c.nextForm t a = .ok form) :
    (c.form = .short → form = .short) ∧
      (form = .short → c.form = .short ∨
        ∃ offsets, c.op.operation.offsets t a = .ok offsets ∧ OffsetsFit .short offsets) := by
  unfold Cell.nextForm at h
  split at h
  · next hshort =>
    cases h
    exact ⟨fun _ => rfl, fun _ => .inl hshort⟩
  · next hlong =>
    rw [bind_eq_ok] at h
    obtain ⟨offsets, hoffsets, h⟩ := h
    refine ⟨fun hshort => absurd (hlong.symm.trans hshort) (by decide), fun hform => ?_⟩
    subst hform
    dsimp only at h
    cases hfits : (!offsets.isEmpty && (offsets.filterMap id).all fitsByte) with
    | false =>
      rw [hfits] at h
      cases h
    | true =>
      rw [Bool.and_eq_true, all_eq_true] at hfits
      refine .inr ⟨offsets, hoffsets, fun offset hmem => ?_⟩
      exact fitsByte_iff.mp (hfits.2 offset (mem_filterMap.mpr ⟨some offset, hmem, rfl⟩))

/-- The `Cell`s of a function after a round, measured from an address on. -/
inductive Stepped (t : Targets) : Nat → List Cell → List Cell → Prop where
  | nil {a : Nat} : Stepped t a [] []
  | cons {a : Nat} {c : Cell} {form : Form} {cs cs' : List Cell} :
    c.nextForm t a = .ok form → Stepped t (a + c.width) cs cs' →
      Stepped t a (c :: cs) ({ c with form := form } :: cs')

/-- `shortenCells` gives what `Stepped` says. -/
theorem shortenCells_eq_ok_iff {t : Targets} {name : String} :
    ∀ {a : Nat} {cells cells' : List Cell},
      shortenCells t name (addressesFrom a cells) cells = .ok cells' ↔ Stepped t a cells cells'
  | a, [], cells' => by
    constructor
    · intro h
      cases h
      exact .nil
    · intro h
      cases h
      rfl
  | a, c :: cs, cells' => by
    rw [addressesFrom, shortenCells]
    constructor
    · intro h
      split at h
      · cases h
      · next form hform =>
        split at h
        · cases h
        · next rest hrest =>
          cases h
          exact .cons hform (shortenCells_eq_ok_iff.mp hrest)
    · intro h
      cases h with
      | cons hform hrest =>
        rw [hform]
        dsimp only
        rw [shortenCells_eq_ok_iff.mpr hrest]

namespace Stepped

variable {t : Targets} {a : Nat} {cells cells' : List Cell}

/-- A round `Narrows` the cells. -/
theorem narrows (h : Stepped t a cells cells') : List.Forall₂ Cell.Narrows cells cells' := by
  induction h with
  | nil => exact .nil
  | cons hform _ ih => exact .cons ⟨rfl, (nextForm_eq_ok hform).1⟩ ih

/-- What `Stepped` says about one cell. -/
theorem getElem? (h : Stepped t a cells cells') (hj : cells[j]? = some c) :
    ∃ form, c.nextForm t (a + totalWidth (cells.take j)) = .ok form ∧
      cells'[j]? = some { c with form := form } := by
  induction h generalizing j with
  | nil => cases hj
  | @cons a c' form cs cs' hform _ ih =>
    cases j with
    | zero =>
      cases hj
      exact ⟨form, hform, rfl⟩
    | succ j =>
      obtain ⟨form', hform', hget⟩ := ih hj
      refine ⟨form', ?_, hget⟩
      rw [take_succ_cons, totalWidth, ← Nat.add_assoc]
      exact hform'

end Stepped

/-- Every cell has offsets to what it refers to. -/
def Measured (tokens : TokenTable) (chunks : List Chunk) : Prop :=
  ∀ (k : Nat) c (j : Nat) cell, chunks[k]? = some c → c.cells[j]? = some cell → ∃ offsets,
    cell.op.operation.offsets (targetsOf tokens chunks k c)
      (startOf chunks k + totalWidth (c.cells.take j)) = .ok offsets

/-- Cells that have offsets can be shortened. -/
theorem exists_stepped {t : Targets} : ∀ {a : Nat} {cells : List Cell},
    (∀ (j : Nat) cell, cells[j]? = some cell → ∃ offsets,
      cell.op.operation.offsets t (a + totalWidth (cells.take j)) = .ok offsets) →
    ∃ cells', Stepped t a cells cells'
  | a, [], _ => ⟨[], .nil⟩
  | a, c :: cs, h => by
    obtain ⟨offsets, hoffsets⟩ := h 0 c rfl
    rw [take_zero, totalWidth, Nat.add_zero] at hoffsets
    have hform : ∃ form, c.nextForm t a = .ok form := by
      unfold Cell.nextForm
      split
      · exact ⟨_, rfl⟩
      · rw [hoffsets]
        exact ⟨_, rfl⟩
    obtain ⟨form, hform⟩ := hform
    have hrest : ∀ (j : Nat) cell, cs[j]? = some cell → ∃ offsets,
        cell.op.operation.offsets t (a + c.width + totalWidth (cs.take j)) = .ok offsets := by
      intro j cell hj
      have hnext := h (j + 1) cell hj
      rw [take_succ_cons, totalWidth, ← Nat.add_assoc] at hnext
      exact hnext
    obtain ⟨cs', hcs'⟩ := exists_stepped hrest
    exact ⟨_, .cons hform hcs'⟩

/-- Cells that can be written have offsets. -/
theorem Written.exists_offsets {t : Targets} {a b : Nat} {cells : List Cell} {is : List Located}
    (h : Written t a cells is b) (hj : cells[j]? = some cell) :
    ∃ offsets, cell.op.operation.offsets t (a + totalWidth (cells.take j)) = .ok offsets := by
  induction h generalizing j with
  | nil => cases hj
  | @marker a b c cs is hm _ ih =>
    cases j with
    | zero =>
      cases hj
      -- a marker is no branch
      cases hb : cell.op.operation.branch? with
      | none => exact ⟨[], offsets_of_branch?_eq_none hb⟩
      | some branch =>
        rw [not_isMarker_of_branch hb] at hm
        cases hm
    | succ j =>
      rw [take_succ_cons, totalWidth, width_of_isMarker hm, Nat.zero_add]
      exact ih hj
  | @code a b c i cs is hi _ ih =>
    cases j with
    | zero =>
      cases hj
      cases hb : cell.op.operation.branch? with
      | none => exact ⟨[], offsets_of_branch?_eq_none hb⟩
      | some branch =>
        obtain ⟨offsets, hoffsets, -⟩ := eq_branchInstruction hb hi
        exact ⟨offsets, (offsets_eq_ok_iff hb).mpr hoffsets⟩
    | succ j =>
      rw [take_succ_cons, totalWidth, width_of_instruction hi, ← Nat.add_assoc]
      exact ih hj

/-- Code that can be encoded is `Measured`. -/
theorem measured_of_encode (h : encode tokens chunks = .ok script) : Measured tokens chunks := by
  intro k c j cell hk hj
  obtain ⟨is, -, hw, -⟩ := (encodes_of_encode h).code k c hk
  exact Written.exists_offsets hw hj

/-- `Measured` holds of narrower code too. -/
theorem measured_of_narrows (hn : List.Forall₂ Chunk.Narrows chunks chunks') (hfits : Fits chunks)
    (h : Measured tokens chunks) : Measured tokens chunks' := by
  obtain ⟨hlen, hall⟩ := forall₂_iff_getElem?.mp hn
  intro k c' j cell' hk' hj'
  obtain ⟨c, hk⟩ := exists_getElem? hlen hk'
  obtain ⟨hlen', hcells⟩ := forall₂_iff_getElem?.mp (hall k c c' hk hk').cells
  obtain ⟨cell, hj⟩ := exists_getElem? hlen' hj'
  rw [(hcells j cell cell' hj hj').1]
  cases hb : cell.op.operation.branch? with
  | none => exact ⟨[], offsets_of_branch?_eq_none hb⟩
  | some branch =>
    obtain ⟨offsets, hoffsets⟩ := h k c j cell hk hj
    have hrefs : ∀ r n, (targetsOf tokens chunks k c).resolve r = .ok n →
        ∃ n', (targetsOf tokens chunks' k c').resolve r = .ok n' :=
      fun r n => exists_resolve_of_narrows tokens hn hfits.1 hk hk'
    obtain ⟨offsets', hoffsets'⟩ :=
      exists_offsets _ hrefs ((offsets_eq_ok_iff hb).mp hoffsets)
    exact ⟨offsets', (offsets_eq_ok_iff hb).mpr hoffsets'⟩

/-- A round measures each function in the layout of all. -/
theorem shortenRound_eq_ok (h : shortenRound tokens chunks = .ok next) :
    Fits chunks ∧ chunks.length = next.length ∧
      ∀ k c c', chunks[k]? = some c → next[k]? = some c' →
        c'.id = c.id ∧ c'.name = c.name ∧
          Stepped (targetsOf tokens chunks k c) (startOf chunks k) c.cells c'.cells := by
  simp only [shortenRound, bind_eq_ok, layout_eq_ok_iff, mapM_eq_ok_iff] at h
  obtain ⟨_, ⟨hfits, rfl⟩, h⟩ := h
  obtain ⟨hlen, hall⟩ := forall₂_iff_getElem?.mp h
  refine ⟨hfits, ?_, fun k c c' hk hk' => ?_⟩
  · rw [← hlen, length_zip, layoutOf, length_placeChunks, Nat.min_self]
  · have hf := getElem?_layoutOf hfits.1 k
    rw [hk] at hf
    have hzip : (chunks.zip (layoutOf chunks).functions)[k]? =
        some (c, startOf chunks k, c.placedFrom (startOf chunks k)) :=
      getElem?_zip_eq_some.mpr ⟨hk, hf⟩
    obtain ⟨cells, hcells, heq⟩ := hall k _ c' hzip hk'
    cases heq
    exact ⟨rfl, rfl, shortenCells_eq_ok_iff.mp hcells⟩

/-- `shortenRound` succeeds for code that `Fits` and is `Measured`. -/
theorem exists_shortenRound (hfits : Fits chunks) (h : Measured tokens chunks) :
    ∃ next, shortenRound tokens chunks = .ok next := by
  simp only [shortenRound, bind_eq_ok, layout_eq_ok_iff]
  suffices hnext : ∃ next, (chunks.zip (layoutOf chunks).functions).mapM (fun f => do
      let cells ← shortenCells ⟨f.2.2.labels, (layoutOf chunks).starts, tokens.size⟩ f.1.name
        f.2.2.addresses f.1.cells
      return { f.1 with cells := cells }) = .ok next by
    obtain ⟨next, hnext⟩ := hnext
    exact ⟨next, _, ⟨hfits, rfl⟩, hnext⟩
  refine exists_mapM_eq_ok fun f hf => ?_
  obtain ⟨k, hk⟩ := mem_iff_getElem?.mp hf
  obtain ⟨hc, hplaced⟩ := getElem?_zip_eq_some.mp hk
  rw [getElem?_layoutOf hfits.1 k, hc] at hplaced
  obtain ⟨cells', hcells'⟩ := exists_stepped fun j cell hj => h k f.1 j cell hc hj
  refine ⟨{ f.1 with cells := cells' }, bind_eq_ok.mpr ⟨cells', ?_, rfl⟩⟩
  rw [← Option.some.inj hplaced]
  exact shortenCells_eq_ok_iff.mpr hcells'

/-- `shortenRound` changes nothing but forms. -/
theorem narrows_of_shortenRound (h : shortenRound tokens chunks = .ok next) :
    List.Forall₂ Chunk.Narrows chunks next := by
  obtain ⟨-, hlen, hall⟩ := shortenRound_eq_ok h
  refine forall₂_iff_getElem?.mpr ⟨hlen, fun k c c' hk hk' => ?_⟩
  obtain ⟨hid, hname, hstepped⟩ := hall k c c' hk hk'
  exact ⟨hid, hname, hstepped.narrows⟩

/-! ## Any number of rounds -/

theorem Cell.Narrows.trans {c' c'' : Cell} (h : c.Narrows c') (h' : c'.Narrows c'') :
    c.Narrows c'' :=
  ⟨h'.1.trans h.1, fun hs => h'.2 (h.2 hs)⟩

theorem Chunk.Narrows.trans {c c' c'' : Chunk} (h : c.Narrows c') (h' : c'.Narrows c'') :
    c.Narrows c'' :=
  ⟨h'.id_eq.trans h.id_eq, h'.name_eq.trans h.name_eq,
    forall₂_comp (fun _ _ _ h₁ h₂ => h₁.trans h₂) h.cells h'.cells⟩

/-- `Shortens` changes nothing but forms. -/
theorem narrows_of_shortens (h : Shortens tokens chunks chunks') :
    List.Forall₂ Chunk.Narrows chunks chunks' := by
  induction h with
  | none =>
    refine forall₂_same.mpr fun c _ => ⟨rfl, rfl, ?_⟩
    exact forall₂_same.mpr fun cell _ => ⟨rfl, id⟩
  | round _ hround ih =>
    exact forall₂_comp (fun _ _ _ h₁ h₂ => h₁.trans h₂) ih (narrows_of_shortenRound hround)

/-- Every short branch reaches what it refers to. -/
def ShortReach (chunks : List Chunk) : Prop :=
  ∀ k c j cell, chunks[k]? = some c → c.cells[j]? = some cell → cell.form = .short →
    ∀ opcode refs, cell.op.operation.branch? = some (opcode, refs) →
      ∀ r place, some r ∈ refs → r.place? chunks k c = some place →
        FitsSigned 1 ((addressAt chunks place : Int) - addressAt chunks (placeOf chunks k + j))

/-- A reference that `resolve` finds has an offset. -/
theorem mem_offsets {t : Targets} {a : Nat} : ∀ {refs : List (Option Reference)}
    {offsets : List (Option Int)}, List.Forall₂ (OffsetOf t a) refs offsets →
      ∀ {r target}, some r ∈ refs → t.resolve r = .ok target →
        some ((target : Int) - a) ∈ offsets
  | none :: refs, _, .cons _ hrest, r, target, hr, htarget => by
    rcases mem_cons.mp hr with hr | hr
    · cases hr
    · exact mem_cons_of_mem _ (mem_offsets hrest hr htarget)
  | some r' :: refs, _, .cons ⟨target', htarget', hoffset⟩ hrest, r, target, hr, htarget => by
    rcases mem_cons.mp hr with hr | hr
    · cases hr
      cases htarget'.symm.trans htarget
      exact hoffset ▸ mem_cons_self
    · exact mem_cons_of_mem _ (mem_offsets hrest hr htarget)

/-- The address of a cell of a function. -/
theorem addressAt_cell {k : Nat} {c : Chunk} (hk : chunks[k]? = some c)
    (hj : c.cells[j]? = some cell) :
    addressAt chunks (placeOf chunks k + j) = startOf chunks k + totalWidth (c.cells.take j) :=
  addressAt_placeOf_add hk (Nat.le_of_lt (List.getElem?_eq_some_iff.mp hj).1)

/-- `shortenRound` leaves every short branch within reach. -/
theorem shortReach_of_shortenRound (h : shortenRound tokens chunks = .ok next)
    (hreach : ShortReach chunks) : ShortReach next := by
  have hnarrows := narrows_of_shortenRound h
  obtain ⟨hfits, hlen, hall⟩ := shortenRound_eq_ok h
  intro k c' j cell' hk' hj' hshort opcode refs hb r place hr hplace
  obtain ⟨c, hk⟩ := exists_getElem? hlen hk'
  obtain ⟨hid, hname, hstepped⟩ := hall k c c' hk hk'
  obtain ⟨cell, hj⟩ := exists_getElem? hstepped.narrows.length_eq hj'
  obtain ⟨form, hform, hget⟩ := hstepped.getElem? hj
  obtain rfl := Option.some.inj (hj'.symm.trans hget)
  rw [place?_narrows hnarrows ⟨hid, hname, hstepped.narrows⟩] at hplace
  rw [placeOf_narrows hnarrows]
  refine fitsSigned_narrows hnarrows ?_
  rcases (nextForm_eq_ok hform).2 hshort with hwas | ⟨offsets, hoffsets, hfit⟩
  · exact hreach k _ j _ hk hj hwas opcode refs hb r place hr hplace
  · -- it became short in this round: its offsets were measured and fit
    have htarget := (resolve_eq_ok_iff tokens hfits.1 hk).mpr ⟨place, hplace, rfl⟩
    rw [addressAt_cell hk hj]
    exact hfit _ (mem_offsets ((offsets_eq_ok_iff hb).mp hoffsets) hr htarget)

/-- Code without short branches has `ShortReach`. -/
theorem shortReach_of_long (h : ∀ c ∈ chunks, ∀ cell ∈ c.cells, cell.form = .long) :
    ShortReach chunks := by
  intro k c j cell hk hj hshort
  rw [h c (mem_of_getElem? hk) cell (mem_of_getElem? hj)] at hshort
  cases hshort

/-- Every short branch is within reach after any number of rounds. -/
theorem shortReach_of_shortens {routines : List Routine}
    (h : Shortens tokens (routines.map Chunk.ofRoutine) chunks) : ShortReach chunks := by
  induction h with
  | none =>
    refine shortReach_of_long fun c hc cell hcell => ?_
    obtain ⟨r, -, rfl⟩ := mem_map.mp hc
    obtain ⟨op, -, rfl⟩ := mem_map.mp hcell
    rfl
  | round _ hround ih => exact shortReach_of_shortenRound hround ih

/-! ## The fixed point -/

/-- `shorten` goes through rounds. -/
theorem shortens_of_shorten {start : List Chunk} (h : Shortens tokens start chunks)
    (hs : shorten tokens chunks = .ok chunks') : Shortens tokens start chunks' := by
  fun_induction shorten tokens chunks with
  | case1 => cases hs
  | case2 chunks next hround _ ih => exact ih (.round h hround) hs
  | case3 chunks next hround _ =>
    cases hs
    exact .round h hround

/-- `shorten` comes to an end for code that `Fits` and is `Measured`. -/
theorem exists_shorten_of_measured (hfits : Fits chunks) (h : Measured tokens chunks) :
    ∃ chunks', shorten tokens chunks = .ok chunks' := by
  fun_induction shorten tokens chunks with
  | case1 chunks e hround =>
    obtain ⟨next, hnext⟩ := exists_shortenRound hfits h
    rw [hround] at hnext
    cases hnext
  | case2 chunks next hround _ ih =>
    -- the narrower code fits and leads somewhere as well, so the next round has a result
    have hnarrows := narrows_of_shortenRound hround
    exact ih (fits_of_narrows hnarrows hfits) (measured_of_narrows hnarrows hfits h)
  | case3 chunks next hround _ => exact ⟨next, rfl⟩

/-- `shorten` comes to an end for code that can be encoded. -/
theorem exists_shorten (h : encode tokens chunks = .ok script) :
    ∃ chunks', shorten tokens chunks = .ok chunks' :=
  exists_shorten_of_measured (encodes_of_encode h).fits (measured_of_encode h)

end ContractScript
