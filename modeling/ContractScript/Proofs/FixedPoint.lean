import ContractScript.Proofs.RoundTrip

/-!
# The fixed point of shortening

A round of shortening measures every branch in the layout before it, while other branches of the
same round become short too. Nothing moves apart, so what was measured stays true. The rounds end
when one of them changes nothing. That round has measured all branches in the layout they end
with, so the branches that it leaves long do not reach their targets by one byte.
-/

namespace ContractScript

open List

variable {tokens : TokenTable} {chunks chunks' : List Chunk} {cell : Cell}

/-! ## Measuring -/

/-- The offsets of a `Cell` of the function at a position, measured in a layout. -/
def Layout.Measures (l : Layout) (tokens : TokenTable) (chunks : List Chunk) (k j : Nat)
    (cell : Cell) (offsets : List (Option Int)) : Prop :=
  ∃ c start p address, chunks[k]? = some c ∧ c.cells[j]? = some cell ∧
    l.functions[k]? = some (start, p) ∧ p.addresses[j]? = some address ∧
    cell.op.operation.offsets (l.targets tokens p) address = .ok offsets

/-- All labels and functions that cells refer to are found in a `Layout`. -/
def Layout.Resolves (l : Layout) (tokens : TokenTable) (chunks : List Chunk) : Prop :=
  ∀ (k : Nat) c (j : Nat) cell, chunks[k]? = some c → c.cells[j]? = some cell →
    ∃ offsets, l.Measures tokens chunks k j cell offsets

/-- `Layout.Measures` measures from the address of the cell. -/
theorem measures_layoutOf_iff (hsized : Sized (allCells chunks)) {k j : Nat} {c : Chunk}
    (hk : chunks[k]? = some c) (hj : c.cells[j]? = some cell) {offsets : List (Option Int)} :
    (layoutOf chunks).Measures tokens chunks k j cell offsets ↔
      cell.op.operation.offsets (targetsOf tokens chunks k c)
        (startOf chunks k + totalWidth (c.cells.take j)) = .ok offsets := by
  have hf := getElem?_layoutOf hsized k
  rw [hk] at hf
  constructor
  · rintro ⟨c', start, p, address, hk', -, hf', ha, hoffsets⟩
    cases hk.symm.trans hk'
    cases hf.symm.trans hf'
    cases (getElem?_addressesFrom hj).symm.trans ha
    exact hoffsets
  · intro hoffsets
    exact ⟨c, _, _, _, hk, hj, hf, getElem?_addressesFrom hj, hoffsets⟩

/-- All offsets can be `Measured` exactly if the layout `Resolves` all references. -/
theorem measured_iff_resolves (hsized : Sized (allCells chunks)) :
    Measured tokens chunks ↔ (layoutOf chunks).Resolves tokens chunks := by
  constructor
  · intro h k c j cell hk hj
    obtain ⟨offsets, hoffsets⟩ := h k c j cell hk hj
    exact ⟨offsets, (measures_layoutOf_iff hsized hk hj).mpr hoffsets⟩
  · intro h k c j cell hk hj
    obtain ⟨offsets, hoffsets⟩ := h k c j cell hk hj
    exact ⟨offsets, (measures_layoutOf_iff hsized hk hj).mp hoffsets⟩

/-! ## Counting long branches -/

theorem formCount_cons (form : Form) (c : Chunk) (cs : List Chunk) :
    formCount form (c :: cs) = c.cells.countP (·.form == form) + formCount form cs :=
  rfl

/-- Every cell has one of the two forms. -/
theorem formCount_short_add_long (chunks : List Chunk) :
    formCount .short chunks + formCount .long chunks = (allCells chunks).length := by
  have hcells : ∀ cells : List Cell,
      cells.countP (·.form == .short) + cells.countP (·.form == .long) = cells.length := by
    intro cells
    induction cells with
    | nil => rfl
    | cons cell cells ih =>
      cases hform : cell.form <;> simp [hform] <;> omega
  induction chunks with
  | nil => rfl
  | cons c cs ih =>
    have hc := hcells c.cells
    rw [formCount_cons, formCount_cons, allCells_cons, length_append]
    omega

/-- `Narrows` makes a cell short, or leaves it. -/
theorem Cell.Narrows.form_cases {cell' : Cell} (h : cell.Narrows cell') :
    cell' = cell ∨ cell.form = .long ∧ cell'.form = .short := by
  obtain ⟨op, form⟩ := cell
  obtain ⟨op', form'⟩ := cell'
  obtain ⟨hop, hform⟩ := h
  cases hop
  cases form with
  | short =>
    cases hform rfl
    exact .inl rfl
  | long =>
    cases form' with
    | long => exact .inl rfl
    | short => exact .inr ⟨rfl, rfl⟩

/-- Narrower cells have no more long branches, and as many only if they are the same. -/
theorem countP_long_of_narrows {cells cells' : List Cell}
    (h : List.Forall₂ Cell.Narrows cells cells') :
    cells'.countP (·.form == .long) ≤ cells.countP (·.form == .long) ∧
      (cells.countP (·.form == .long) ≤ cells'.countP (·.form == .long) → cells' = cells) := by
  induction h with
  | nil => exact ⟨Nat.le_refl _, fun _ => rfl⟩
  | @cons cell cell' cells cells' hcell _ ih =>
    obtain ⟨hle, heq⟩ := ih
    rcases hcell.form_cases with rfl | ⟨hlong, hshort⟩
    · refine ⟨?_, fun hcount => ?_⟩
      · simp only [countP_cons]
        omega
      · simp only [countP_cons] at hcount
        rw [heq (by omega)]
    · -- one long branch less, and no cell makes up for it
      simp only [countP_cons, hlong, hshort]
      refine ⟨?_, fun hcount => absurd hcount ?_⟩
      · simp
        omega
      · simp
        omega

theorem formCount_le_of_narrows (h : List.Forall₂ Chunk.Narrows chunks chunks') :
    formCount .long chunks' ≤ formCount .long chunks := by
  induction h with
  | nil => exact Nat.le_refl _
  | cons hc _ ih =>
    rw [formCount_cons, formCount_cons]
    exact Nat.add_le_add (countP_long_of_narrows hc.cells).1 ih

/-- Narrower code with as many long branches is the same code. -/
theorem eq_of_narrows (h : List.Forall₂ Chunk.Narrows chunks chunks')
    (hcount : formCount .long chunks ≤ formCount .long chunks') : chunks' = chunks := by
  induction h with
  | nil => rfl
  | @cons c c' cs cs' hc hcs ih =>
    rw [formCount_cons, formCount_cons] at hcount
    have hfirst := countP_long_of_narrows hc.cells
    have hrest := formCount_le_of_narrows hcs
    obtain ⟨hid, hname, -⟩ := hc
    have hcells : c'.cells = c.cells := hfirst.2 (by omega)
    have hc' : c' = c := by
      cases c
      cases c'
      cases hid
      cases hname
      cases hcells
      rfl
    rw [hc', ih (by omega)]

/-! ## Rounds -/

/-- The functions after so many rounds. -/
def shortenRounds (tokens : TokenTable) : Nat → List Chunk → Except EncodingError (List Chunk)
  | 0, chunks => .ok chunks
  | n + 1, chunks => do shortenRounds tokens n (← shortenRound tokens chunks)

/-- `shorten` is a number of rounds, each of which but the last makes a branch short. -/
theorem exists_shortenRounds (h : shorten tokens chunks = .ok chunks') :
    ∃ n, shortenRounds tokens n chunks = .ok chunks' ∧
      n + formCount .long chunks' ≤ formCount .long chunks + 1 := by
  fun_induction shorten tokens chunks with
  | case1 => cases h
  | case2 chunks next hround hlt ih =>
    obtain ⟨n, hrounds, hn⟩ := ih h
    refine ⟨n + 1, ?_, by omega⟩
    rw [shortenRounds, hround]
    exact hrounds
  | case3 chunks next hround _ =>
    cases h
    refine ⟨1, ?_, ?_⟩
    · rw [shortenRounds, hround]
      rfl
    · have hle := formCount_le_of_narrows (narrows_of_shortenRound hround)
      omega

/-- After the last round, one more changes nothing. -/
theorem shortenRound_of_shorten (h : shorten tokens chunks = .ok chunks') :
    shortenRound tokens chunks' = .ok chunks' := by
  fun_induction shorten tokens chunks with
  | case1 => cases h
  | case2 chunks next hround _ ih => exact ih h
  | case3 chunks next hround hle =>
    cases h
    have heq := eq_of_narrows (narrows_of_shortenRound hround) (Nat.le_of_not_lt hle)
    rw [heq] at hround ⊢
    exact hround

theorem shorten_of_shortenRound (h : shortenRound tokens chunks = .ok chunks) :
    shorten tokens chunks = .ok chunks := by
  rw [shorten, h]
  exact if_neg (Nat.lt_irrefl _)

/-! ## What the last round has measured -/

/-- `nextForm` leaves a cell long if it is no branch, or if a target is out of reach. -/
theorem nextForm_eq_long {t : Targets} {a : Nat} {c : Cell} (h : c.nextForm t a = .ok .long) :
    ∃ offsets, c.op.operation.offsets t a = .ok offsets ∧
      (offsets = [] ∨ ∃ offset, some offset ∈ offsets ∧ ¬FitsSigned 1 offset) := by
  unfold Cell.nextForm at h
  split at h
  · cases h
  · obtain ⟨offsets, hoffsets, h⟩ := bind_eq_ok.mp h
    refine ⟨offsets, hoffsets, ?_⟩
    dsimp only at h
    cases hfits : (!offsets.isEmpty && (offsets.filterMap id).all fitsByte) with
    | true =>
      rw [hfits] at h
      cases h
    | false =>
      rcases Bool.and_eq_false_iff.mp hfits with hempty | hfar
      · exact .inl (List.isEmpty_iff.mp (by simpa using hempty))
      · obtain ⟨offset, hmem, hoffset⟩ := all_eq_false.mp hfar
        obtain ⟨_, hoffsets, rfl⟩ := mem_filterMap.mp hmem
        exact .inr ⟨offset, hoffsets, fun hfit => hoffset (fitsByte_iff.mpr hfit)⟩

/-- Only branches are short. -/
def ShortBranches (chunks : List Chunk) : Prop :=
  ∀ c ∈ chunks, ∀ cell ∈ c.cells, cell.form = .short → cell.op.operation.branch?.isSome

/-- A round makes no cell short but branches. -/
theorem shortBranches_of_shortenRound {next : List Chunk}
    (h : shortenRound tokens chunks = .ok next) (hbranches : ShortBranches chunks) :
    ShortBranches next := by
  obtain ⟨-, hlen, hall⟩ := shortenRound_eq_ok h
  intro c' hc' cell' hcell' hshort
  obtain ⟨k, hk'⟩ := mem_iff_getElem?.mp hc'
  obtain ⟨c, hk⟩ := exists_getElem? hlen hk'
  obtain ⟨-, -, hstepped⟩ := hall k c c' hk hk'
  obtain ⟨j, hj'⟩ := mem_iff_getElem?.mp hcell'
  obtain ⟨cell, hj⟩ := exists_getElem? hstepped.narrows.length_eq hj'
  obtain ⟨form, hform, hget⟩ := hstepped.getElem? hj
  cases hj'.symm.trans hget
  cases hwas : cell.form with
  | short => exact hbranches c (mem_of_getElem? hk) cell (mem_of_getElem? hj) hwas
  | long =>
    -- a cell without offsets is left as it is
    cases hb : cell.op.operation.branch? with
    | some branch => rfl
    | none =>
      unfold Cell.nextForm at hform
      rw [hwas, offsets_of_branch?_eq_none hb] at hform
      cases hform
      cases hshort

theorem shortBranches_of_shortens {routines : List Routine}
    (h : Shortens tokens (routines.map Chunk.ofRoutine) chunks) : ShortBranches chunks := by
  induction h with
  | none =>
    intro c hc cell hcell hshort
    obtain ⟨r, -, rfl⟩ := mem_map.mp hc
    obtain ⟨op, -, rfl⟩ := mem_map.mp hcell
    cases hshort
  | round _ hround ih => exact shortBranches_of_shortenRound hround ih

/-! ## The end -/

theorem refs_ne_nil {operation : Operation} {opcode : Opcode} {refs : List (Option Reference)}
    (h : operation.branch? = some (opcode, refs)) : refs ≠ [] := by
  cases operation with
  | jump | endTry | call | «try» =>
    cases h
    exact cons_ne_nil _ _
  | _ => cases h

theorem fitsSigned_one_iff {offset : Int} : FitsSigned 1 offset ↔ -128 ≤ offset ∧ offset ≤ 127 := by
  rw [← fitsByte_iff, fitsByte, Bool.and_eq_true, decide_eq_true_iff, decide_eq_true_iff]

/-- `shorten` ends without a fault on the code of functions that can be laid out, and whose branches
lead somewhere, after at most one round more than branches have become short. It changes forms only.
In the `layout` of what it ends with, all targets of every short branch are within the reach of one
byte, and every branch that is left long has a target that is not. So shortening once more changes
nothing. -/
theorem shorten_ends (tokens : TokenTable) (routines : List Routine) (l : Layout)
    (hlayout : layout (routines.map Chunk.ofRoutine) = .ok l)
    (hresolves : l.Resolves tokens (routines.map Chunk.ofRoutine)) :
    ∃ chunks n l', shorten tokens (routines.map Chunk.ofRoutine) = .ok chunks ∧
      shortenRounds tokens n (routines.map Chunk.ofRoutine) = .ok chunks ∧
      n ≤ formCount .short chunks + 1 ∧
      List.Forall₂ (fun r c => c.id = r.id ∧ c.name = r.name ∧ c.ops = r.ops) routines chunks ∧
      layout chunks = .ok l' ∧
      (∀ (k : Nat) c (j : Nat) cell, chunks[k]? = some c → c.cells[j]? = some cell →
        cell.form = .short →
        ∃ offsets, l'.Measures tokens chunks k j cell offsets ∧ offsets ≠ [] ∧
          ∀ offset, some offset ∈ offsets → -128 ≤ offset ∧ offset ≤ 127) ∧
      (∀ (k : Nat) c (j : Nat) cell, chunks[k]? = some c → c.cells[j]? = some cell →
        cell.form = .long →
        ∃ offsets, l'.Measures tokens chunks k j cell offsets ∧
          (offsets ≠ [] → ∃ offset, some offset ∈ offsets ∧ (offset < -128 ∨ 127 < offset))) ∧
      shorten tokens chunks = .ok chunks := by
  obtain ⟨hfits, rfl⟩ := layout_eq_ok_iff.mp hlayout
  have hmeasured := (measured_iff_resolves hfits.1).mpr hresolves
  obtain ⟨chunks, hshorten⟩ := exists_shorten_of_measured hfits hmeasured
  have hshortens := shortens_of_shorten .none hshorten
  have hnarrows := narrows_of_shortens hshortens
  have hfits' := fits_of_narrows hnarrows hfits
  have hmeasured' := measured_of_narrows hnarrows hfits hmeasured
  have hlast := shortenRound_of_shorten hshorten
  obtain ⟨n, hrounds, hn⟩ := exists_shortenRounds hshorten
  refine ⟨chunks, n, layoutOf chunks, hshorten, hrounds, ?_, ?_,
    layout_eq_ok_iff.mpr ⟨hfits', rfl⟩, ?_, ?_, shorten_of_shortenRound hlast⟩
  · -- all cells were long, and the short ones are those that are long no more
    have htotal := formCount_short_add_long chunks
    have htotal' := formCount_short_add_long (routines.map Chunk.ofRoutine)
    have hlength := (allCells_narrows hnarrows).length_eq
    omega
  · rw [forall₂_map_left_iff] at hnarrows
    refine hnarrows.imp fun r c hc => ⟨hc.id_eq, hc.name_eq, ?_⟩
    rw [Chunk.ops, map_op_of_narrows hc.cells]
    exact Chunk.ops_ofRoutine r
  · intro k c j cell hk hj hshort
    obtain ⟨offsets, hoffsets⟩ := hmeasured' k c j cell hk hj
    refine ⟨offsets, (measures_layoutOf_iff hfits'.1 hk hj).mpr hoffsets, ?_, fun offset hmem => ?_⟩
    · have hbranch := shortBranches_of_shortens hshortens c (mem_of_getElem? hk) cell
        (mem_of_getElem? hj) hshort
      obtain ⟨⟨opcode, refs⟩, hb⟩ := Option.isSome_iff_exists.mp hbranch
      have hlength := ((offsets_eq_ok_iff hb).mp hoffsets).length_eq
      rintro rfl
      exact refs_ne_nil hb (length_eq_zero_iff.mp hlength)
    · have hfit := offsetsFit tokens hfits' (shortReach_of_shortens hshortens) hk hj hoffsets
      rw [hshort] at hfit
      exact fitsSigned_one_iff.mp (hfit offset hmem)
  · -- the last round left the cell long, so one of its offsets is too large
    intro k c j cell hk hj hlong
    obtain ⟨-, -, hstepped⟩ := (shortenRound_eq_ok hlast).2.2 k c c hk hk
    obtain ⟨form, hform, hget⟩ := hstepped.getElem? hj
    have hsame : cell.form = form := congrArg Cell.form (Option.some.inj (hj.symm.trans hget))
    rw [← hsame, hlong] at hform
    obtain ⟨offsets, hoffsets, hfar⟩ := nextForm_eq_long hform
    refine ⟨offsets, (measures_layoutOf_iff hfits'.1 hk hj).mpr hoffsets, fun hne => ?_⟩
    obtain ⟨offset, hmem, hoffset⟩ := hfar.resolve_left hne
    refine ⟨offset, hmem, ?_⟩
    rw [fitsSigned_one_iff] at hoffset
    omega

/-- A function with a jump that reaches its target only after another one has become short, and
with one back to its start that never does. -/
def cascading : Routine where
  id := 0
  name := "cascading"
  ops := [⟨.label 3, none⟩, ⟨.jump .ifTrue 1, none⟩, ⟨.pushData (List.replicate 116 0), none⟩,
    ⟨.jump .always 2, none⟩, ⟨.simple .nop, none⟩, ⟨.label 2, none⟩, ⟨.label 1, none⟩,
    ⟨.pushData (List.replicate 10 0), none⟩, ⟨.jump .ifFalse 3, none⟩, ⟨.return, none⟩]

/-- Its code, with some of the jumps short. -/
def cascadingCode (short : List Nat) : List Chunk :=
  [⟨0, "cascading", cascading.ops.mapIdx fun j op => ⟨op, if j ∈ short then .short else .long⟩⟩]

theorem shorten_ends_cascading : ∃ l chunks l' offsets offset,
    layout ([cascading].map Chunk.ofRoutine) = .ok l ∧
      l.Resolves .empty ([cascading].map Chunk.ofRoutine) ∧
      shorten .empty ([cascading].map Chunk.ofRoutine) = .ok chunks ∧
      chunks = cascadingCode [1, 3] ∧ layout chunks = .ok l' ∧
      l'.Measures .empty chunks 0 8 ⟨⟨.jump .ifFalse 3, none⟩, .long⟩ offsets ∧
      some offset ∈ offsets ∧ (offset < -128 ∨ 127 < offset) ∧
      shorten .empty chunks = .ok chunks := by
  have hlong : (encode .empty ([cascading].map Chunk.ofRoutine)).toOption.isSome := by
    decide +kernel
  obtain ⟨script, hencode⟩ :
      ∃ script, encode .empty ([cascading].map Chunk.ofRoutine) = .ok script := by
    cases hencode : encode .empty ([cascading].map Chunk.ofRoutine) with
    | ok script => exact ⟨script, rfl⟩
    | error e =>
      rw [hencode] at hlong
      cases hlong
  have hfits := (encodes_of_encode hencode).fits
  have hlayout := layout_eq_ok_iff.mpr ⟨hfits, rfl⟩
  have hresolves := (measured_iff_resolves hfits.1).mp (measured_of_encode hencode)
  obtain ⟨chunks, n, l', hshorten, -, -, -, hlayout', -, hleft, hagain⟩ :=
    shorten_ends .empty [cascading] _ hlayout hresolves
  have hfirst : shortenRound .empty ([cascading].map Chunk.ofRoutine) =
      .ok (cascadingCode [3]) := by decide +kernel
  have hsecond : shortenRound .empty (cascadingCode [3]) = .ok (cascadingCode [1, 3]) := by
    decide +kernel
  have hthird : shortenRound .empty (cascadingCode [1, 3]) = .ok (cascadingCode [1, 3]) := by
    decide +kernel
  have hchunks : chunks = cascadingCode [1, 3] := by
    rw [shorten, hfirst] at hshorten
    dsimp only at hshorten
    rw [if_pos (by decide), shorten, hsecond] at hshorten
    dsimp only at hshorten
    rw [if_pos (by decide), shorten_of_shortenRound hthird] at hshorten
    exact (Except.ok.inj hshorten).symm
  subst hchunks
  obtain ⟨offsets, hmeasures, hfar⟩ := hleft 0 _ 8 ⟨⟨.jump .ifFalse 3, none⟩, .long⟩ rfl rfl rfl
  have hne : offsets ≠ [] := by
    obtain ⟨c, start, p, address, hk, hj, hf, ha, hoffsets⟩ := hmeasures
    have hlength := ((offsets_eq_ok_iff rfl).mp hoffsets).length_eq
    rintro rfl
    cases hlength
  obtain ⟨offset, hmem, hoffset⟩ := hfar hne
  exact ⟨_, _, l', offsets, offset, hlayout, hresolves, hshorten, rfl, hlayout', hmeasures, hmem,
    hoffset, hagain⟩

end ContractScript
