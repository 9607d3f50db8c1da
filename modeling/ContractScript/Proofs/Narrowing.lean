import ContractScript.Proofs.Written

/-!
# Narrower code

Code in which some long branches have become short: the same operations at the same places, with
addresses that have moved closer together. Whatever was near stays near, and whatever could be
written still can.
-/

namespace ContractScript

variable {form : Form} {operation : Operation} {n i j a k : Nat} {c c' : Chunk} {is : List Located}
  {tokens : TokenTable}

/-- A `Cell` whose branch may have become short. -/
def Cell.Narrows (c c' : Cell) : Prop :=
  c'.op = c.op ∧ (c.form = .short → c'.form = .short)

/-- A function some of whose branches may have become short. -/
structure Chunk.Narrows (c c' : Chunk) : Prop where
  id_eq : c'.id = c.id
  name_eq : c'.name = c.name
  cells : List.Forall₂ Cell.Narrows c.cells c'.cells

/-! ## Widths -/

theorem Form.offsetWidth_le {form' : Form} (h : form = .short → form' = .short) :
    form'.offsetWidth ≤ form.offsetWidth := by
  cases form with
  | short =>
    cases h rfl
    exact Nat.le_refl _
  | long => cases form' <;> decide

/-- Every form of an operation has a size, or none has. -/
theorem exists_size (h : operation.size form = .ok n) (form' : Form) :
    ∃ n', operation.size form' = .ok n' := by
  cases hb : operation.branch? with
  | some b => exact ⟨_, size_of_branch hb form'⟩
  | none => exact ⟨n, size_eq_of_branch?_eq_none hb form' form ▸ h⟩

/-- A cell that `Narrows` takes no more bytes. -/
theorem Cell.Narrows.width_le {c c' : Cell} (h : c.Narrows c') : c'.width ≤ c.width := by
  have hop : c'.size = c.op.operation.size c'.form := by rw [Cell.size, h.1]
  cases hb : c.op.operation.branch? with
  | some b =>
    rw [Cell.width_of_size (hop.trans (size_of_branch hb c'.form)),
      Cell.width_of_size (size_of_branch hb c.form)]
    exact Nat.add_le_add_left (Nat.mul_le_mul_left _ (Form.offsetWidth_le h.2)) 1
  | none =>
    have hsize : c'.size = c.size := hop.trans (size_eq_of_branch?_eq_none hb c'.form c.form)
    refine Nat.le_of_eq ?_
    rw [Cell.width, hsize, Cell.width]

section Cells

variable {cells cells' : List Cell}

variable (h : List.Forall₂ Cell.Narrows cells cells')
include h

/-- `Sized` does not depend on forms. -/
theorem sized_of_narrows (hs : Sized cells) : Sized cells' := by
  intro c' hc'
  obtain ⟨k, hk⟩ := List.mem_iff_getElem?.mp hc'
  obtain ⟨hlen, hall⟩ := forall₂_iff_getElem?.mp h
  obtain ⟨c, hc⟩ := exists_getElem? hlen hk
  have hnarrow := hall k c c' hc hk
  obtain ⟨n, hn⟩ := exists_size (hs c (List.mem_of_getElem? hc)) c'.form
  have hsize : c'.size = .ok n := by rw [Cell.size, hnarrow.1, hn]
  rw [hsize, Cell.width_of_size hsize]

/-- `Narrows` keeps the operations. -/
theorem map_op_of_narrows : cells'.map Cell.op = cells.map Cell.op := by
  induction h with
  | nil => rfl
  | cons hc _ ih => rw [List.map_cons, List.map_cons, hc.1, ih]

theorem totalWidth_le_of_narrows : totalWidth cells' ≤ totalWidth cells := by
  induction h with
  | nil => exact Nat.le_refl _
  | cons hc _ ih => exact Nat.add_le_add hc.width_le ih

/-- From one place to a later one it is no further than before. -/
theorem totalWidth_take_narrows (hij : i ≤ j) :
    totalWidth (cells'.take j) + totalWidth (cells.take i) ≤
      totalWidth (cells.take j) + totalWidth (cells'.take i) := by
  induction h generalizing i j with
  | nil => simp only [List.take_nil, Nat.le_refl]
  | cons hc hcs ih =>
    cases i with
    | zero =>
      -- from the start on, all that lies before the later place has narrowed
      exact totalWidth_le_of_narrows (List.forall₂_take j (.cons hc hcs))
    | succ i =>
      cases j with
      | zero => exact absurd hij (Nat.not_succ_le_zero i)
      | succ j =>
        have := ih (Nat.le_of_succ_le_succ hij)
        simp only [List.take_succ_cons, totalWidth]
        omega

end Cells

/-! ## Places and addresses -/

section Chunks

variable {chunks chunks' : List Chunk}

variable (h : List.Forall₂ Chunk.Narrows chunks chunks')
include h

theorem allCells_narrows : List.Forall₂ Cell.Narrows (allCells chunks) (allCells chunks') := by
  induction h with
  | nil => exact .nil
  | cons hc _ ih =>
    rw [allCells_cons, allCells_cons]
    exact List.rel_append hc.cells ih

theorem placeOf_narrows (k : Nat) : placeOf chunks' k = placeOf chunks k :=
  (allCells_narrows (List.forall₂_take k h)).length_eq.symm

/-- References lead to the same places. -/
theorem place?_narrows (hc : c.Narrows c') (k : Nat) (r : Reference) :
    r.place? chunks' k c' = r.place? chunks k c := by
  cases r with
  | label l =>
    have hops : c'.ops = c.ops := map_op_of_narrows hc.cells
    simp only [Reference.place?, placeOf_narrows h, hops]
  | function id => simp only [Reference.place?, placeOf_narrows h, h.length_eq]

/-- No two places move apart, and none overtakes another. -/
theorem distance_le (hij : i ≤ j) : addressAt chunks' i ≤ addressAt chunks' j ∧
      addressAt chunks' j + addressAt chunks i ≤ addressAt chunks j + addressAt chunks' i :=
  ⟨totalWidth_take_le _ hij, totalWidth_take_narrows (allCells_narrows h) hij⟩

/-- An offset that fits in the wider code fits in the narrower one. -/
theorem fitsSigned_narrows (hfit : FitsSigned n ((addressAt chunks j : Int) - addressAt chunks i)) :
    FitsSigned n ((addressAt chunks' j : Int) - addressAt chunks' i) := by
  have hpos := byteRange_pos n
  obtain ⟨hlow, hhigh⟩ := hfit
  -- forward and backward branches
  rcases Nat.le_total i j with hij | hji
  · obtain ⟨hle, hdist⟩ := distance_le h hij
    constructor <;> omega
  · obtain ⟨hle, hdist⟩ := distance_le h hji
    constructor <;> omega

/-- Code that `Narrows` what can be laid out can be. -/
theorem fits_of_narrows (hfits : Fits chunks) : Fits chunks' :=
  ⟨sized_of_narrows (allCells_narrows h) hfits.1,
    Nat.le_trans (totalWidth_le_of_narrows (allCells_narrows h)) hfits.2⟩

end Chunks

/-! ## What can be written -/

section Writing

variable {t t' : Targets}

/-- `OffsetOf` gives offsets wherever the references resolve. -/
theorem exists_offsets {a : Nat} (a' : Nat)
    (hrefs : ∀ r n, t.resolve r = .ok n → ∃ n', t'.resolve r = .ok n') :
    ∀ {refs : List (Option Reference)} {offsets : List (Option Int)},
      List.Forall₂ (OffsetOf t a) refs offsets →
        ∃ offsets', List.Forall₂ (OffsetOf t' a') refs offsets'
  | [], _, _ => ⟨[], .nil⟩
  | none :: refs, _, .cons _ hrest => by
    obtain ⟨offsets', h'⟩ := exists_offsets a' hrefs hrest
    exact ⟨none :: offsets', .cons rfl h'⟩
  | some r :: refs, _, .cons ⟨n, hn, _⟩ hrest => by
    obtain ⟨offsets', h'⟩ := exists_offsets a' hrefs hrest
    obtain ⟨n', hn'⟩ := hrefs r n hn
    exact ⟨_ :: offsets', .cons ⟨n', hn', rfl⟩ h'⟩

/-- An operation can be written at any address and in any form where its references resolve. -/
theorem exists_instruction (hcount : t.tokenCount = t'.tokenCount)
    (hrefs : ∀ r n, t.resolve r = .ok n → ∃ n', t'.resolve r = .ok n') {i : Instruction}
    (h : operation.instruction t a form = .ok (some i)) (a' : Nat) (form' : Form) :
    ∃ i', operation.instruction t' a' form' = .ok (some i') := by
  cases hb : operation.branch? with
  | some b =>
    obtain ⟨offsets, hoffsets, -⟩ := eq_branchInstruction hb h
    obtain ⟨offsets', h'⟩ := exists_offsets a' hrefs hoffsets
    refine ⟨branchInstruction form' b.1 offsets', ?_⟩
    rw [instruction_of_branch hb, bind_eq_ok]
    exact ⟨offsets', (offsets_eq_ok_iff hb).mpr h', rfl⟩
  | none => exact ⟨i, instruction_eq_of_branch?_eq_none hb hcount a a' form form' ▸ h⟩

/-- Narrower cells can be written wherever the references of the wider ones resolve. -/
theorem exists_written (hcount : t.tokenCount = t'.tokenCount)
    (hrefs : ∀ r n, t.resolve r = .ok n → ∃ n', t'.resolve r = .ok n') {b : Nat}
    {cells : List Cell} (h : Written t a cells is b) :
    ∀ {cells' : List Cell}, List.Forall₂ Cell.Narrows cells cells' →
      ∀ a', ∃ is', Written t' a' cells' is' (a' + totalWidth cells') := by
  induction h with
  | nil =>
    intro cells' hn a'
    cases hn
    exact ⟨[], .nil⟩
  | @marker a b c cs is hm _ ih =>
    intro cells' hn a'
    obtain ⟨c', cs', hc, hcs, rfl⟩ := List.forall₂_cons_left_iff.mp hn
    have hm' : c'.op.operation.isMarker = true := hc.1 ▸ hm
    obtain ⟨is', h'⟩ := ih hcs a'
    refine ⟨is', .marker hm' ?_⟩
    rw [totalWidth, width_of_isMarker hm', Nat.zero_add]
    exact h'
  | @code a b c i cs is hi _ ih =>
    intro cells' hn a'
    obtain ⟨c', cs', hc, hcs, rfl⟩ := List.forall₂_cons_left_iff.mp hn
    obtain ⟨i', hi'⟩ := exists_instruction hcount hrefs hi a' c'.form
    rw [← hc.1] at hi'
    obtain ⟨is', h'⟩ := ih hcs (a' + i'.size)
    refine ⟨⟨i', a'⟩ :: is', .code hi' ?_⟩
    rw [totalWidth, width_of_instruction hi', ← Nat.add_assoc]
    exact h'

end Writing

variable {chunks chunks' : List Chunk}

/-- A reference that resolves in the wider code does in the narrower one. -/
theorem exists_resolve_of_narrows (tokens : TokenTable)
    (h : List.Forall₂ Chunk.Narrows chunks chunks') (hs : Sized (allCells chunks))
    (hk : chunks[k]? = some c) (hk' : chunks'[k]? = some c') {r : Reference}
    (hn : (targetsOf tokens chunks k c).resolve r = .ok n) :
    ∃ n', (targetsOf tokens chunks' k c').resolve r = .ok n' := by
  have hc := (forall₂_iff_getElem?.mp h).2 k c c' hk hk'
  obtain ⟨place, hplace, -⟩ := (resolve_eq_ok_iff tokens hs hk).mp hn
  have hs' := sized_of_narrows (allCells_narrows h) hs
  refine ⟨addressAt chunks' place, (resolve_eq_ok_iff tokens hs' hk').mpr ⟨place, ?_, rfl⟩⟩
  rw [place?_narrows h hc, hplace]

/-- Each function of narrower code can be written if it can be in the wider code. -/
theorem writtenAt_of_narrows (h : List.Forall₂ Chunk.Narrows chunks chunks')
    (hs : Sized (allCells chunks)) (hk : chunks[k]? = some c) (hk' : chunks'[k]? = some c')
    (hw : WrittenAt tokens chunks k c is) : ∃ is', WrittenAt tokens chunks' k c' is' := by
  have hc := (forall₂_iff_getElem?.mp h).2 k c c' hk hk'
  have hcount : (targetsOf tokens chunks k c).tokenCount =
      (targetsOf tokens chunks' k c').tokenCount := rfl
  refine exists_written hcount (fun r n hn => ?_) hw hc.cells (startOf chunks' k)
  exact exists_resolve_of_narrows tokens h hs hk hk' hn

/-- `encode` accepts narrower code if it accepts the wider. -/
theorem exists_encode_of_narrows (h : List.Forall₂ Chunk.Narrows chunks chunks') {script : Script}
    (he : encode tokens chunks = .ok script) : ∃ script', encode tokens chunks' = .ok script' := by
  have hencodes := encodes_of_encode he
  refine exists_encode (fits_of_narrows h hencodes.fits) fun k c' hk' => ?_
  obtain ⟨c, hk⟩ := exists_getElem? h.length_eq hk'
  obtain ⟨is, -, hw, -⟩ := hencodes.code k c hk
  exact writtenAt_of_narrows h hencodes.fits.1 hk hk' hw

end ContractScript
