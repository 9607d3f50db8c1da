import ContractScript.Proofs.Written

/-!
# Faults of a script, all or the first

Encoding ends at the first fault, or it goes on and reports the first fault of every function. In
the second case a function without a full placement takes up the bytes of what could be placed, and
the others are encoded around it.
-/

namespace ContractScript

open List

variable {t : Targets} {a k start : Nat} {cs : List Cell} {is : List Located} {chunks : List Chunk}
  {c : Chunk} {tokens : TokenTable} {e : EncodingError} {owner : Option Nat}

/-! ## What stands in the way -/

/-- What the operations of a function can refer to that starts at `start`, among the others. -/
def sharedTargets (tokens : TokenTable) (chunks : List Chunk) (c : Chunk) (start : Nat) : Targets :=
  ⟨labelsFrom start c.cells, (layoutEach chunks).1.starts, tokens.size⟩

/-- The first fault of the function at a position, or the size of the whole script. -/
inductive Obstructs (tokens : TokenTable) (chunks : List Chunk) :
    Option Nat → EncodingError → Prop where
  /-- An operation has no size. -/
  | unplaced {k : Nat} {c : Chunk} {before after : List Cell} {cell : Cell} {fault : Fault} :
    chunks[k]? = some c → c.cells = before ++ cell :: after → Sized before →
    cell.size = .error fault →
    Obstructs tokens chunks (some k) (fault.toError c.name cell.op.location)
  /-- All operations have a size, and one of them cannot be written where it stands. -/
  | unwritten {k start : Nat} {c : Chunk} {before after : List Cell} {cell : Cell}
    {is : List Located} {fault : Fault} :
    chunks[k]? = some c → (layoutEach chunks).1.start? k = some start → Sized c.cells →
    c.cells = before ++ cell :: after →
    Written (sharedTargets tokens chunks c start) start before is (start + totalWidth before) →
    cell.bytes (sharedTargets tokens chunks c start) (start + totalWidth before) = .error fault →
    Obstructs tokens chunks (some k) (fault.toError c.name cell.op.location)
  | tooLarge : maxScriptSize < (layoutEach chunks).1.size →
    Obstructs tokens chunks none (.scriptTooLarge (layoutEach chunks).1.size maxScriptSize)

/-- The function at a position can be laid out, and written where it stands among the others. -/
def EncodableIn (tokens : TokenTable) (chunks : List Chunk) (k : Nat) (c : Chunk) : Prop :=
  Sized c.cells ∧ ∃ start is, (layoutEach chunks).1.start? k = some start ∧
    Written (sharedTargets tokens chunks c start) start c.cells is (start + totalWidth c.cells)

/-! ## The first fault of a function -/

/-- `placeCells` ends at the first cell without a size. -/
theorem placeCells_fault_iff {name : String} {e : EncodingError} :
    ∀ {a : Nat} {cells : List Cell}, (placeCells name a cells).fault = some e ↔
      ∃ before, ∃ cell : Cell, ∃ after fault, cells = before ++ cell :: after ∧ Sized before ∧
        cell.size = .error fault ∧ e = fault.toError name cell.op.location
  | _, [] => by
    constructor
    · intro h
      cases h
    · rintro ⟨before, cell, after, fault, heq, -⟩
      simp at heq
  | a, c :: cs => by
    rw [placeCells]
    cases hsize : c.size with
    | error fault =>
      constructor
      · intro h
        cases h
        exact ⟨[], c, cs, fault, rfl, forall_mem_nil _, hsize, rfl⟩
      · rintro ⟨before, cell, after, fault', heq, hsized, hfault, rfl⟩
        cases before with
        | nil =>
          cases heq
          cases hsize.symm.trans hfault
          rfl
        | cons b before =>
          cases heq
          cases hsize.symm.trans hsized.of_cons.1
    | ok n =>
      dsimp only
      rw [placeCells_fault_iff]
      constructor
      · rintro ⟨before, cell, after, fault, rfl, hsized, hfault, rfl⟩
        refine ⟨c :: before, cell, after, fault, rfl, ?_, hfault, rfl⟩
        exact forall_mem_cons.mpr ⟨by rw [hsize, Cell.width_of_size hsize], hsized⟩
      · rintro ⟨before, cell, after, fault, heq, hsized, hfault, rfl⟩
        cases before with
        | nil =>
          cases heq
          cases hsize.symm.trans hfault
        | cons b before =>
          cases heq
          exact ⟨before, cell, after, fault, rfl, hsized.of_cons.2, hfault, rfl⟩

/-- What a cell is written as, put in front of what the cells after it are written as. -/
theorem Written.cons_of_bytes {c : Cell} {bytes : List UInt8} (h : c.bytes t a = .ok bytes)
    (hrest : Written t (a + c.width) cs is (a + c.width + totalWidth cs)) :
    ∃ is', Written t a (c :: cs) is' (a + totalWidth (c :: cs)) := by
  rw [totalWidth, ← Nat.add_assoc]
  rcases Cell.bytes_eq_ok_iff.mp h with ⟨hmarker, -⟩ | ⟨i, hi, -⟩
  · rw [width_of_isMarker hmarker, Nat.add_zero] at hrest ⊢
    exact ⟨is, .marker hmarker hrest⟩
  · rw [width_of_instruction hi] at hrest ⊢
    exact ⟨⟨i, a⟩ :: is, .code hi hrest⟩

/-- The first of the cells that are written can be, and so can those after it. -/
theorem Written.of_cons {c : Cell} (h : Written t a (c :: cs) is (a + totalWidth (c :: cs))) :
    (∃ bytes, c.bytes t a = .ok bytes) ∧
      ∃ is', Written t (a + c.width) cs is' (a + c.width + totalWidth cs) := by
  rw [totalWidth, ← Nat.add_assoc] at h
  cases h with
  | marker hmarker hrest =>
    rw [width_of_isMarker hmarker, Nat.add_zero] at hrest ⊢
    exact ⟨⟨[], Cell.bytes_eq_ok_iff.mpr (.inl ⟨hmarker, rfl⟩)⟩, is, hrest⟩
  | code hi hrest =>
    rw [width_of_instruction hi] at hrest ⊢
    exact ⟨⟨_, Cell.bytes_eq_ok_iff.mpr (.inr ⟨_, hi, rfl⟩)⟩, _, hrest⟩

/-- `encodeCells` ends at the first cell that cannot be written at its address. -/
theorem encodeCells_eq_error_iff {t : Targets} {name : String} {e : EncodingError} :
    ∀ {a : Nat} {cells : List Cell}, encodeCells t name (addressesFrom a cells) cells = .error e ↔
      ∃ before, ∃ cell : Cell, ∃ after is fault, cells = before ++ cell :: after ∧
        Written t a before is (a + totalWidth before) ∧
        cell.bytes t (a + totalWidth before) = .error fault ∧
        e = fault.toError name cell.op.location
  | _, [] => by
    constructor
    · intro h
      cases h
    · rintro ⟨before, cell, after, is, fault, heq, -⟩
      simp at heq
  | a, c :: cs => by
    rw [addressesFrom, encodeCells]
    cases hbytes : c.bytes t a with
    | error fault =>
      constructor
      · intro h
        cases h
        exact ⟨[], c, cs, [], fault, rfl, .nil, hbytes, rfl⟩
      · rintro ⟨before, cell, after, is, fault', heq, hwritten, hfault, rfl⟩
        cases before with
        | nil =>
          cases heq
          cases hbytes.symm.trans hfault
          rfl
        | cons b before =>
          cases heq
          obtain ⟨bytes, hok⟩ := hwritten.of_cons.1
          cases hbytes.symm.trans hok
    | ok bytes =>
      have hrest : (∃ before, ∃ cell : Cell, ∃ after is fault, cs = before ++ cell :: after ∧
          Written t (a + c.width) before is (a + c.width + totalWidth before) ∧
          cell.bytes t (a + c.width + totalWidth before) = .error fault ∧
          e = fault.toError name cell.op.location) ↔
          ∃ before, ∃ cell : Cell, ∃ after is fault, c :: cs = before ++ cell :: after ∧
            Written t a before is (a + totalWidth before) ∧
            cell.bytes t (a + totalWidth before) = .error fault ∧
            e = fault.toError name cell.op.location := by
        constructor
        · rintro ⟨before, cell, after, is, fault, rfl, hwritten, hfault, rfl⟩
          obtain ⟨is', hwritten'⟩ := Written.cons_of_bytes hbytes hwritten
          rw [Nat.add_assoc] at hfault
          exact ⟨c :: before, cell, after, is', fault, rfl, hwritten', hfault, rfl⟩
        · rintro ⟨before, cell, after, is, fault, heq, hwritten, hfault, rfl⟩
          cases before with
          | nil =>
            cases heq
            cases hbytes.symm.trans hfault
          | cons b before =>
            cases heq
            obtain ⟨is', hwritten'⟩ := hwritten.of_cons.2
            rw [totalWidth, ← Nat.add_assoc] at hfault
            exact ⟨before, cell, after, is', fault, rfl, hwritten', hfault, rfl⟩
      rw [← hrest, ← encodeCells_eq_error_iff]
      cases encodeCells t name (addressesFrom (a + c.width) cs) cs with
      | error e' => simp
      | ok rest => simp

/-! ## Functions in a shared layout -/

variable {f : Chunk × Nat × Placement}

theorem exists_of_placeChunks : ∀ (chunks : List Chunk) {a k : Nat} {f : Nat × Placement},
    (placeChunks a chunks)[k]? = some f →
      ∃ c, chunks[k]? = some c ∧ f.2 = placeCells c.name f.1 c.cells
  | c :: _, _, 0, f, h => by
    cases h
    exact ⟨c, rfl, rfl⟩
  | _ :: cs, _, k + 1, f, h => by
    rw [placeChunks, getElem?_cons_succ] at h
    exact exists_of_placeChunks cs h

/-- The function at a position in the layout that all functions share. -/
theorem exists_placed (h : chunks[k]? = some c) :
    ∃ start, (layoutEach chunks).1.start? k = some start ∧
      (layoutEach chunks).1.functions[k]? = some (start, placeCells c.name start c.cells) := by
  have hlength : (placeChunks 0 chunks).length = chunks.length := length_placeChunks 0 chunks
  obtain ⟨f, hf⟩ := exists_getElem? hlength h
  obtain ⟨c', hc', hplaced⟩ := exists_of_placeChunks chunks hf
  cases h.symm.trans hc'
  have hfunction : (layoutEach chunks).1.functions[k]? = some f := hf
  refine ⟨f.1, ?_, ?_⟩
  · rw [Layout.start?, Layout.starts, getElem?_map, hfunction]
    rfl
  · rw [hfunction, ← hplaced]

/-- The functions of the shared layout, next to what they are laid out from. -/
theorem getElem?_zip_functions : (chunks.zip (layoutEach chunks).1.functions)[k]? = some f ↔
      ∃ c start, chunks[k]? = some c ∧ (layoutEach chunks).1.start? k = some start ∧
        f = (c, start, placeCells c.name start c.cells) := by
  rw [getElem?_zip_eq_some]
  constructor
  · rintro ⟨hc, hf⟩
    obtain ⟨start, hstart, hplaced⟩ := exists_placed hc
    exact ⟨f.1, start, hc, hstart, Prod.ext rfl (Option.some.inj (hf.symm.trans hplaced))⟩
  · rintro ⟨c, start, hc, hstart, rfl⟩
    obtain ⟨start', hstart', hplaced⟩ := exists_placed hc
    cases hstart.symm.trans hstart'
    exact ⟨hc, hplaced⟩

/-- The fault of encoding a function, if it is placed in full. -/
def encodingFault? (l : Layout) (tokens : TokenTable) (f : Chunk × Nat × Placement) :
    Option EncodingError :=
  if f.2.2.fault.isNone then
    match encodeChunk l.starts tokens.size f.1 f.2.1 f.2.2 with
    | .error e => some e
    | .ok _ => none
  else none

theorem encodingFault?_of_fault {l : Layout} (h : f.2.2.fault = some e) :
    encodingFault? l tokens f = none := by
  rw [encodingFault?, h]
  rfl

/-- A function that is placed in full has an `encodingFault?` exactly if its cells cannot be
written. -/
theorem encodingFault?_of_sized (hsized : Sized c.cells) :
    encodingFault? (layoutEach chunks).1 tokens (c, start, placeCells c.name start c.cells) =
        some e ↔
      encodeCells (sharedTargets tokens chunks c start) c.name (addressesFrom start c.cells)
        c.cells = .error e := by
  rw [encodingFault?, placeCells_of_sized c.name start hsized, encodeChunk, sharedTargets]
  dsimp only [Option.isNone_none]
  rw [if_pos rfl]
  split
  · next h =>
    split at h
    · next h' =>
      cases h
      rw [h', Option.some_inj, Except.error.injEq]
    · cases h
  · next h =>
    split at h
    · cases h
    · next h' =>
      rw [h']
      simp

/-- A function `Obstructs` the script by its placement or by its encoding. -/
theorem obstructs_some_iff (hk : chunks[k]? = some c)
    (hstart : (layoutEach chunks).1.start? k = some start) :
    Obstructs tokens chunks (some k) e ↔ (placeCells c.name start c.cells).fault = some e ∨
      encodingFault? (layoutEach chunks).1 tokens (c, start, placeCells c.name start c.cells) =
        some e := by
  constructor
  · intro h
    cases h with
    | unplaced hk' hcells hsized hfault =>
      cases hk.symm.trans hk'
      exact .inl (placeCells_fault_iff.mpr ⟨_, _, _, _, hcells, hsized, hfault, rfl⟩)
    | unwritten hk' hstart' hsized hcells hwritten hfault =>
      cases hk.symm.trans hk'
      cases hstart.symm.trans hstart'
      exact .inr ((encodingFault?_of_sized hsized).mpr
        (encodeCells_eq_error_iff.mpr ⟨_, _, _, _, _, hcells, hwritten, hfault, rfl⟩))
  · rintro (h | h)
    · obtain ⟨before, cell, after, fault, hcells, hsized, hfault, rfl⟩ :=
        placeCells_fault_iff.mp h
      exact .unplaced hk hcells hsized hfault
    · cases hplaced : (placeCells c.name start c.cells).fault with
      | some e' => rw [encodingFault?_of_fault hplaced] at h; cases h
      | none =>
        have hsized := sized_of_placeCells c.name start hplaced
        obtain ⟨before, cell, after, is, fault, hcells, hwritten, hfault, rfl⟩ :=
          encodeCells_eq_error_iff.mp ((encodingFault?_of_sized hsized).mp h)
        exact .unwritten hk hstart hsized hcells hwritten hfault

/-- A function `Obstructs` the script exactly if it is not `EncodableIn` it. -/
theorem exists_obstructs_iff (hk : chunks[k]? = some c) :
    (∃ e, Obstructs tokens chunks (some k) e) ↔ ¬EncodableIn tokens chunks k c := by
  obtain ⟨start, hstart, -⟩ := exists_placed hk
  constructor
  · rintro ⟨e, h⟩ ⟨hsized, start', is, hstart', hwritten⟩
    cases hstart.symm.trans hstart'
    rcases (obstructs_some_iff hk hstart).mp h with h | h
    · rw [placeCells_of_sized c.name start hsized] at h
      cases h
    · rw [encodingFault?_of_sized hsized, encodeCells_eq_ok_iff.mpr ⟨is, hwritten, rfl⟩] at h
      cases h
  · intro hnot
    cases hplaced : (placeCells c.name start c.cells).fault with
    | some e => exact ⟨e, (obstructs_some_iff hk hstart).mpr (.inl hplaced)⟩
    | none =>
      have hsized := sized_of_placeCells c.name start hplaced
      cases henc : encodeCells (sharedTargets tokens chunks c start) c.name
          (addressesFrom start c.cells) c.cells with
      | error e =>
        exact ⟨e, (obstructs_some_iff hk hstart).mpr
          (.inr ((encodingFault?_of_sized hsized).mpr henc))⟩
      | ok bytes =>
        obtain ⟨is, hwritten, -⟩ := encodeCells_eq_ok_iff.mp henc
        exact absurd ⟨hsized, start, is, hstart, hwritten⟩ hnot

/-! ## Positions of faults -/

/-- What is found at the elements of a list, with their positions. -/
def indexed {α β : Type} (f : α → Option β) (xs : List α) : List (Option Nat × β) :=
  xs.zipIdx.filterMap fun (x, k) => (f x).map fun b => (some k, b)

section Indexed

variable {α β : Type} {f : α → Option β} {xs : List α}

theorem map_snd_indexed (f : α → Option β) (xs : List α) :
    (indexed f xs).map Prod.snd = xs.filterMap f := by
  rw [indexed, map_filterMap]
  conv => rhs; rw [← zipIdx_map_fst 0 xs, filterMap_map]
  congr 1
  funext ⟨x, k⟩
  cases hf : f x with
  | none => simp [hf]
  | some b => simp [hf]

/-- `indexed` finds what is at the elements, with their positions. -/
theorem mem_indexed {b : β} :
    (owner, b) ∈ indexed f xs ↔ ∃ k x, owner = some k ∧ xs[k]? = some x ∧ f x = some b := by
  rw [indexed, mem_filterMap]
  constructor
  · rintro ⟨⟨x, k⟩, hmem, h⟩
    obtain ⟨b', hb, heq⟩ := Option.map_eq_some_iff.mp h
    cases heq
    exact ⟨k, x, rfl, mk_mem_zipIdx_iff_getElem?.mp hmem, hb⟩
  · rintro ⟨k, x, rfl, hx, hb⟩
    refine ⟨(x, k), mk_mem_zipIdx_iff_getElem?.mpr hx, ?_⟩
    dsimp only
    rw [hb]
    rfl

/-- No position is found twice. -/
theorem nodup_indexed (f : α → Option β) (xs : List α) : ((indexed f xs).map Prod.fst).Nodup := by
  have hdistinct : xs.zipIdx.Pairwise fun x y => x.2 ≠ y.2 := by
    apply pairwise_map.mp
    rw [zipIdx_map_snd]
    exact nodup_range'
  rw [List.Nodup, pairwise_map, indexed, pairwise_filterMap]
  refine hdistinct.imp fun {x y} hne b hb b' hb' heq => hne ?_
  obtain ⟨_, -, rfl⟩ := Option.map_eq_some_iff.mp hb
  obtain ⟨_, -, rfl⟩ := Option.map_eq_some_iff.mp hb'
  exact Option.some.inj heq

end Indexed

/-! ## The report of all faults -/

/-- All faults with the functions they are in: those of the placement, the size of the whole, and
those of the encoding. -/
def faultReport (tokens : TokenTable) (chunks : List Chunk) : List (Option Nat × EncodingError) :=
  let l := (layoutEach chunks).1
  let placed := chunks.zip l.functions
  indexed (fun f => f.2.2.fault) placed ++
    (if maxScriptSize < l.size then [(none, .scriptTooLarge l.size maxScriptSize)] else []) ++
    indexed (encodingFault? l tokens) placed

/-- The part of the report that `layoutEach` already has. -/
theorem map_snd_layoutFaults (chunks : List Chunk) :
    (indexed (fun f => f.2.2.fault) (chunks.zip (layoutEach chunks).1.functions)).map Prod.snd ++
        ((if maxScriptSize < (layoutEach chunks).1.size then
          [((none : Option Nat), EncodingError.scriptTooLarge (layoutEach chunks).1.size
            maxScriptSize)]
          else []).map Prod.snd) =
      (layoutEach chunks).2 := by
  have hlength : (placeChunks 0 chunks).length ≤ chunks.length :=
    Nat.le_of_eq (length_placeChunks 0 chunks)
  rw [map_snd_indexed]
  show (chunks.zip (placeChunks 0 chunks)).filterMap ((fun f => f.2.fault) ∘ Prod.snd) ++ _ = _
  rw [← filterMap_map, map_snd_zip hlength, layoutEach]
  dsimp only
  split
  · rfl
  · rfl

/-- The faults of the functions that are placed in full. -/
theorem failures_placed (tokens : TokenTable) (l : Layout) (chunks : List Chunk) :
    failures (((chunks.zip l.functions).filter fun f => f.2.2.fault.isNone).map fun f =>
        encodeChunk l.starts tokens.size f.1 f.2.1 f.2.2) =
      (chunks.zip l.functions).filterMap (encodingFault? l tokens) := by
  rw [failures, filterMap_map, filterMap_filter]
  congr 1
  funext f
  rw [encodingFault?, Function.comp_apply]
  cases encodeChunk l.starts tokens.size f.1 f.2.1 f.2.2 with
  | error e => rfl
  | ok part => rfl

/-- `faultReport` has the faults of `encodeEach` in order. -/
theorem map_snd_faultReport (tokens : TokenTable) (chunks : List Chunk) :
    (faultReport tokens chunks).map Prod.snd = (layoutEach chunks).2 ++
      failures (((chunks.zip (layoutEach chunks).1.functions).filter fun f =>
        f.2.2.fault.isNone).map fun f =>
          encodeChunk (layoutEach chunks).1.starts tokens.size f.1 f.2.1 f.2.2) := by
  rw [faultReport, map_append, map_append, map_snd_layoutFaults, map_snd_indexed,
    failures_placed]

/-- `encodeEach` fails with the report, unless it is empty. -/
theorem encodeEach_eq_error (h : (faultReport tokens chunks).map Prod.snd ≠ []) :
    encodeEach tokens chunks = .error ((faultReport tokens chunks).map Prod.snd) := by
  rw [map_snd_faultReport] at h ⊢
  unfold encodeEach
  dsimp only
  split
  · next hnil => exact absurd hnil h
  · rfl

/-- The first outcome that fails is the outcome of all. -/
theorem mapM_id_eq_error_iff {α : Type} {e : EncodingError} :
    ∀ {outcomes : List (Except EncodingError α)},
    outcomes.mapM id = .error e ↔ (failures outcomes).head? = some e
  | [] => by
    rw [mapM_nil]
    exact ⟨nofun, nofun⟩
  | .error e' :: outcomes => by
    rw [mapM_cons]
    constructor
    · intro h
      cases h
      rfl
    · intro h
      cases h
      rfl
  | .ok part :: outcomes => by
    have hrest : failures (.ok part :: outcomes) = failures outcomes := rfl
    rw [hrest, ← mapM_id_eq_error_iff, mapM_cons]
    cases outcomes.mapM id with
    | error e' => exact Iff.rfl
    | ok parts => exact ⟨nofun, nofun⟩

/-- `encode` fails with the first fault of the report. -/
theorem head_faultReport (h : encode tokens chunks = .error e) :
    ((faultReport tokens chunks).map Prod.snd).head? = some e := by
  rw [map_snd_faultReport, head?_append]
  rw [encode] at h
  cases hlayout : layout chunks with
  | error e' =>
    rw [hlayout] at h
    cases h
    rw [layout] at hlayout
    split at hlayout
    · cases hlayout
    · next hfaults =>
      cases hlayout
      rw [hfaults]
      rfl
  | ok l =>
    obtain ⟨hfits, rfl⟩ := layout_eq_ok_iff.mp hlayout
    rw [layoutEach_eq_nil_iff.mpr hfits, layoutEach_of_sized hfits.1, filter_placed hfits]
    rw [hlayout] at h
    rcases bind_eq_error.mp h with h | ⟨l, hl, h⟩
    · cases h
    cases hl
    rcases bind_eq_error.mp h with h | ⟨parts, -, h⟩
    · exact mapM_id_eq_error_iff.mp h
    · cases h

/-- `faultReport` names what `Obstructs` the script, and all of it. -/
theorem mem_faultReport :
    (owner, e) ∈ faultReport tokens chunks ↔ Obstructs tokens chunks owner e := by
  rw [faultReport, mem_append, mem_append, mem_indexed, mem_indexed]
  cases owner with
  | none =>
    constructor
    · rintro ((⟨_, _, h, -⟩ | h) | ⟨_, _, h, -⟩)
      · cases h
      · split at h
        · next hlarge =>
          cases mem_singleton.mp h
          exact .tooLarge hlarge
        · cases h
      · cases h
    · intro h
      cases h with
      | tooLarge hlarge =>
        rw [if_pos hlarge]
        exact .inl (.inr (mem_singleton_self _))
  | some k =>
    constructor
    · rintro ((⟨_, f, h, hf, hfault⟩ | h) | ⟨_, f, h, hf, hfault⟩)
      · cases h
        obtain ⟨c, start, hc, hstart, rfl⟩ := getElem?_zip_functions.mp hf
        exact (obstructs_some_iff hc hstart).mpr (.inl hfault)
      · split at h
        · cases mem_singleton.mp h
        · cases h
      · cases h
        obtain ⟨c, start, hc, hstart, rfl⟩ := getElem?_zip_functions.mp hf
        exact (obstructs_some_iff hc hstart).mpr (.inr hfault)
    · intro h
      obtain ⟨c, hc⟩ : ∃ c, chunks[k]? = some c := by
        cases h with
        | unplaced hc => exact ⟨_, hc⟩
        | unwritten hc => exact ⟨_, hc⟩
      obtain ⟨start, hstart, -⟩ := exists_placed hc
      have hf := getElem?_zip_functions.mpr ⟨c, start, hc, hstart, rfl⟩
      rcases (obstructs_some_iff hc hstart).mp h with h | h
      · exact .inl (.inl ⟨k, _, rfl, hf, h⟩)
      · exact .inr ⟨k, _, rfl, hf, h⟩

/-- No function, and not the size of the whole, is in the report twice. -/
theorem nodup_faultReport (tokens : TokenTable) (chunks : List Chunk) :
    ((faultReport tokens chunks).map Prod.fst).Nodup := by
  rw [faultReport, map_append, map_append]
  refine nodup_append.mpr ⟨nodup_append.mpr ⟨nodup_indexed _ _, ?_, ?_⟩,
    nodup_indexed _ _, ?_⟩
  · split
    · exact pairwise_singleton _ _
    · exact nodup_nil
  · rintro _ howner owner h rfl
    obtain ⟨⟨_, e⟩, hmem, rfl⟩ := mem_map.mp howner
    obtain ⟨k, -, rfl, -⟩ := mem_indexed.mp hmem
    split at h
    · cases mem_singleton.mp h
    · cases h
  · rintro _ howner owner h rfl
    obtain ⟨⟨_, e⟩, hmem, rfl⟩ := mem_map.mp h
    obtain ⟨k, f, rfl, hf, hencode⟩ := mem_indexed.mp hmem
    rcases mem_append.mp howner with howner | howner
    · -- a function with a fault of its placement is not encoded
      obtain ⟨⟨_, e'⟩, hmem', howner⟩ := mem_map.mp howner
      obtain ⟨k', f', rfl, hf', hplaced⟩ := mem_indexed.mp hmem'
      cases howner
      cases hf.symm.trans hf'
      rw [encodingFault?_of_fault hplaced] at hencode
      cases hencode
    · split at howner
      · cases mem_singleton.mp howner
      · cases howner

/-! ## Both ways to encode -/

/-- `encode`, which ends at the first fault, and `encodeEach` give the same script. Where the first
one fails, the second one fails with a report that starts with the same fault; it has one entry for
each function that is not `EncodableIn` the shared layout, at most one for the size of the whole,
and no other. -/
theorem encode_agrees_with_encodeEach (tokens : TokenTable) (chunks : List Chunk) :
    (∀ script, encode tokens chunks = .ok script ↔ encodeEach tokens chunks = .ok script) ∧
    ∀ e, encode tokens chunks = .error e →
      ∃ entries : List (Option Nat × EncodingError),
        encodeEach tokens chunks = .error (entries.map Prod.snd) ∧
        (entries.map Prod.snd).head? = some e ∧
        (entries.map Prod.fst).Nodup ∧
        (∀ owner fault, (owner, fault) ∈ entries ↔ Obstructs tokens chunks owner fault) ∧
        ∀ k c, chunks[k]? = some c →
          (some k ∈ entries.map Prod.fst ↔ ¬EncodableIn tokens chunks k c) := by
  refine ⟨fun script => encodeEach_eq_ok_iff.symm, fun e h => ?_⟩
  have hhead := head_faultReport h
  refine ⟨faultReport tokens chunks, encodeEach_eq_error ?_, hhead, nodup_faultReport tokens chunks,
    fun _ _ => mem_faultReport, fun k c hc => ?_⟩
  · intro hnil
    rw [hnil] at hhead
    cases hhead
  · rw [← exists_obstructs_iff hc]
    simp only [← mem_faultReport, mem_map, Prod.exists, exists_and_right, exists_eq_right]

/-- A function with two slots out of range, one with a jump to no label, and one without a fault. -/
def faultyChunks : List Chunk :=
  [⟨0, "wide", [⟨⟨.load .local 300, none⟩, .long⟩, ⟨⟨.load .local 400, none⟩, .long⟩]⟩,
    ⟨1, "lost", [⟨⟨.jump .always 9, none⟩, .long⟩, ⟨⟨.return, none⟩, .long⟩]⟩,
    ⟨2, "fine", [⟨⟨.return, none⟩, .long⟩]⟩]

theorem faultyChunks_agrees :
    encode .empty faultyChunks =
      .error (.operandTooLarge "wide" "local slot index" 300 255 none) ∧
    ∃ entries : List (Option Nat × EncodingError),
      encodeEach .empty faultyChunks = .error (entries.map Prod.snd) ∧
      (entries.map Prod.snd).head? =
        some (.operandTooLarge "wide" "local slot index" 300 255 none) ∧
      (entries.map Prod.fst).Nodup ∧
      (∀ owner fault, (owner, fault) ∈ entries ↔ Obstructs .empty faultyChunks owner fault) ∧
      ∀ k c, faultyChunks[k]? = some c →
        (some k ∈ entries.map Prod.fst ↔ ¬EncodableIn .empty faultyChunks k c) :=
  ⟨rfl, (encode_agrees_with_encodeEach .empty faultyChunks).2 _ rfl⟩

end ContractScript
