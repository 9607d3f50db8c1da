import ContractScript.Proofs.FaultReports
import ContractScript.Proofs.RoundTrip

/-!
# Layout and code side by side

The encoder writes the operations of a function one by one and ends at the first that has a fault.
Whichever operation it comes to, the layout has an address for it, and that address is as far from
the start of the function as bytes of the function are written by then. The same functions are
written here into one buffer, where every address is compared with the length of the buffer before
the operation is written (`writeCells`). These comparisons never fail.
-/

namespace ContractScript

open List

/-- The encoder has written so many operations of a function, as these bytes. -/
inductive ComesTo (t : Targets) (addresses : List Nat) (cells : List Cell) :
    Nat → List UInt8 → Prop where
  | start : ComesTo t addresses cells 0 []
  | write {i address : Nat} {cell : Cell} {written bytes : List UInt8} :
    ComesTo t addresses cells i written → addresses[i]? = some address → cells[i]? = some cell →
      cell.bytes t address = .ok bytes → ComesTo t addresses cells (i + 1) (written ++ bytes)

/-- The bytes of a cell are those that its `width` makes room for. -/
theorem Cell.length_bytes {t : Targets} {a : Nat} {c : Cell} {bytes : List UInt8}
    (h : c.bytes t a = .ok bytes) : bytes.length = c.width := by
  rcases Cell.bytes_eq_ok_iff.mp h with ⟨hmarker, rfl⟩ | ⟨i, hi, rfl⟩
  · rw [width_of_isMarker hmarker, length_nil]
  · rw [width_of_instruction hi, i.length_bytes]

namespace ComesTo

variable {t : Targets} {addresses : List Nat} {cells : List Cell} {i : Nat} {written : List UInt8}

/-- `encodeCells` gives what it gives for the operations still to come, with what is written in
front. -/
theorem encodeCells_eq (h : ComesTo t addresses cells i written) (name : String) :
    encodeCells t name addresses cells =
      (encodeCells t name (addresses.drop i) (cells.drop i)).map (written ++ ·) := by
  induction h with
  | start =>
    rw [drop_zero, drop_zero]
    cases encodeCells t name addresses cells <;> rfl
  | @write i _ _ _ _ _ haddress hcell hbytes ih =>
    obtain ⟨hi, rfl⟩ := List.getElem?_eq_some_iff.mp haddress
    obtain ⟨hi', rfl⟩ := List.getElem?_eq_some_iff.mp hcell
    rw [ih, drop_eq_getElem_cons hi, drop_eq_getElem_cons hi', encodeCells, hbytes]
    cases encodeCells t name (addresses.drop (i + 1)) (cells.drop (i + 1)) with
    | error e => rfl
    | ok rest => exact congrArg Except.ok (append_assoc ..).symm

/-- The operations that are written take up the bytes that they have in the layout. -/
theorem written_eq (h : ComesTo t addresses cells i written) :
    written.length = totalWidth (cells.take i) := by
  induction h with
  | start => rfl
  | @write i _ _ _ _ _ _ hcell hbytes ih =>
    obtain ⟨hi, rfl⟩ := List.getElem?_eq_some_iff.mp hcell
    rw [length_append, ih, Cell.length_bytes hbytes, take_succ_eq_append_getElem hi,
      totalWidth_append, totalWidth, totalWidth, Nat.add_zero]

end ComesTo

/-! ## Functions that are checked while they are written -/

/-- Why a function is not written to its end: an operation has a fault, or the layout has no address
for it that agrees with the bytes written so far. -/
inductive Abort where
  | fault (e : EncodingError)
  | drift (function : String) (i : Nat)

/-- Append the operations of a function, from one on, to a buffer that held `base` bytes when the
function began. Before each operation its address is compared with the length of the buffer. -/
def writeCells (t : Targets) (function : String) (addresses : List Nat) (start base : Nat) :
    Nat → List Cell → List UInt8 → Except Abort Unit × List UInt8
  | _, [], out => (.ok (), out)
  | i, c :: cs, out =>
    match addresses[i]? with
    | none => (.error (.drift function i), out)
    | some a =>
      if start ≤ a ∧ base ≤ out.length ∧ a - start = out.length - base then
        match c.bytes t a with
        | .error fault => (.error (.fault (fault.toError function c.op.location)), out)
        | .ok bytes => writeCells t function addresses start base (i + 1) cs (out ++ bytes)
      else (.error (.drift function i), out)

/-- Append the code of a function to a buffer. After a fault the buffer keeps what was written. -/
def writeChunk (starts : List Nat) (tokenCount : Nat) (c : Chunk) (start : Nat) (p : Placement)
    (out : List UInt8) : Except Abort Method × List UInt8 :=
  let (result, out) := writeCells ⟨p.labels, starts, tokenCount⟩ c.name p.addresses start
    out.length 0 c.cells out
  (result.map fun _ => ⟨c.id, c.name, start, p.stop, sequencePoints p.addresses c.cells⟩, out)

/-- An operation whose address agrees with the buffer is written, and the next one agrees again. -/
theorem writeCells_of_sized (t : Targets) (name : String) (addresses : List Nat)
    (start base : Nat) : ∀ {cells : List Cell} {i a : Nat} (out : List UInt8), Sized cells →
    addresses.drop i = addressesFrom a cells → start ≤ a → base ≤ out.length →
    a - start = out.length - base →
    match encodeCells t name (addressesFrom a cells) cells with
    | .ok bytes => writeCells t name addresses start base i cells out = (.ok (), out ++ bytes)
    | .error e => ∃ out', writeCells t name addresses start base i cells out =
        (.error (.fault e), out')
  | [], i, a, out, _, _, _, _, _ => by
    show _ = _
    rw [append_nil]
    rfl
  | c :: cs, i, a, out, hsized, hdrop, hstart, hbase, hagree => by
    obtain ⟨hsize, hsized⟩ := hsized.of_cons
    have haddress : addresses[i]? = some a := by
      rw [← head?_drop, hdrop]
      rfl
    have hdrop' : addresses.drop (i + 1) = addressesFrom (a + c.width) cs := by
      rw [← drop_drop, hdrop]
      rfl
    rw [addressesFrom, encodeCells, writeCells, haddress]
    dsimp only
    rw [if_pos ⟨hstart, hbase, hagree⟩]
    cases hbytes : c.bytes t a with
    | error fault => exact ⟨out, rfl⟩
    | ok bytes =>
      -- address and buffer both grow by the width of the cell
      have hlength := Cell.length_bytes hbytes
      have hrest := writeCells_of_sized t name addresses start base (out ++ bytes) hsized hdrop'
        (by omega) (by rw [length_append]; omega) (by rw [length_append]; omega)
      dsimp only
      split at hrest
      · next rest heq =>
        rw [heq]
        exact hrest.trans (by rw [append_assoc])
      · next e heq =>
        rw [heq]
        exact hrest

/-- A function with a full placement is written as `encodeChunk` says, whatever is in the buffer. -/
theorem writeChunk_of_sized (starts : List Nat) (tokenCount : Nat) {c : Chunk} {start : Nat}
    {p : Placement} (hsized : Sized c.cells) (hp : p = placeCells c.name start c.cells)
    (out : List UInt8) :
    match encodeChunk starts tokenCount c start p with
    | .ok (method, bytes) => writeChunk starts tokenCount c start p out = (.ok method, out ++ bytes)
    | .error e => ∃ out', writeChunk starts tokenCount c start p out = (.error (.fault e), out')
    := by
  subst hp
  have haddresses : (placeCells c.name start c.cells).addresses = addressesFrom start c.cells := by
    rw [placeCells_of_sized c.name start hsized]
  have hcells := writeCells_of_sized ⟨(placeCells c.name start c.cells).labels, starts, tokenCount⟩
    c.name _ start out.length out hsized (drop_zero (l := addressesFrom start c.cells))
    (Nat.le_refl start) (Nat.le_refl _) (by omega)
  rw [encodeChunk, writeChunk, haddresses]
  split at hcells
  · next bytes heq =>
    rw [heq, hcells]
    rfl
  · next e heq =>
    obtain ⟨out', hcells⟩ := hcells
    rw [heq, hcells]
    exact ⟨out', rfl⟩

/-! ## Runs -/

variable {chunks : List Chunk} {c : Chunk} {start : Nat} {p : Placement}

/-- A `Script`, unless there are faults. -/
def unlessFaults (faults : List EncodingError) (s : Script) : Except (List EncodingError) Script :=
  if faults.isEmpty then .ok s else .error faults

/-- Write functions into one buffer, up to the first one that is not written to its end. -/
def writeAll (starts : List Nat) (tokenCount : Nat) :
    List (Chunk × Nat × Placement) → List Method → List UInt8 → Except Abort Script
  | [], methods, out => .ok ⟨out, methods⟩
  | (c, start, p) :: rest, methods, out =>
    match writeChunk starts tokenCount c start p out with
    | (.error abort, _) => .error abort
    | (.ok method, out) => writeAll starts tokenCount rest (methods ++ [method]) out

/-- Write the functions with a full `Placement` into one buffer, and go on after a fault. -/
def writeEach (starts : List Nat) (tokenCount : Nat) :
    List (Chunk × Nat × Placement) → List EncodingError → List Method → List UInt8 →
      Except Abort (Except (List EncodingError) Script)
  | [], faults, methods, out => .ok (unlessFaults faults ⟨out, methods⟩)
  | (c, start, p) :: rest, faults, methods, out =>
    if p.fault.isNone then
      match writeChunk starts tokenCount c start p out with
      | (.error (.fault e), out) => writeEach starts tokenCount rest (faults ++ [e]) methods out
      | (.error (.drift function i), _) => .error (.drift function i)
      | (.ok method, out) => writeEach starts tokenCount rest faults (methods ++ [method]) out
    else writeEach starts tokenCount rest faults methods out

/-- `encode`, with every function checked while it is written into the buffer of the script. -/
def encodeChecked (tokens : TokenTable) (chunks : List Chunk) : Except Abort Script :=
  match layout chunks with
  | .error e => .error (.fault e)
  | .ok l => writeAll l.starts tokens.size (chunks.zip l.functions) [] []

/-- `encodeEach`, with every function checked while it is written into the buffer of the script. -/
def encodeEachChecked (tokens : TokenTable) (chunks : List Chunk) :
    Except Abort (Except (List EncodingError) Script) :=
  let (l, faults) := layoutEach chunks
  writeEach l.starts tokens.size (chunks.zip l.functions) faults [] []

/-- The functions that have a full `Placement` are placed from their starts on. -/
def FullyPlaced (functions : List (Chunk × Nat × Placement)) : Prop :=
  ∀ c start p, (c, start, p) ∈ functions → p.fault = none →
    Sized c.cells ∧ p = placeCells c.name start c.cells

theorem FullyPlaced.of_cons {functions : List (Chunk × Nat × Placement)}
    (h : FullyPlaced ((c, start, p) :: functions)) :
    (p.fault = none → Sized c.cells ∧ p = placeCells c.name start c.cells) ∧
      FullyPlaced functions :=
  ⟨h c start p mem_cons_self, fun c start p hmem => h c start p (mem_cons_of_mem _ hmem)⟩

/-- `layoutEach` gives `FullyPlaced` functions. -/
theorem placed_zip (chunks : List Chunk) :
    FullyPlaced (chunks.zip (layoutEach chunks).1.functions) := by
  intro c start p hmem hfault
  obtain ⟨k, hk⟩ := getElem?_of_mem hmem
  obtain ⟨_, _, -, -, heq⟩ := getElem?_zip_functions.mp hk
  cases heq
  exact ⟨sized_of_placeCells _ _ hfault, rfl⟩

section

variable (starts : List Nat) (tokenCount : Nat)

/-- The code of the functions, as `encodeChunk` makes it of each. -/
def codeOfAll (functions : List (Chunk × Nat × Placement)) :
    List (Except EncodingError (Method × List UInt8)) :=
  functions.map fun (c, start, p) => encodeChunk starts tokenCount c start p

theorem codeOfAll_cons (c : Chunk) (start : Nat) (p : Placement)
    (rest : List (Chunk × Nat × Placement)) : codeOfAll starts tokenCount ((c, start, p) :: rest) =
      encodeChunk starts tokenCount c start p :: codeOfAll starts tokenCount rest :=
  rfl

/-- `writeAll` adds the code of all functions to the buffer, or ends with the first fault. -/
theorem writeAll_eq : ∀ {functions : List (Chunk × Nat × Placement)} (methods : List Method)
    (out : List UInt8), FullyPlaced functions → (∀ f ∈ functions, f.2.2.fault = none) →
    writeAll starts tokenCount functions methods out =
      match (codeOfAll starts tokenCount functions).mapM id with
      | .error e => .error (.fault e)
      | .ok parts => .ok ⟨out ++ (joinMethods parts).bytes, methods ++ (joinMethods parts).methods⟩
  | [], methods, out, _, _ => by
    show Except.ok _ = Except.ok _
    simp [joinMethods]
  | (c, start, p) :: rest, methods, out, hplaced, hnone => by
    obtain ⟨hnone, hrest⟩ := forall_mem_cons.mp hnone
    obtain ⟨hfirst, hplaced⟩ := hplaced.of_cons
    obtain ⟨hsized, hp⟩ := hfirst hnone
    have hchunk := writeChunk_of_sized starts tokenCount hsized hp out
    have ih := fun methods out => writeAll_eq methods out hplaced hrest
    rw [writeAll, codeOfAll_cons, mapM_cons]
    cases hcode : encodeChunk starts tokenCount c start p with
    | error e =>
      rw [hcode] at hchunk
      obtain ⟨out', hchunk⟩ := hchunk
      rw [hchunk]
      rfl
    | ok part =>
      rw [hcode] at hchunk
      rw [hchunk]
      dsimp only
      rw [ih]
      cases (codeOfAll starts tokenCount rest).mapM id with
      | error e => rfl
      | ok parts =>
        show Except.ok _ = Except.ok _
        simp [joinMethods]

/-- `writeEach` adds the code of all functions to the buffer. After a fault the buffer holds more
than that, and is not looked at. -/
theorem writeEach_eq : ∀ {functions : List (Chunk × Nat × Placement)}
    (faults : List EncodingError) (methods : List Method) (out : List UInt8),
    FullyPlaced functions →
    let code := codeOfAll starts tokenCount (functions.filter fun f => f.2.2.fault.isNone)
    writeEach starts tokenCount functions faults methods out =
      .ok (unlessFaults (faults ++ failures code)
        ⟨out ++ (joinMethods (successes code)).bytes,
          methods ++ (joinMethods (successes code)).methods⟩)
  | [], faults, methods, out, _ => by
    show Except.ok _ = Except.ok _
    simp [codeOfAll, failures, successes, joinMethods]
  | (c, start, p) :: rest, faults, methods, out, hplaced => by
    obtain ⟨hfirst, hrest⟩ := hplaced.of_cons
    have ih := fun faults methods out => writeEach_eq faults methods out hrest
    dsimp only at ih ⊢
    rw [writeEach, filter_cons]
    split
    · next hnone =>
      obtain ⟨hsized, hp⟩ := hfirst (Option.isNone_iff_eq_none.mp hnone)
      have hchunk := writeChunk_of_sized starts tokenCount hsized hp out
      rw [codeOfAll_cons]
      cases hcode : encodeChunk starts tokenCount c start p with
      | error e =>
        rw [hcode] at hchunk
        obtain ⟨out', hchunk⟩ := hchunk
        rw [hchunk]
        dsimp only
        rw [ih]
        simp [unlessFaults, failures]
      | ok part =>
        rw [hcode] at hchunk
        rw [hchunk]
        dsimp only
        rw [ih]
        simp [failures, successes, joinMethods]
    · exact ih faults methods out

end

/-- `encodeChecked` never drifts, and ends with the fault of `encode`. -/
theorem encodeChecked_eq (tokens : TokenTable) (chunks : List Chunk) :
    encodeChecked tokens chunks = (encode tokens chunks).mapError .fault := by
  unfold encodeChecked encode
  cases hlayout : layout chunks with
  | error e => rfl
  | ok l =>
    obtain ⟨hfits, rfl⟩ := layout_eq_ok_iff.mp hlayout
    -- code that fits has no fault in the layout either
    have hl : (layoutEach chunks).1 = layoutOf chunks := by rw [layoutEach_of_sized hfits.1]
    have hplaced := placed_zip chunks
    have hnone : ∀ f ∈ chunks.zip (layoutEach chunks).1.functions, f.2.2.fault = none :=
      fun f hf => (faults_placeChunks 0).mpr hfits.1 _ (of_mem_zip hf).2
    rw [hl] at hplaced hnone
    dsimp only
    rw [writeAll_eq _ _ _ _ hplaced hnone]
    show _ = Except.mapError _ (_ <$> (codeOfAll _ _ _).mapM id)
    cases (codeOfAll (layoutOf chunks).starts tokens.size
      (chunks.zip (layoutOf chunks).functions)).mapM id <;> rfl

/-- `encodeEachChecked` never drifts, and collects the faults of `encodeEach`. -/
theorem encodeEachChecked_eq (tokens : TokenTable) (chunks : List Chunk) :
    encodeEachChecked tokens chunks = .ok (encodeEach tokens chunks) := by
  have hplaced := placed_zip chunks
  rw [encodeEachChecked, encodeEach]
  cases hlayout : layoutEach chunks with
  | mk l faults =>
    rw [hlayout] at hplaced
    refine (writeEach_eq _ _ faults [] [] hplaced).trans (congrArg Except.ok ?_)
    dsimp only [codeOfAll]
    cases faults ++ failures _ <;> rfl

/-- No function drifts from its layout. `encode` and `encodeEach` give what they give if every
operation is checked before it is written (`writeCells`): its address is as far from the start of
the function as bytes of the function are in the buffer, also behind functions that failed halfway.
So a function with a full placement is encoded by `encodeCells` at its addresses, and wherever that
comes to (`ComesTo`), the next operation has the address where the bytes written so far end. -/
theorem layout_never_drifts (tokens : TokenTable) (chunks : List Chunk) :
    encodeChecked tokens chunks = (encode tokens chunks).mapError .fault ∧
    encodeEachChecked tokens chunks = .ok (encodeEach tokens chunks) ∧
    ∀ c start p, (c, start, p) ∈ chunks.zip (layoutEach chunks).1.functions → p.fault = none →
      let starts := (layoutEach chunks).1.starts
      let t : Targets := ⟨p.labels, starts, tokens.size⟩
      encodeChunk starts tokens.size c start p =
        (encodeCells t c.name p.addresses c.cells).map (fun bytes =>
          (⟨c.id, c.name, start, p.stop, sequencePoints p.addresses c.cells⟩, bytes)) ∧
      ∀ i written, ComesTo t p.addresses c.cells i written →
        encodeCells t c.name p.addresses c.cells =
          (encodeCells t c.name (p.addresses.drop i) (c.cells.drop i)).map (written ++ ·) ∧
        (i < c.cells.length →
          ∃ a, p.addresses[i]? = some a ∧ start ≤ a ∧ a - start = written.length) := by
  refine ⟨encodeChecked_eq tokens chunks, encodeEachChecked_eq tokens chunks, ?_⟩
  intro c start p hmem hfault starts t
  refine ⟨?_, fun i written h => ⟨h.encodeCells_eq c.name, fun hi => ?_⟩⟩
  · unfold encodeChunk
    cases encodeCells t c.name p.addresses c.cells <;> rfl
  · obtain ⟨hsized, rfl⟩ := placed_zip chunks c start p hmem hfault
    refine ⟨start + totalWidth (c.cells.take i), ?_, Nat.le_add_right .., ?_⟩
    · rw [placeCells_of_sized c.name start hsized]
      exact getElem?_addressesFrom (getElem?_eq_getElem hi)
    · rw [h.written_eq, Nat.add_sub_cancel_left]

/-- A function without a full placement, one that fails after its first operation, and one whose
code comes behind what the second has left in the buffer. -/
def halfwayChunks : List Chunk :=
  [⟨0, "wide", [⟨⟨.load .local 300, none⟩, .long⟩]⟩,
    ⟨1, "lost", [⟨⟨.pushInt 300, none⟩, .long⟩, ⟨⟨.jump .always 9, none⟩, .short⟩]⟩,
    ⟨2, "last", [⟨⟨.pushInt 300, none⟩, .long⟩, ⟨⟨.return, none⟩, .long⟩]⟩]

theorem layout_never_drifts_halfway :
    encodeEachChecked .empty halfwayChunks = .ok (.error
      [.operandTooLarge "wide" "local slot index" 300 255 none,
        .invalidTarget "lost" "branch to label 9" none]) ∧
    ∃ c start p, (c, start, p) ∈ halfwayChunks.zip (layoutEach halfwayChunks).1.functions ∧
      p.fault = none ∧ c.name = "last" ∧ start = 5 ∧
      ComesTo ⟨p.labels, (layoutEach halfwayChunks).1.starts, 0⟩ p.addresses c.cells 1 [1, 44, 1] ∧
      ∃ a, p.addresses[1]? = some a ∧ start ≤ a ∧ a - start = 3 := by
  obtain ⟨-, heach, hway⟩ := layout_never_drifts .empty halfwayChunks
  have hcomes : ComesTo ⟨[], [0, 0, 5], 0⟩ [5, 8]
      [⟨⟨.pushInt 300, none⟩, .long⟩, ⟨⟨.return, none⟩, .long⟩] 1 [1, 44, 1] :=
    .write .start rfl rfl rfl
  have hmem := getElem_mem (l := halfwayChunks.zip (layoutEach halfwayChunks).1.functions)
    (show 2 < 3 by decide)
  have hdrift := ((hway _ _ _ hmem rfl).2 1 _ hcomes).2 (by decide)
  exact ⟨heach.trans rfl, _, _, _, hmem, rfl, rfl, rfl, hcomes, hdrift⟩

end ContractScript
