import ContractScript.Proofs.Branches

/-!
# Places and addresses

The code of all functions is one row of cells. A place is a number of cells in that row, and its
address is the bytes of the cells before it. What a branch refers to is a place, which no form
changes; only the address of the place depends on the forms.
-/

namespace ContractScript

open List

variable {n k : Nat} {cs : List Cell} {chunks : List Chunk} {c : Chunk}

/-! ## Widths -/

/-- The bytes of a `Cell`, or zero if it has no size. -/
def Cell.width (c : Cell) : Nat :=
  match c.size with
  | .ok n => n
  | .error _ => 0

theorem Cell.width_of_size {c : Cell} (h : c.size = .ok n) : c.width = n := by
  rw [Cell.width, h]

/-- Every `Cell` has a size. -/
def Sized (cells : List Cell) : Prop :=
  ∀ c ∈ cells, c.size = .ok c.width

theorem Sized.of_cons {c : Cell} (h : Sized (c :: cs)) : c.size = .ok c.width ∧ Sized cs :=
  ⟨h c mem_cons_self, fun c' hc' => h c' (mem_cons_of_mem c hc')⟩

theorem sized_append_iff {cs' : List Cell} : Sized (cs ++ cs') ↔ Sized cs ∧ Sized cs' :=
  forall_mem_append

/-- The bytes of a row of `Cell`s. -/
def totalWidth : List Cell → Nat
  | [] => 0
  | c :: cs => c.width + totalWidth cs

/-- `totalWidth` counts the cells of both rows. -/
theorem totalWidth_append : ∀ cs cs' : List Cell,
    totalWidth (cs ++ cs') = totalWidth cs + totalWidth cs'
  | [], cs' => by simp only [nil_append, totalWidth, Nat.zero_add]
  | c :: cs, cs' => by
    simp only [cons_append, totalWidth, totalWidth_append cs cs', Nat.add_assoc]

theorem totalWidth_take_le : ∀ (cells : List Cell) {i j : Nat}, i ≤ j →
    totalWidth (cells.take i) ≤ totalWidth (cells.take j)
  | [], i, j, _ => by simp only [take_nil, Nat.le_refl]
  | c :: cs, 0, j, _ => Nat.zero_le _
  | c :: cs, i + 1, j + 1, h => by
    have := totalWidth_take_le cs (Nat.le_of_succ_le_succ h)
    simp only [take_succ_cons, totalWidth]
    omega

/-- `Operation.size` is zero for markers only. -/
theorem size_eq_zero_iff {form : Form} {operation : Operation} (h : operation.size form = .ok n) :
    n = 0 ↔ operation.isMarker = true := by
  have hcode : ∀ m : Nat, 0 < m → Operation.isMarker operation = false →
      (Except.ok m : Except Fault Nat) = .ok n → (n = 0 ↔ operation.isMarker = true) := by
    intro m hm hno heq
    cases heq
    rw [hno]
    exact ⟨fun h0 => absurd h0 (Nat.ne_of_gt hm), nofun⟩
  cases operation with
  | label | anchor =>
    cases h
    exact ⟨fun _ => rfl, fun _ => rfl⟩
  | pushInt value =>
    rw [Operation.size] at h
    split at h
    · exact hcode _ (Opcode.headerSize_pos _) rfl h
    · cases h
  | pushData data =>
    rw [Operation.size] at h
    split at h
    · exact hcode _ (Nat.add_pos_left (Opcode.headerSize_pos _) _) rfl h
    · cases h
  | load kind index | store kind index =>
    rw [Operation.size] at h
    split at h
    · exact hcode 1 (by decide) rfl h
    · split at h
      · exact hcode 2 (by decide) rfl h
      · cases h
  | jump | endTry | call | «try» | callToken | service | initSlots | initStatics =>
    exact hcode _ (Opcode.headerSize_pos _) rfl h
  | _ => exact hcode _ (by decide) rfl h

/-! ## Functions in a layout -/

/-- The addresses of cells from `a` on. -/
def addressesFrom (a : Nat) : List Cell → List Nat
  | [] => []
  | c :: cs => a :: addressesFrom (a + c.width) cs

/-- The labels that cells place from `a` on. -/
def labelsFrom (a : Nat) : List Cell → List (Label × Nat)
  | [] => []
  | c :: cs => labelsAt c.op.operation a ++ labelsFrom (a + c.width) cs

theorem length_addressesFrom : ∀ (a : Nat) (cells : List Cell),
    (addressesFrom a cells).length = cells.length
  | _, [] => rfl
  | a, c :: cs => congrArg Nat.succ (length_addressesFrom (a + c.width) cs)

/-- `placeCells` gives `Sized` cells the addresses one after the other. -/
theorem placeCells_of_sized (name : String) : ∀ (a : Nat) {cells : List Cell}, Sized cells →
    placeCells name a cells =
      ⟨addressesFrom a cells, labelsFrom a cells, a + totalWidth cells, none⟩
  | a, [], _ => rfl
  | a, c :: cs, h => by
    obtain ⟨hsize, hcs⟩ := h.of_cons
    rw [placeCells, hsize]
    dsimp only
    rw [placeCells_of_sized name (a + c.width) hcs, totalWidth, Nat.add_assoc]
    rfl

/-- `placeCells` without fault has a size for every cell. -/
theorem sized_of_placeCells (name : String) : ∀ (a : Nat) {cells : List Cell},
    (placeCells name a cells).fault = none → Sized cells
  | _, [], _ => forall_mem_nil _
  | a, c :: cs, h => by
    rw [placeCells] at h
    split at h
    · cases h
    · next n hsize =>
      have hcs := sized_of_placeCells name (a + n) h
      intro c' hc'
      rcases mem_cons.mp hc' with rfl | hc'
      · rw [hsize, Cell.width_of_size hsize]
      · exact hcs c' hc'

/-- The `Cell`s of all functions in a row. -/
def allCells (chunks : List Chunk) : List Cell :=
  chunks.flatMap Chunk.cells

theorem allCells_cons (c : Chunk) (cs : List Chunk) :
    allCells (c :: cs) = c.cells ++ allCells cs := by
  simp only [allCells, flatMap_cons]

/-- The place of a function in the row. -/
def placeOf (chunks : List Chunk) (k : Nat) : Nat :=
  (allCells (chunks.take k)).length

/-- The address of a place. -/
def addressAt (chunks : List Chunk) (place : Nat) : Nat :=
  totalWidth ((allCells chunks).take place)

theorem addressAt_le (chunks : List Chunk) (place : Nat) :
    addressAt chunks place ≤ totalWidth (allCells chunks) := by
  have h := totalWidth_append ((allCells chunks).take place) ((allCells chunks).drop place)
  rw [take_append_drop] at h
  rw [addressAt]
  omega

theorem allCells_eq (h : chunks[k]? = some c) : allCells chunks =
      allCells (chunks.take k) ++ (c.cells ++ allCells (chunks.drop (k + 1))) := by
  obtain ⟨hk, rfl⟩ := List.getElem?_eq_some_iff.mp h
  rw [← allCells_cons, ← drop_eq_getElem_cons hk, allCells, allCells, allCells,
    ← flatMap_append, take_append_drop]

/-- The address of a place in a function, counted from the start of the function. -/
theorem addressAt_placeOf_add (h : chunks[k]? = some c) {j : Nat} (hj : j ≤ c.cells.length) :
    addressAt chunks (placeOf chunks k + j) =
      addressAt chunks (placeOf chunks k) + totalWidth (c.cells.take j) := by
  have htake : ∀ j ≤ c.cells.length, (allCells chunks).take (placeOf chunks k + j) =
      allCells (chunks.take k) ++ c.cells.take j := by
    intro j hj
    rw [allCells_eq h, placeOf, take_length_add_append, take_append_of_le_length hj]
  have hzero := htake 0 (Nat.zero_le _)
  rw [Nat.add_zero, take_zero, append_nil] at hzero
  rw [addressAt, addressAt, htake j hj, hzero, totalWidth_append]

/-- Where the cells of a function that starts at `a` stand. -/
def Chunk.placedFrom (a : Nat) (c : Chunk) : Placement :=
  ⟨addressesFrom a c.cells, labelsFrom a c.cells, a + totalWidth c.cells, none⟩

/-- `placeChunks` puts functions one after the other. -/
theorem placeChunks_of_sized : ∀ (a : Nat) {chunks : List Chunk}, Sized (allCells chunks) →
    ∀ k, (placeChunks a chunks)[k]? =
      chunks[k]?.map fun c =>
        (a + totalWidth (allCells (chunks.take k)),
          c.placedFrom (a + totalWidth (allCells (chunks.take k))))
  | a, [], _, k => by simp only [placeChunks, getElem?_nil, Option.map_none]
  | a, c :: cs, h, k => by
    rw [allCells_cons, sized_append_iff] at h
    obtain ⟨hc, hcs⟩ := h
    rw [placeChunks, placeCells_of_sized c.name a hc]
    cases k with
    | zero => rfl
    | succ k =>
      simp only [getElem?_cons_succ, take_succ_cons, allCells_cons, totalWidth_append]
      rw [placeChunks_of_sized (a + totalWidth c.cells) hcs k, Nat.add_assoc]

theorem length_placeChunks : ∀ (a : Nat) (chunks : List Chunk),
    (placeChunks a chunks).length = chunks.length
  | _, [] => rfl
  | _, _ :: cs => congrArg Nat.succ (length_placeChunks _ cs)

/-- The functions end where all their cells have been counted. -/
theorem stop_placeChunks : ∀ (a : Nat) {chunks : List Chunk}, Sized (allCells chunks) →
    ((placeChunks a chunks).getLast?.map fun f => f.2.stop).getD a =
      a + totalWidth (allCells chunks)
  | a, [], _ => rfl
  | a, c :: cs, h => by
    rw [allCells_cons, sized_append_iff] at h
    obtain ⟨hc, hcs⟩ := h
    have hrest := stop_placeChunks (a + totalWidth c.cells) hcs
    rw [placeChunks, placeCells_of_sized c.name a hc, getLast?_cons, allCells_cons,
      totalWidth_append, ← Nat.add_assoc, ← hrest]
    cases (placeChunks (a + totalWidth c.cells) cs).getLast? with
    | none => rfl
    | some f => rfl

/-- `placeChunks` has a fault for each function without a full placement. -/
theorem faults_placeChunks : ∀ (a : Nat) {chunks : List Chunk},
    (∀ f ∈ placeChunks a chunks, f.2.fault = none) ↔ Sized (allCells chunks)
  | a, [] => ⟨fun _ => forall_mem_nil _, fun _ => forall_mem_nil _⟩
  | a, c :: cs => by
    rw [placeChunks, allCells_cons, sized_append_iff]
    simp only [mem_cons, forall_eq_or_imp, faults_placeChunks]
    refine and_congr_left fun _ => ⟨sized_of_placeCells c.name a, fun hc => ?_⟩
    rw [placeCells_of_sized c.name a hc]

/-- Every cell has a size, and offsets reach across all of the code. -/
def Fits (chunks : List Chunk) : Prop :=
  Sized (allCells chunks) ∧ totalWidth (allCells chunks) ≤ maxScriptSize

/-- The `Layout` of code that fits. -/
def layoutOf (chunks : List Chunk) : Layout :=
  ⟨placeChunks 0 chunks, totalWidth (allCells chunks)⟩

theorem layoutEach_of_sized (h : Sized (allCells chunks)) :
    (layoutEach chunks).1 = layoutOf chunks := by
  have hstop := stop_placeChunks 0 h
  rw [Nat.zero_add] at hstop
  rw [layoutEach, layoutOf]
  dsimp only
  rw [hstop]

/-- `layoutEach` is without faults exactly if the code `Fits`. -/
theorem layoutEach_eq_nil_iff : (layoutEach chunks).2 = [] ↔ Fits chunks := by
  have hfaults : (placeChunks 0 chunks).filterMap (fun f => f.2.fault) = [] ↔
      Sized (allCells chunks) := by
    rw [filterMap_eq_nil_iff]
    exact faults_placeChunks 0
  rw [layoutEach]
  dsimp only
  rw [append_eq_nil_iff, hfaults]
  constructor
  · rintro ⟨hsized, hsize⟩
    have hstop := stop_placeChunks 0 hsized
    rw [hstop, Nat.zero_add] at hsize
    refine ⟨hsized, Nat.le_of_not_lt fun hlt => ?_⟩
    rw [if_pos hlt] at hsize
    cases hsize
  · rintro ⟨hsized, hsize⟩
    have hstop := stop_placeChunks 0 hsized
    rw [hstop, Nat.zero_add, if_neg (Nat.not_lt.mpr hsize)]
    exact ⟨hsized, rfl⟩

/-- `layout` succeeds on code that `Fits`, and on no other. -/
theorem layout_eq_ok_iff {l : Layout} :
    layout chunks = .ok l ↔ Fits chunks ∧ l = layoutOf chunks := by
  rw [← layoutEach_eq_nil_iff]
  constructor
  · intro h
    unfold layout at h
    split at h
    · next l' heach =>
      cases h
      have hnil : (layoutEach chunks).2 = [] := by rw [heach]
      refine ⟨hnil, ?_⟩
      rw [← layoutEach_of_sized (layoutEach_eq_nil_iff.mp hnil).1, heach]
    · cases h
  · rintro ⟨hnil, rfl⟩
    have heach : layoutEach chunks = (layoutOf chunks, []) :=
      Prod.ext (layoutEach_of_sized (layoutEach_eq_nil_iff.mp hnil).1) hnil
    rw [layout, heach]

/-! ## References -/

/-- The index of the last operation that places a `Label`. -/
def lastPlace? (l : Label) : List Op → Option Nat
  | [] => none
  | op :: ops =>
    match lastPlace? l ops with
    | some j => some (j + 1)
    | none => if op.operation.placedLabel? = some l then some 0 else none

theorem lastPlace?_lt {l : Label} : ∀ {ops : List Op} {j : Nat},
    lastPlace? l ops = some j → j < ops.length
  | op :: ops, j, h => by
    rw [lastPlace?] at h
    split at h
    · next j' hj' =>
      cases h
      exact Nat.succ_lt_succ (lastPlace?_lt hj')
    · split at h
      · cases h
        exact Nat.succ_pos _
      · cases h

/-- The operations of a function. -/
def Chunk.ops (c : Chunk) : List Op :=
  c.cells.map Cell.op

theorem Chunk.ops_ofRoutine (r : Routine) : (Chunk.ofRoutine r).ops = r.ops := by
  rw [Chunk.ops, Chunk.ofRoutine, map_map]
  exact List.map_id r.ops

/-- The last place of a label counts. -/
theorem getLast?_labelsFrom (l : Label) : ∀ (a : Nat) (cells : List Cell),
    ((labelsFrom a cells).filter (·.1 == l)).getLast? =
      (lastPlace? l (cells.map Cell.op)).map fun j => (l, a + totalWidth (cells.take j))
  | a, [] => rfl
  | a, c :: cs => by
    rw [labelsFrom, filter_append, getLast?_append,
      getLast?_labelsFrom l (a + c.width) cs, map_cons, lastPlace?]
    cases lastPlace? l (cs.map Cell.op) with
    | some j =>
      -- a later cell places the label too, and that one counts
      simp only [Option.map_some, Option.some_or, take_succ_cons, totalWidth, Nat.add_assoc]
    | none =>
      rw [Option.map_none, Option.none_or, labelsAt]
      dsimp only
      cases hl : c.op.operation.placedLabel? with
      | none => rfl
      | some l' =>
        by_cases heq : l' = l
        · subst heq
          simp [totalWidth]
        · simp [heq]

/-- What the operations of the function at a position can refer to. -/
def targetsOf (tokens : TokenTable) (chunks : List Chunk) (k : Nat) (c : Chunk) : Targets :=
  ⟨labelsFrom (addressAt chunks (placeOf chunks k)) c.cells, (layoutOf chunks).starts, tokens.size⟩

/-- The place that a `Reference` in the function at a position stands for. -/
def Reference.place? (chunks : List Chunk) (k : Nat) (c : Chunk) : Reference → Option Nat
  | .label l => (lastPlace? l c.ops).map (placeOf chunks k + ·)
  | .function id => if id < chunks.length then some (placeOf chunks id) else none

theorem addressAt_placeOf (chunks : List Chunk) (k : Nat) :
    addressAt chunks (placeOf chunks k) = totalWidth (allCells (chunks.take k)) := by
  have h : allCells chunks = allCells (chunks.take k) ++ allCells (chunks.drop k) := by
    rw [allCells, allCells, allCells, ← flatMap_append, take_append_drop]
  rw [addressAt, placeOf]
  conv => lhs; rw [h]
  rw [take_left]

/-- Where the function at a position stands in `layoutOf`. -/
theorem getElem?_layoutOf (h : Sized (allCells chunks)) (k : Nat) :
    (layoutOf chunks).functions[k]? =
      chunks[k]?.map fun c =>
        (addressAt chunks (placeOf chunks k),
          c.placedFrom (addressAt chunks (placeOf chunks k))) := by
  rw [addressAt_placeOf]
  have := placeChunks_of_sized 0 h k
  rw [Nat.zero_add] at this
  exact this

/-- A reference resolves to the address of its `place?`. -/
theorem resolve_eq_ok_iff (tokens : TokenTable) (hsized : Sized (allCells chunks))
    (hk : chunks[k]? = some c) {r : Reference} {target : Nat} :
    (targetsOf tokens chunks k c).resolve r = .ok target ↔
      ∃ place, r.place? chunks k c = some place ∧ target = addressAt chunks place := by
  cases r with
  | label l =>
    simp only [Targets.resolve, Targets.label, targetsOf, Reference.place?]
    rw [getLast?_labelsFrom]
    show _ ↔ ∃ place, (lastPlace? l (c.cells.map Cell.op)).map _ = some place ∧ _
    cases hl : lastPlace? l (c.cells.map Cell.op) with
    | none => simp
    | some j =>
      have hj := lastPlace?_lt hl
      rw [length_map] at hj
      have haddress := addressAt_placeOf_add hk (Nat.le_of_lt hj)
      simp [haddress, eq_comm]
  | function id =>
    simp only [Targets.resolve, Targets.function, targetsOf, Reference.place?]
    rw [Layout.starts, getElem?_map, getElem?_layoutOf hsized id, Option.map_map]
    by_cases hid : id < chunks.length
    · rw [if_pos hid, getElem?_eq_getElem hid]
      simp [eq_comm]
    · rw [if_neg hid, getElem?_eq_none (Nat.le_of_not_lt hid)]
      simp

end ContractScript
