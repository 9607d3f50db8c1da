import Mathlib.Data.List.Induction
import ContractScript.Proofs.Written

/-!
# Sequence points

The places of the source that a debugger stops at (`sequencePoints`). Cells are noted in their
order, and a marker shares the address of what follows it, so at one address a later place takes
that of an earlier one (`PlacedLast`).
-/

namespace ContractScript

open List

variable {placed : List (Nat × Cell)} {a b : Nat} {span : Span} {x : Nat × Cell} {cells : List Cell}
  {chunks : List Chunk}

/-! ## Addresses -/

theorem le_of_mem_addressesFrom {b : Nat} : ∀ {a : Nat} {cells : List Cell},
    b ∈ addressesFrom a cells → a ≤ b
  | a, c :: cs, h => by
    rcases mem_cons.mp h with rfl | h
    · exact Nat.le_refl _
    · exact Nat.le_trans (Nat.le_add_right a c.width) (le_of_mem_addressesFrom h)

/-- Every cell starts where those before it have ended. -/
theorem pairwise_placed (a : Nat) (cells : List Cell) :
    ((addressesFrom a cells).zip cells).Pairwise fun x y => x.1 + x.2.width ≤ y.1 := by
  induction cells generalizing a with
  | nil => exact .nil
  | cons c cs ih =>
    rw [addressesFrom, zip_cons_cons]
    exact .cons (fun y hy => le_of_mem_addressesFrom (of_mem_zip hy).1) (ih (a + c.width))

/-! ## Places by address -/

/-- The last `Cell` that has a place, among those at an address, has this place. -/
def PlacedLast (placed : List (Nat × Cell)) (a : Nat) (span : Span) : Prop :=
  ∃ before cell after, placed = before ++ (a, cell) :: after ∧ cell.op.location = some span ∧
    ∀ later ∈ after, later.1 = a → later.2.op.location = none

theorem PlacedLast.mem (h : PlacedLast placed a span) : ∃ cell, (a, cell) ∈ placed := by
  obtain ⟨before, cell, after, rfl, -⟩ := h
  exact ⟨cell, mem_append_right _ mem_cons_self⟩

/-- One more cell counts at its address if it has a place, and changes nothing elsewhere. -/
theorem placedLast_concat_iff : PlacedLast (placed ++ [x]) a span ↔
      (x.1 = a ∧ x.2.op.location = some span) ∨
      (PlacedLast placed a span ∧ (x.1 = a → x.2.op.location = none)) := by
  constructor
  · rintro ⟨before, cell, after, heq, hspan, hlater⟩
    rcases after.eq_nil_or_concat with rfl | ⟨after, y, rfl⟩
    · obtain ⟨-, hx⟩ := append_inj' heq rfl
      cases hx
      exact .inl ⟨rfl, hspan⟩
    · rw [concat_eq_append] at heq hlater
      rw [← cons_append, ← append_assoc] at heq
      obtain ⟨rfl, hx⟩ := append_inj' heq rfl
      cases hx
      obtain ⟨hafter, hx⟩ := forall_mem_append.mp hlater
      exact .inr ⟨⟨before, cell, after, rfl, hspan, hafter⟩, hx x (mem_singleton_self x)⟩
  · rintro (⟨rfl, hspan⟩ | ⟨⟨before, cell, after, rfl, hspan, hlater⟩, hx⟩)
    · exact ⟨placed, x.2, [], rfl, hspan, forall_mem_nil _⟩
    · refine ⟨before, cell, after ++ [x], by rw [append_assoc, cons_append], hspan, ?_⟩
      exact forall_mem_append.mpr ⟨hlater, forall_mem_singleton.mpr hx⟩

/-- Note the place of a `Cell` at its address. -/
def notePoint (points : List (Nat × Span)) (x : Nat × Cell) : List (Nat × Span) :=
  match x.2.op.location with
  | none => points
  | some span => addPoint points (x.1, span)

/-- `sequencePoints` notes cell after cell. -/
theorem sequencePoints_eq (addresses : List Nat) (cells : List Cell) :
    sequencePoints addresses cells = ((addresses.zip cells).foldl notePoint []).reverse := by
  rw [sequencePoints, foldl_filterMap]
  congr 2
  funext points ⟨a, c⟩
  dsimp only [notePoint]
  cases c.op.location with
  | none => rfl
  | some span => rfl

/-- The points of a row of `Cell`s, the highest address first. -/
structure Noted (placed : List (Nat × Cell)) (points : List (Nat × Span)) : Prop where
  descending : points.Pairwise fun p q => q.1 < p.1
  mem_iff : ∀ a span, (a, span) ∈ points ↔ PlacedLast placed a span

/-- Only the newest of the points can be at the address of one more. -/
theorem addPoint_eq {points : List (Nat × Span)} {point : Nat × Span}
    (hdescending : points.Pairwise fun p q => q.1 < p.1) (hle : ∀ p ∈ points, p.1 ≤ point.1) :
    addPoint points point = point :: points.filter (·.1 ≠ point.1) := by
  cases hdescending with
  | nil => rfl
  | @cons last earlier hlt hearlier =>
    have hlast := hle last mem_cons_self
    have hkept : earlier.filter (·.1 ≠ point.1) = earlier :=
      filter_eq_self.mpr fun p hp => decide_eq_true (by have := hlt p hp; omega)
    rw [addPoint, filter_cons, hkept]
    by_cases heq : last.1 = point.1
    · simp [heq]
    · simp [heq]

/-- `notePoint` keeps what is `Noted`. -/
theorem noted_concat {points : List (Nat × Span)} (hle : ∀ y ∈ placed, y.1 ≤ x.1)
    (h : Noted placed points) : Noted (placed ++ [x]) (notePoint points x) := by
  -- every point is at the address of a cell, so none is higher than the new one
  have hpoints : ∀ p ∈ points, p.1 ≤ x.1 := fun p hp => by
    obtain ⟨cell, hcell⟩ := ((h.mem_iff p.1 p.2).mp hp).mem
    exact hle _ hcell
  rw [notePoint]
  cases hplace : x.2.op.location with
  | none =>
    refine ⟨h.descending, fun a span => ?_⟩
    rw [placedLast_concat_iff, hplace, ← h.mem_iff]
    simp
  | some place =>
    dsimp only
    rw [addPoint_eq h.descending hpoints]
    refine ⟨.cons (fun p hp => ?_) (h.descending.filter _), fun a span => ?_⟩
    · obtain ⟨hp, hne⟩ := mem_filter.mp hp
      exact Nat.lt_of_le_of_ne (hpoints p hp) (of_decide_eq_true hne)
    · rw [placedLast_concat_iff, hplace, ← h.mem_iff, mem_cons, mem_filter]
      grind

/-- What is `Noted` of a whole row, cell by cell. -/
theorem noted_foldl (h : placed.Pairwise fun x y => x.1 ≤ y.1) :
    Noted placed (placed.foldl notePoint []) := by
  -- from the end: only the last cell can take the place of another
  induction placed using List.reverseRecOn with
  | nil =>
    refine ⟨.nil, fun a span => iff_of_false not_mem_nil fun hlast => ?_⟩
    obtain ⟨cell, hcell⟩ := hlast.mem
    cases hcell
  | append_singleton placed x ih =>
    obtain ⟨hplaced, -, hle⟩ := pairwise_append.mp h
    rw [foldl_concat]
    exact noted_concat (fun y hy => hle y hy x (mem_singleton_self x)) (ih hplaced)

/-! ## The points of a function -/

theorem noted_placed (a : Nat) (cells : List Cell) :
    Noted ((addressesFrom a cells).zip cells)
      (((addressesFrom a cells).zip cells).foldl notePoint []) :=
  noted_foldl ((pairwise_placed a cells).imp fun h => Nat.le_trans (Nat.le_add_right _ _) h)

/-- `sequencePoints` are ascending. -/
theorem ascending_sequencePoints (a : Nat) (cells : List Cell) :
    ((sequencePoints (addressesFrom a cells) cells).map Prod.fst).Pairwise (· < ·) := by
  rw [sequencePoints_eq, pairwise_map, pairwise_reverse]
  exact (noted_placed a cells).descending

/-- `sequencePoints` are the last places by address. -/
theorem mem_sequencePoints_iff : (b, span) ∈ sequencePoints (addressesFrom a cells) cells ↔
      PlacedLast ((addressesFrom a cells).zip cells) b span := by
  rw [sequencePoints_eq, mem_reverse]
  exact (noted_placed a cells).mem_iff b span

/-- A cell with a place that takes bytes is among the `sequencePoints`: nothing after it is at its
address. -/
theorem mem_sequencePoints_of_width {i : Nat} {cell : Cell}
    (haddress : (addressesFrom a cells)[i]? = some b) (hcell : cells[i]? = some cell)
    (hwidth : 0 < cell.width) (hspan : cell.op.location = some span) :
    (b, span) ∈ sequencePoints (addressesFrom a cells) cells := by
  have hi : ((addressesFrom a cells).zip cells)[i]? = some (b, cell) :=
    getElem?_zip_eq_some.mpr ⟨haddress, hcell⟩
  obtain ⟨hlt, hget⟩ := List.getElem?_eq_some_iff.mp hi
  have hsplit := (take_append_drop i ((addressesFrom a cells).zip cells)).symm
  rw [drop_eq_getElem_cons hlt, hget] at hsplit
  have hpairwise := pairwise_placed a cells
  rw [hsplit] at hpairwise
  obtain ⟨-, hrest, -⟩ := pairwise_append.mp hpairwise
  refine mem_sequencePoints_iff.mpr ⟨_, cell, _, hsplit, hspan, fun later hlater heq => ?_⟩
  have hafter : b + cell.width ≤ later.1 := rel_of_pairwise_cons hrest hlater
  omega

/-! ## The points of a script -/

/-- The `Cell`s of the function at a position, with their addresses in a layout. -/
def Layout.placed? (l : Layout) (chunks : List Chunk) (k : Nat) : Option (List (Nat × Cell)) := do
  let c ← chunks[k]?
  let (_, placement) ← l.functions[k]?
  return placement.addresses.zip c.cells

/-- `layoutOf` places the cells of a function one after another. -/
theorem placed?_layoutOf (h : Sized (allCells chunks)) (k : Nat) :
    (layoutOf chunks).placed? chunks k =
      chunks[k]?.map fun c => (addressesFrom (startOf chunks k) c.cells).zip c.cells := by
  rw [Layout.placed?, getElem?_layoutOf h k]
  cases chunks[k]? with
  | none => rfl
  | some c => rfl

/-- The points of a method are ascending, and they are `PlacedLast` by address. -/
theorem Encodes.points {tokens : TokenTable} {script : Script} (h : Encodes tokens chunks script)
    {k : Nat} {m : Method} (hm : script.methods[k]? = some m) :
    (m.points.map Prod.fst).Pairwise (· < ·) ∧
      ∃ placed, (layoutOf chunks).placed? chunks k = some placed ∧
        ∀ a span, (a, span) ∈ m.points ↔ PlacedLast placed a span := by
  rw [h.method, Option.map_eq_some_iff] at hm
  obtain ⟨c, hc, rfl⟩ := hm
  refine ⟨ascending_sequencePoints _ _, _, ?_, fun a span => mem_sequencePoints_iff⟩
  rw [placed?_layoutOf h.fits.1, hc]
  rfl

end ContractScript
