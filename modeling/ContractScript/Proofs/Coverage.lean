import ContractScript.Proofs.Acceptance

/-!
# What acceptance leaves open

The check walks through each method on its own and then looks at the end of the last one. Nothing
compares the methods with each other: an accepted script may have bytes that no method covers, and
a call of it may lead to a place where only an empty method starts.
-/

namespace ContractScript

/-! ## The bytes of a row -/

namespace Splits

variable {script : List UInt8} {a b : Nat} {is : List Located}

variable (h : Splits script a is b)
include h

theorem le : a ≤ b := by
  have := (splits_iff.mp h).1.add_length
  omega

/-- `Splits` is a function of its ends: a part of a script splits in one way only. -/
theorem unique {js : List Located} (h' : Splits script a js b) : is = js := by
  have hwalk : functionInstructions "" b a (script.drop a) = .ok is :=
    (functionInstructions_eq_ok_iff h.le).mpr h
  rw [(functionInstructions_eq_ok_iff h.le).mpr h'] at hwalk
  exact (Except.ok.inj hwalk).symm

/-- Every byte of a row belongs to one of its instructions. -/
theorem exists_at {address : Nat} (hle : a ≤ address) (hlt : address < b) :
    ∃ i ∈ is, i.address ≤ address ∧ address < i.next := by
  induction h with
  | nil => omega
  | @cons a b i is hdecode _ ih =>
    obtain ⟨rfl, -⟩ := decodeAt_eq_ok_iff.mp hdecode
    by_cases hnext : address < i.next
    · exact ⟨i, List.mem_cons_self, hle, hnext⟩
    · obtain ⟨j, hj, hplace⟩ := ih (Nat.not_lt.mp hnext) hlt
      exact ⟨j, List.mem_cons_of_mem i hj, hplace⟩

/-- An instruction of a row stands between the ends of the row. -/
theorem bounds : ∀ i ∈ is, a ≤ i.address ∧ i.next ≤ b := by
  induction h with
  | nil => simp
  | @cons a b i is hdecode hrest ih =>
    obtain ⟨rfl, -⟩ := decodeAt_eq_ok_iff.mp hdecode
    intro j hj
    rcases List.mem_cons.mp hj with rfl | hj
    · exact ⟨Nat.le_refl _, hrest.le⟩
    · obtain ⟨hle, hnext⟩ := ih j hj
      have hstep : i.address ≤ i.next := Nat.le_add_right _ _
      exact ⟨hstep.trans hle, hnext⟩

/-- A row that is not empty begins with an instruction at its start. -/
theorem exists_first (hlt : a < b) : ∃ first rest, is = first :: rest ∧ first.address = a := by
  cases h with
  | nil => exact absurd hlt (Nat.lt_irrefl _)
  | cons hdecode _ => exact ⟨_, _, rfl, (decodeAt_eq_ok_iff.mp hdecode).1⟩

end Splits

/-! ## Methods and the bytes they cover -/

/-- An instruction is one of those that the bytes of a `Method` are. -/
def Method.Holds (script : List UInt8) (m : Method) (i : Located) : Prop :=
  ∃ is, Splits script m.start is m.stop ∧ i ∈ is

/-- The place where a call leads to. -/
def Located.callTarget (i : Located) : Int :=
  i.address + ofLeBytesSigned i.operand

namespace Script

/-- Every byte of a `Script` belongs to an instruction of one of its methods. -/
def Filled (s : Script) : Prop :=
  ∀ address < s.bytes.length, ∃ m ∈ s.methods, ∃ i, m.Holds s.bytes i ∧
    i.address ≤ address ∧ address < i.next

/-- Every call in a method of a script leads to a place that satisfies `P`. -/
def CallsReach (s : Script) (P : Int → Prop) : Prop :=
  ∀ m ∈ s.methods, ∀ i, m.Holds s.bytes i → i.opcode = .call ∨ i.opcode = .callL → P i.callTarget

/-- Every call leads to the first instruction of a method. -/
def CallsEnter (s : Script) : Prop :=
  s.CallsReach fun target => ∃ m ∈ s.methods, ∃ first rest,
    Splits s.bytes m.start (first :: rest) m.stop ∧ first.address = target

end Script

/-- Methods that are `Consecutive` cover every address between the ends of the row. -/
theorem Consecutive.exists_at : ∀ {a b : Nat} {ms : List Method}, Consecutive a ms b →
    ∀ {address : Nat}, a ≤ address → address < b →
      ∃ m ∈ ms, m.start ≤ address ∧ address < m.stop
  | _, _, [], h, _, hle, hlt => by
    cases h
    omega
  | _, _, m :: ms, ⟨rfl, _, h⟩, address, hle, hlt => by
    by_cases hin : address < m.stop
    · exact ⟨m, List.mem_cons_self, hle, hin⟩
    · obtain ⟨m', hm', hplace⟩ := h.exists_at (Nat.not_lt.mp hin) hlt
      exact ⟨m', List.mem_cons_of_mem m hm', hplace⟩

/-! ## Accepted scripts -/

section Accepted

variable {s : Script} {tokenCount : Nat}

variable (h : check s tokenCount = .ok ())
include h

/-- Each method that `check` accepts, unless its end is before its start, `Splits` into instructions
with sound references. -/
theorem exists_splits_of_check {m : Method} (hm : m ∈ s.methods) (hle : m.start ≤ m.stop) :
    ∃ is, Splits s.bytes m.start is m.stop ∧
      ∀ i ∈ is, i.Sound (is.map (·.address)) (s.methods.map (·.start)) tokenCount := by
  rw [check, bind_eq_ok] at h
  obtain ⟨_, hmethods, -⟩ := h
  exact (checkMethod_eq_ok_iff_splits hle).mp (forM_eq_ok_iff.mp hmethods m hm)

/-- The references of every instruction of an accepted script are there. -/
theorem Method.Holds.exists_sound {m : Method} (hm : m ∈ s.methods) {i : Located}
    (hi : m.Holds s.bytes i) :
    ∃ addresses, i.Sound addresses (s.methods.map (·.start)) tokenCount := by
  obtain ⟨is, hsplits, hmem⟩ := hi
  obtain ⟨js, hsplits', hsound⟩ := exists_splits_of_check h hm hsplits.le
  cases hsplits.unique hsplits'
  exact ⟨_, hsound i hmem⟩

/-- Every call of an accepted script leads to the start of a method, be it an empty one. -/
theorem callsReach_start :
    s.CallsReach fun target => ∃ m ∈ s.methods, (m.start : Int) = target := by
  intro m hm i hi hcall
  obtain ⟨addresses, hsound⟩ := hi.exists_sound h hm
  obtain ⟨start, hstart, htarget⟩ := hsound.call hcall
  obtain ⟨m', hm', rfl⟩ := List.mem_map.mp hstart
  exact ⟨m', hm', htarget⟩

/-- An accepted script is `Filled` as far as its methods cover it. -/
theorem filled_iff : s.Filled ↔ ∀ address < s.bytes.length, ∃ m ∈ s.methods,
      m.start ≤ address ∧ address < m.stop := by
  refine forall₂_congr fun address _ => exists_congr fun m => and_congr_right fun hm => ?_
  constructor
  · rintro ⟨i, ⟨is, hsplits, hi⟩, hle, hlt⟩
    obtain ⟨hstart, hstop⟩ := hsplits.bounds i hi
    exact ⟨hstart.trans hle, hlt.trans_le hstop⟩
  · rintro ⟨hle, hlt⟩
    obtain ⟨is, hsplits, -⟩ := exists_splits_of_check h hm (hle.trans hlt.le)
    obtain ⟨i, hi, hplace⟩ := hsplits.exists_at hle hlt
    exact ⟨i, ⟨is, hsplits, hi⟩, hplace⟩

/-- The start of a method is the place of its first instruction as far as the method is not empty.
-/
theorem callsEnter_iff : s.CallsEnter ↔ s.CallsReach fun target =>
      ∃ m ∈ s.methods, m.start < m.stop ∧ (m.start : Int) = target := by
  refine forall₂_congr fun _ _ => forall₂_congr fun i _ => forall_congr' fun _ =>
    exists_congr fun m => and_congr_right fun hm => ?_
  constructor
  · rintro ⟨first, rest, hsplits, htarget⟩
    cases hsplits with
    | cons hdecode hrest =>
      have hfirst := (decodeAt_eq_ok_iff.mp hdecode).1
      have hpos := first.toInstruction.size_pos
      have hnext := hrest.le
      rw [Located.next, hfirst] at hnext
      exact ⟨by omega, by rw [← hfirst, htarget]⟩
  · rintro ⟨hlt, htarget⟩
    obtain ⟨is, hsplits, -⟩ := exists_splits_of_check h hm hlt.le
    obtain ⟨first, rest, rfl, hfirst⟩ := hsplits.exists_first hlt
    exact ⟨first, rest, hsplits, by rw [hfirst, htarget]⟩

end Accepted

/-- Acceptance by `check` promises that calls lead to starts of methods. Beyond that, an accepted
script is `Filled` exactly if the methods cover it from end to end, and `CallsEnter` holds exactly
if every call leads to the start of a method that is not empty. Both hold of methods that are
`Consecutive` from the first byte on. -/
theorem accepted_script_promises (s : Script) (tokenCount : Nat)
    (h : check s tokenCount = .ok ()) :
    (s.CallsReach fun target => ∃ m ∈ s.methods, (m.start : Int) = target) ∧
    (s.Filled ↔ ∀ address < s.bytes.length, ∃ m ∈ s.methods,
      m.start ≤ address ∧ address < m.stop) ∧
    (s.CallsEnter ↔ s.CallsReach fun target =>
      ∃ m ∈ s.methods, m.start < m.stop ∧ (m.start : Int) = target) ∧
    ∀ stop, s.methods ≠ [] → Consecutive 0 s.methods stop → s.Filled ∧ s.CallsEnter := by
  refine ⟨callsReach_start h, filled_iff h, callsEnter_iff h, fun stop hne hrow => ?_⟩
  have hstop := ((check_decides s tokenCount stop hne hrow).mp h).1
  refine ⟨(filled_iff h).mpr fun address hlt => ?_,
    (callsEnter_iff h).mpr fun m hm i hi hcall => ?_⟩
  · exact hrow.exists_at (Nat.zero_le address) (by omega)
  · obtain ⟨m', hm', htarget⟩ := callsReach_start h m hm i hi hcall
    exact ⟨m', hm', hrow.start_lt_stop m' hm', htarget⟩

theorem accepted_script_promises_referring :
    check referring 1 = .ok () ∧ referring.Filled ∧ referring.CallsEnter := by
  have hok : check referring 1 = .ok () := by cbv
  exact ⟨hok, (accepted_script_promises referring 1 hok).2.2.2 13 (by simp [referring])
    (by simp [Consecutive, referring])⟩

/-- A byte before all methods that is no opcode, and a call whose target is its own operand, where
a method without any code starts. -/
def straying : Script where
  bytes := [255, Opcode.call.byte, 1]
  methods := [⟨0, "hole", 2, 2, []⟩, ⟨1, "caller", 1, 3, []⟩]

theorem straying_breaks_promises :
    check straying 0 = .ok () ∧ ¬ straying.Filled ∧ ¬ straying.CallsEnter := by
  have hok : check straying 0 = .ok () := by cbv
  refine ⟨hok, fun hfilled => ?_, fun henter => ?_⟩
  · obtain ⟨m, hm, hle, -⟩ := (filled_iff hok).mp hfilled 0 (by decide)
    simp only [straying, List.mem_cons, List.not_mem_nil, or_false] at hm
    rcases hm with rfl | rfl <;> dsimp only at hle <;> omega
  · have hholds : Method.Holds straying.bytes ⟨1, "caller", 1, 3, []⟩ ⟨⟨.call, [1]⟩, 1⟩ :=
      ⟨_, .cons (by cbv) .nil, List.mem_singleton_self _⟩
    obtain ⟨m, hm, hlt, htarget⟩ :=
      (callsEnter_iff hok).mp henter _ (by simp [straying]) _ hholds (.inl rfl)
    have hcall : (⟨⟨.call, [1]⟩, 1⟩ : Located).callTarget = 2 := by decide
    rw [hcall] at htarget
    simp only [straying, List.mem_cons, List.not_mem_nil, or_false] at hm
    rcases hm with rfl | rfl <;> dsimp only at hlt htarget <;> omega

end ContractScript
