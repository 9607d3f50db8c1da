import ContractScript.Proofs.Execution
import ContractScript.Script.Layout

/-!
# Jumps that may be left out

A jump to a label with only markers in between goes where control goes anyway. Without such jumps
the machine takes the same way, if no label is placed twice. A jump that was left out becomes the
steps over the markers up to its label, so every step becomes one step or more.
-/

namespace ContractScript

open List

variable {V : Type} {l : Label} {op : Operation} {rest markers : List Operation} {n : Nat}

/-! ## Labels -/

/-- The `Label`s that operations place. -/
def labelsIn (code : List Operation) : List Label :=
  code.filterMap Operation.placedLabel?

@[simp] theorem labelsIn_append (code code' : List Operation) :
    labelsIn (code ++ code') = labelsIn code ++ labelsIn code' :=
  filterMap_append

theorem mem_labelsIn {code : List Operation} : l ∈ labelsIn code ↔ Operation.label l ∈ code := by
  rw [labelsIn, mem_filterMap]
  constructor
  · rintro ⟨op, hop, hl⟩
    cases op <;> cases hl
    exact hop
  · exact fun h => ⟨_, h, rfl⟩

/-- `afterLabel` of a label that is placed once is the code after it. -/
theorem afterLabel_of_suffix {code post : List Operation} (hnodup : (labelsIn code).Nodup)
    (h : (.label l :: post) <:+ code) : afterLabel l code = some post := by
  obtain ⟨pre, rfl⟩ := h
  induction pre with
  | nil => exact if_pos rfl
  | cons op pre ih =>
    have hlater : l ∈ labelsIn (pre ++ .label l :: post) :=
      mem_labelsIn.mpr (mem_append_right _ mem_cons_self)
    have hne : op ≠ .label l := by
      rintro rfl
      exact (nodup_cons.mp hnodup).1 hlater
    rw [cons_append, afterLabel, if_neg hne]
    refine ih (List.Nodup.sublist ?_ hnodup)
    exact (sublist_cons_self op _).filterMap _

theorem suffix_of_afterLabel {l : Label} : ∀ {code rest : List Operation},
    afterLabel l code = some rest → (.label l :: rest) <:+ code
  | op :: code, rest, h => by
    rw [afterLabel] at h
    split at h
    · next hop =>
      cases h
      subst hop
      exact suffix_refl _
    · exact (suffix_of_afterLabel h).trans (suffix_cons op code)

/-! ## Code without needless jumps -/

/-- Whether an `Operation` is a jump with only markers between itself and its label. -/
def fallsThrough (op : Operation) (rest : List Operation) : Bool :=
  match op with
  | .jump .always target => (rest.takeWhile Operation.isMarker).any (· == .label target)
  | _ => false

/-- Operations without the jumps that only lead to where control goes anyway. -/
def elide : List Operation → List Operation
  | [] => []
  | op :: rest => if fallsThrough op rest then elide rest else op :: elide rest

theorem isFallthrough_eq (op : Operation) (rest : List Op) :
    isFallthrough op rest = fallsThrough op (rest.map Op.operation) := by
  cases op with
  | jump kind l =>
    cases kind with
    | always =>
      show _ = ((rest.map Op.operation).takeWhile _).any _
      rw [takeWhile_map, any_map]
      rfl
    | _ => rfl
  | _ => rfl

/-- `elide` is what `elideJumps` does to the operations. -/
theorem map_elideJumps (ops : List Op) :
    (elideJumps ops).map Op.operation = elide (ops.map Op.operation) := by
  induction ops with
  | nil => rfl
  | cons op rest ih =>
    rw [elideJumps, isFallthrough_eq, map_cons, elide]
    split
    · exact ih
    · rw [map_cons, ih]

/-- What is between a needless jump and its label. -/
theorem exists_of_fallsThrough (h : fallsThrough op rest = true) :
    ∃ l markers rest', op = .jump .always l ∧ rest = markers ++ Operation.label l :: rest' ∧
      ∀ marker ∈ markers, marker.isMarker = true := by
  unfold fallsThrough at h
  split at h
  · next l =>
    obtain ⟨op', hmem, heq⟩ := any_eq_true.mp h
    obtain rfl := beq_iff_eq.mp heq
    obtain ⟨markers, between, hsplit⟩ := append_of_mem hmem
    refine ⟨l, markers, between ++ rest.dropWhile Operation.isMarker, rfl, ?_, ?_⟩
    · conv => lhs; rw [← takeWhile_append_dropWhile (p := Operation.isMarker) (l := rest)]
      rw [hsplit, append_assoc, cons_append]
    · intro marker hmarker
      have hin : marker ∈ rest.takeWhile Operation.isMarker := by
        rw [hsplit]
        exact mem_append_left _ hmarker
      exact all_eq_true.mp all_takeWhile marker hin
  · cases h

theorem fallsThrough_of_isMarker (h : op.isMarker = true) (rest : List Operation) :
    fallsThrough op rest = false := by
  unfold fallsThrough
  split
  · cases h
  · rfl

/-- `elide` keeps markers. -/
theorem elide_markers (h : ∀ marker ∈ markers, marker.isMarker = true) (rest : List Operation) :
    elide (markers ++ rest) = markers ++ elide rest := by
  induction markers with
  | nil => rfl
  | cons marker markers ih =>
    obtain ⟨hmarker, hmarkers⟩ := forall_mem_cons.mp h
    rw [cons_append, elide, fallsThrough_of_isMarker hmarker, ih hmarkers]
    rfl

/-- `elide` moves no label. -/
theorem afterLabel_elide (l : Label) (code : List Operation) :
    afterLabel l (elide code) = (afterLabel l code).map elide := by
  induction code with
  | nil => rfl
  | cons op rest ih =>
    rw [elide, afterLabel]
    split
    · next hfalls =>
      obtain ⟨_, _, _, rfl, _, _⟩ := exists_of_fallsThrough hfalls
      rw [ih, if_neg (nofun)]
    · rw [afterLabel]
      split
      · rfl
      · exact ih

/-! ## Runs -/

/-- A state of the machine on the code without needless jumps. -/
def Config.elide (c : Config V) : Config V :=
  { c with rest := ContractScript.elide c.rest }

namespace Interpretation

variable {I : Interpretation V} {code : List Operation}

/-- Markers are passed one by one. -/
theorem steps_markers (code : List Operation) (h : ∀ marker ∈ markers, marker.isMarker = true)
    (rest : List Operation) (stack : List V) (vars : Vars V) :
    I.Steps code markers.length ⟨markers ++ rest, stack, vars⟩ ⟨rest, stack, vars⟩ := by
  induction markers with
  | nil => exact .refl _
  | cons marker markers ih =>
    obtain ⟨hmarker, hmarkers⟩ := forall_mem_cons.mp h
    refine .head ?_ (ih hmarkers)
    cases marker <;> first | rfl | cases hmarker

/-- A needless jump becomes the steps over the markers up to its label. -/
theorem steps_of_fallsThrough (hnodup : (labelsIn code).Nodup) {stack : List V} {vars : Vars V}
    {c' : Config V} (hrest : rest <:+ code) (hfalls : fallsThrough op rest = true)
    (h : I.step code ⟨op :: rest, stack, vars⟩ = some c') : c'.rest <:+ code ∧
      ∃ n, I.Steps (elide code) (n + 1) ⟨elide (op :: rest), stack, vars⟩ c'.elide := by
  obtain ⟨l, markers, rest', rfl, rfl, hmarkers⟩ := exists_of_fallsThrough hfalls
  have hlabel : (.label l :: rest') <:+ code := (suffix_append markers _).trans hrest
  have hstep : I.step code
      ⟨.jump .always l :: (markers ++ Operation.label l :: rest'), stack, vars⟩ =
      some ⟨rest', stack, vars⟩ := by
    show (afterLabel l code).map _ = _
    rw [afterLabel_of_suffix hnodup hlabel]
    rfl
  cases hstep.symm.trans h
  refine ⟨(suffix_cons _ rest').trans hlabel, markers.length, ?_⟩
  have helide : elide (.jump .always l :: (markers ++ Operation.label l :: rest')) =
      (markers ++ [Operation.label l]) ++ elide rest' := by
    rw [elide, hfalls, if_pos rfl, elide_markers hmarkers, append_assoc]
    rfl
  have hall : ∀ marker ∈ markers ++ [Operation.label l], marker.isMarker = true :=
    forall_mem_append.mpr ⟨hmarkers, forall_mem_singleton.mpr rfl⟩
  have hsteps := steps_markers (I := I) (elide code) hall (elide rest') stack vars
  rw [length_append] at hsteps
  rw [helide]
  exact hsteps

/-- Any other operation is the same `step`. -/
theorem step_elide_of_kept {stack : List V} {vars : Vars V} {c' : Config V}
    (hrest : rest <:+ code) (h : I.step code ⟨op :: rest, stack, vars⟩ = some c') :
    c'.rest <:+ code ∧ I.step (elide code) ⟨op :: elide rest, stack, vars⟩ = some c'.elide := by
  cases hjump : op.isJump with
  | true =>
    obtain ⟨kind, l, rfl⟩ : ∃ kind l, op = .jump kind l := by
      cases op <;> first | exact ⟨_, _, rfl⟩ | cases hjump
    rw [step_jump] at h ⊢
    cases hjumps : I.jumps kind stack with
    | none =>
      rw [hjumps] at h
      cases h
    | some result =>
      obtain ⟨taken, stack'⟩ := result
      rw [hjumps] at h
      cases taken with
      | false =>
        cases h
        exact ⟨hrest, rfl⟩
      | true =>
        -- a label is placed in front of the same operations, but for needless jumps
        obtain ⟨target, htarget, rfl⟩ := Option.map_eq_some_iff.mp h
        refine ⟨(suffix_cons _ target).trans (suffix_of_afterLabel htarget), ?_⟩
        dsimp only
        rw [afterLabel_elide, htarget]
        rfl
  | false =>
    rw [step_operation I code hjump] at h
    obtain ⟨⟨stack', vars'⟩, hop, rfl⟩ := Option.map_eq_some_iff.mp h
    refine ⟨hrest, ?_⟩
    rw [step_operation I (elide code) hjump, hop]
    rfl

variable (hnodup : (labelsIn code).Nodup)
include hnodup

/-- A `step` is one or more steps without the needless jumps. -/
theorem step_elide {c c' : Config V} (hc : c.rest <:+ code) (h : I.step code c = some c') :
    c'.rest <:+ code ∧ ∃ n, I.Steps (elide code) (n + 1) c.elide c'.elide := by
  obtain ⟨rest, stack, vars⟩ := c
  cases rest with
  | nil => cases h
  | cons op rest =>
    have hrest : rest <:+ code := (suffix_cons op rest).trans hc
    cases hfalls : fallsThrough op rest with
    | true => exact steps_of_fallsThrough hnodup hrest hfalls h
    | false =>
      obtain ⟨hc', hstep⟩ := step_elide_of_kept hrest h
      refine ⟨hc', 0, .head ?_ (.refl _)⟩
      unfold Config.elide
      dsimp only
      rw [elide, hfalls]
      exact hstep

/-- A run without the needless jumps is a run of at least as many steps. -/
theorem Steps.elide {c c' : Config V} (hc : c.rest <:+ code) (h : I.Steps code n c c') :
    ∃ m, n ≤ m ∧ I.Steps (ContractScript.elide code) m c.elide c'.elide := by
  induction h with
  | refl c => exact ⟨0, Nat.le_refl 0, .refl _⟩
  | head hstep _ ih =>
    obtain ⟨hc', k, hk⟩ := step_elide hnodup hc hstep
    obtain ⟨m, hle, hm⟩ := ih hc'
    exact ⟨k + 1 + m, by omega, hk.trans hm⟩

theorem RunsFor.elide {c : Config V} (hc : c.rest <:+ code) (h : I.RunsFor code n c) :
    I.RunsFor (ContractScript.elide code) n c.elide := by
  obtain ⟨k, c', hle, hk⟩ := h
  obtain ⟨m, hle', hm⟩ := hk.elide hnodup hc
  exact ⟨m, c'.elide, Nat.le_trans hle hle', hm⟩

/-- `Returns` has the same value without the needless jumps. -/
theorem Returns.elide {c : Config V} (hc : c.rest <:+ code) {value : Option V} {statics : List V}
    (h : I.Returns code c value statics) :
    I.Returns (ContractScript.elide code) c.elide value statics := by
  obtain ⟨rest, vars, ⟨n, hn⟩, hstatics⟩ := h
  obtain ⟨m, -, hm⟩ := hn.elide hnodup hc
  exact ⟨ContractScript.elide rest, vars, ⟨m, hm⟩, hstatics⟩

end Interpretation

end ContractScript
