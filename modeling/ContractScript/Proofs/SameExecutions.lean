import Mathlib.Data.List.Pairwise
import ContractScript.Proofs.TryFrames

/-!
# Executions without needless jumps

An execution goes through operations and decides at each of them: control goes on behind it, takes
its branch, or an exception comes up there (`Moves`, `Executes`). An unconditional jump leaves
nothing to decide. So the same decisions can be made in code without its needless jumps, and lead
through the same operations, whatever try statements control is inside of. Markers are passed
without being counted.

A needless jump leads over markers to a place further on. So only so many of them follow each other,
and an execution that does not end does not end without them.
-/

namespace ContractScript

open List

variable {rest' rest place : List Operation} {frames frames' : List TryFrame} {op : Operation}
  {ds : List Decision} {visits : List Visit} {stop : Stop}

/-! ## Executions -/

/-- What is decided at an operation. -/
inductive Decision where
  /-- Control goes on, to the place that the operation leads to unless it branches. -/
  | goOn
  | branch
  /-- The operation raises an exception. -/
  | raise
deriving DecidableEq

/-- How an execution ends. -/
inductive Ending where
  | returned
  | uncaught
deriving DecidableEq

/-- How far an execution has come. -/
inductive Stop where
  | standing (rest : List Operation) (frames : List TryFrame)
  | ended (ending : Ending)
deriving DecidableEq

/-- Control moves on from an `Operation`. An unconditional jump takes no decision and raises
nothing. -/
inductive Moves (code : List Operation) : Operation → List Operation → List TryFrame →
    List Decision → List Operation → List TryFrame → Prop where
  | always {l : Label} {rest rest' : List Operation} {frames : List TryFrame} :
    afterLabel l code = some rest' → Moves code (.jump .always l) rest frames [] rest' frames
  | branch {kind : JumpKind} {l : Label} {rest rest' : List Operation} {frames : List TryFrame} :
    kind ≠ .always → afterLabel l code = some rest' →
    Moves code (.jump kind l) rest frames [.branch] rest' frames
  | stay {kind : JumpKind} {l : Label} {rest : List Operation} {frames : List TryFrame} :
    kind ≠ .always → Moves code (.jump kind l) rest frames [.goOn] rest frames
  | goOn {op : Operation} {rest rest' : List Operation} {frames frames' : List TryFrame} :
    op.isJump = false → Sends code op rest frames rest' frames' →
    Moves code op rest frames [.goOn] rest' frames'
  | raise {op : Operation} {rest rest' : List Operation} {frames frames' : List TryFrame} :
    (∀ l, op ≠ .jump .always l) → Unwinds code frames rest' frames' →
    Moves code op rest frames [.raise] rest' frames'

/-- An execution ends at an `Operation`: at the return, or with an exception that no try statement
has a part for. -/
inductive Ends : Operation → List TryFrame → Decision → Ending → Prop where
  | return {frames : List TryFrame} : Ends .return frames .goOn .returned
  | raise {op : Operation} {frames : List TryFrame} : (∀ l, op ≠ .jump .always l) →
    (∀ frame ∈ frames, frame.catches? = none) → Ends op frames .raise .uncaught
  | reraise {frame : TryFrame} {frames : List TryFrame} : frame.phase = .finalizer none →
    (∀ frame ∈ frames, frame.catches? = none) →
    Ends (.simple .endFinally) (frame :: frames) .goOn .uncaught

/-- An `Operation` that an execution goes through, and what comes after it in the code. -/
structure Visit where
  op : Operation
  rest : List Operation
deriving DecidableEq

/-- The code from the next `Operation` on that is no marker. -/
def passMarkers (rest : List Operation) : List Operation :=
  rest.dropWhile Operation.isMarker

/-- Decisions, made one after another from a place of the code on, lead through `Operation`s and up
to a place or to an end. -/
inductive Executes (code : List Operation) : List Operation → List TryFrame → List Decision →
    List Visit → Stop → Prop where
  | stand {rest : List Operation} {frames : List TryFrame} :
    Executes code rest frames [] [] (.standing (passMarkers rest) frames)
  | marker {op : Operation} {rest : List Operation} {frames : List TryFrame} {ds : List Decision}
    {visits : List Visit} {stop : Stop} :
    op.isMarker = true → Executes code rest frames ds visits stop →
    Executes code (op :: rest) frames ds visits stop
  | move {op : Operation} {rest rest' : List Operation} {frames frames' : List TryFrame}
    {ds ds' : List Decision} {visits : List Visit} {stop : Stop} :
    op.isMarker = false → Moves code op rest frames ds rest' frames' →
    Executes code rest' frames' ds' visits stop →
    Executes code (op :: rest) frames (ds ++ ds') (⟨op, rest⟩ :: visits) stop
  | last {op : Operation} {rest : List Operation} {frames : List TryFrame} {d : Decision}
    {ending : Ending} :
    op.isMarker = false → Ends op frames d ending →
    Executes code (op :: rest) frames [d] [⟨op, rest⟩] (.ended ending)

/-! ## Single moves -/

section

variable {code : List Operation}

/-- A label leads to its place without the needless jumps. -/
theorem afterLabel_elide_eq_some_iff {l : Label} : afterLabel l (elide code) = some rest' ↔
      ∃ rest, elide rest = rest' ∧ afterLabel l code = some rest := by
  rw [afterLabel_elide, Option.map_eq_some_iff]
  exact exists_congr fun _ => and_comm

/-- `Unwinds` leads to the same places with and without the needless jumps. -/
theorem unwinds_elide_iff : Unwinds (elide code) frames rest' frames' ↔
      ∃ rest, elide rest = rest' ∧ Unwinds code frames rest frames' := by
  constructor
  · intro h
    induction h with
    | here hcatches hlabel =>
      obtain ⟨rest, rfl, hrest⟩ := afterLabel_elide_eq_some_iff.mp hlabel
      exact ⟨rest, rfl, .here hcatches hrest⟩
    | outer hcatches _ ih =>
      obtain ⟨rest, rfl, hunwinds⟩ := ih
      exact ⟨rest, rfl, .outer hcatches hunwinds⟩
  · rintro ⟨rest, rfl, h⟩
    induction h with
    | here hcatches hlabel =>
      exact .here hcatches (afterLabel_elide_eq_some_iff.mpr ⟨_, rfl, hlabel⟩)
    | outer hcatches _ ih => exact .outer hcatches ih

theorem sends_elide_iff : Sends (elide code) op (elide rest) frames rest' frames' ↔
      ∃ next, elide next = rest' ∧ Sends code op rest frames next frames' := by
  constructor
  · intro h
    cases h with
    | next hop => exact ⟨rest, rfl, .next hop⟩
    | jump hlabel =>
      obtain ⟨next, rfl, hnext⟩ := afterLabel_elide_eq_some_iff.mp hlabel
      exact ⟨next, rfl, .jump hnext⟩
    | stay hkind => exact ⟨rest, rfl, .stay hkind⟩
    | enter => exact ⟨rest, rfl, .enter⟩
    | leave hfinal hnone hlabel =>
      obtain ⟨next, rfl, hnext⟩ := afterLabel_elide_eq_some_iff.mp hlabel
      exact ⟨next, rfl, .leave hfinal hnone hnext⟩
    | finalize hfinal hsome hlabel =>
      obtain ⟨next, rfl, hnext⟩ := afterLabel_elide_eq_some_iff.mp hlabel
      exact ⟨next, rfl, .finalize hfinal hsome hnext⟩
    | resume hphase hlabel =>
      obtain ⟨next, rfl, hnext⟩ := afterLabel_elide_eq_some_iff.mp hlabel
      exact ⟨next, rfl, .resume hphase hnext⟩
    | reraise hphase hunwinds =>
      obtain ⟨next, rfl, hnext⟩ := unwinds_elide_iff.mp hunwinds
      exact ⟨next, rfl, .reraise hphase hnext⟩
  · rintro ⟨next, rfl, h⟩
    have hmoved : ∀ {l next}, afterLabel l code = some next →
        afterLabel l (elide code) = some (elide next) :=
      fun hlabel => afterLabel_elide_eq_some_iff.mpr ⟨_, rfl, hlabel⟩
    cases h with
    | next hop => exact .next hop
    | jump hlabel => exact .jump (hmoved hlabel)
    | stay hkind => exact .stay hkind
    | enter => exact .enter
    | leave hfinal hnone hlabel => exact .leave hfinal hnone (hmoved hlabel)
    | finalize hfinal hsome hlabel => exact .finalize hfinal hsome (hmoved hlabel)
    | resume hphase hlabel => exact .resume hphase (hmoved hlabel)
    | reraise hphase hunwinds =>
      exact .reraise hphase (unwinds_elide_iff.mpr ⟨_, rfl, hunwinds⟩)

/-- `Moves` leads to the same places with and without the needless jumps of the code. -/
theorem moves_elide_iff : Moves (elide code) op (elide rest) frames ds rest' frames' ↔
      ∃ next, elide next = rest' ∧ Moves code op rest frames ds next frames' := by
  constructor
  · intro h
    cases h with
    | always hlabel =>
      obtain ⟨next, rfl, hnext⟩ := afterLabel_elide_eq_some_iff.mp hlabel
      exact ⟨next, rfl, .always hnext⟩
    | branch hkind hlabel =>
      obtain ⟨next, rfl, hnext⟩ := afterLabel_elide_eq_some_iff.mp hlabel
      exact ⟨next, rfl, .branch hkind hnext⟩
    | stay hkind => exact ⟨rest, rfl, .stay hkind⟩
    | goOn hop hsends =>
      obtain ⟨next, rfl, hnext⟩ := sends_elide_iff.mp hsends
      exact ⟨next, rfl, .goOn hop hnext⟩
    | raise hop hunwinds =>
      obtain ⟨next, rfl, hnext⟩ := unwinds_elide_iff.mp hunwinds
      exact ⟨next, rfl, .raise hop hnext⟩
  · rintro ⟨next, rfl, h⟩
    cases h with
    | always hlabel => exact .always (afterLabel_elide_eq_some_iff.mpr ⟨_, rfl, hlabel⟩)
    | branch hkind hlabel =>
      exact .branch hkind (afterLabel_elide_eq_some_iff.mpr ⟨_, rfl, hlabel⟩)
    | stay hkind => exact .stay hkind
    | goOn hop hsends => exact .goOn hop (sends_elide_iff.mpr ⟨_, rfl, hsends⟩)
    | raise hop hunwinds => exact .raise hop (unwinds_elide_iff.mpr ⟨_, rfl, hunwinds⟩)

/-- Control stays in the code. -/
theorem Moves.suffix (h : Moves code op rest frames ds rest' frames')
    (hrest : op :: rest <:+ code) : rest' <:+ code := by
  cases h with
  | always hlabel | branch _ hlabel =>
    exact (suffix_cons _ _).trans (suffix_of_afterLabel hlabel)
  | stay => exact (suffix_cons _ _).trans hrest
  | goOn _ hsends => exact hsends.suffix hrest
  | raise _ hunwinds => exact hunwinds.suffix

/-- A needless jump leads over markers to what comes after them, and nowhere else. -/
theorem exists_moves_of_fallsThrough (hnodup : (labelsIn code).Nodup)
    (hrest : op :: rest <:+ code) (hfalls : fallsThrough op rest = true) :
    ∃ markers behind, rest = markers ++ behind ∧ (∀ marker ∈ markers, marker.isMarker = true) ∧
      ∀ {frames ds rest' frames'}, Moves code op rest frames ds rest' frames' ↔
        ds = [] ∧ rest' = behind ∧ frames' = frames := by
  obtain ⟨l, markers, behind, rfl, rfl, hmarkers⟩ := exists_of_fallsThrough hfalls
  have hlabel : afterLabel l code = some behind := by
    refine afterLabel_of_suffix hnodup ((suffix_append markers _).trans ?_)
    exact (suffix_cons _ _).trans hrest
  refine ⟨markers ++ [.label l], behind, by simp, ?_, ?_⟩
  · exact forall_mem_append.mpr ⟨hmarkers, forall_mem_singleton.mpr rfl⟩
  · intro frames ds rest' frames'
    constructor
    · intro h
      cases h with
      | always hafter =>
        rw [hlabel] at hafter
        exact ⟨rfl, (Option.some.inj hafter).symm, rfl⟩
      | branch hkind | stay hkind => exact absurd rfl hkind
      | goOn hop => cases hop
      | raise hop => exact absurd rfl (hop l)
    · rintro ⟨rfl, rfl, rfl⟩
      exact .always hlabel

/-! ## Whole executions -/

theorem passMarkers_cons (h : op.isMarker = true) (rest : List Operation) :
    passMarkers (op :: rest) = passMarkers rest := by
  rw [passMarkers, dropWhile_cons, if_pos h]
  rfl

theorem passMarkers_cons_of_code (h : op.isMarker = false) (rest : List Operation) :
    passMarkers (op :: rest) = op :: rest := by
  rw [passMarkers, dropWhile_cons, h]
  rfl

theorem elide_cons_of_isMarker (h : op.isMarker = true) (rest : List Operation) :
    elide (op :: rest) = op :: elide rest := by
  rw [elide, fallsThrough_of_isMarker h]
  rfl

/-- `passMarkers` may come before `elide` or after it. -/
theorem passMarkers_elide (rest : List Operation) :
    passMarkers (elide (passMarkers rest)) = passMarkers (elide rest) := by
  induction rest with
  | nil => rfl
  | cons op rest ih =>
    cases hop : op.isMarker with
    | true => rw [passMarkers_cons hop, elide_cons_of_isMarker hop, passMarkers_cons hop, ih]
    | false => rw [passMarkers_cons_of_code hop]

/-- Where an execution stands in the code without needless jumps. -/
def Stop.elide : Stop → Stop
  | .standing rest frames => .standing (passMarkers (ContractScript.elide rest)) frames
  | .ended ending => .ended ending

/-- What an execution goes through besides needless jumps, at its places in the code without
them. -/
def withoutNeedless (visits : List Visit) : List Visit :=
  (visits.filter fun v => !fallsThrough v.op v.rest).map fun v => ⟨v.op, elide v.rest⟩

theorem withoutNeedless_cons_of_falls (h : fallsThrough op rest = true) (visits : List Visit) :
    withoutNeedless (⟨op, rest⟩ :: visits) = withoutNeedless visits := by
  simp [withoutNeedless, h]

theorem withoutNeedless_cons_of_kept (h : fallsThrough op rest = false) (visits : List Visit) :
    withoutNeedless (⟨op, rest⟩ :: visits) = ⟨op, elide rest⟩ :: withoutNeedless visits := by
  simp [withoutNeedless, h]

theorem executes_markers {markers : List Operation}
    (hmarkers : ∀ marker ∈ markers, marker.isMarker = true)
    (h : Executes code rest frames ds visits stop) :
    Executes code (markers ++ rest) frames ds visits stop := by
  induction markers with
  | nil => exact h
  | cons marker markers ih =>
    obtain ⟨hmarker, hmarkers⟩ := forall_mem_cons.mp hmarkers
    exact .marker hmarker (ih hmarkers)

section

variable (hnodup : (labelsIn code).Nodup)
include hnodup

/-- An execution of some code is one of its `elide`. -/
theorem Executes.elide (h : Executes code rest frames ds visits stop) (hrest : rest <:+ code) :
    Executes (ContractScript.elide code) (ContractScript.elide rest) frames ds
      (withoutNeedless visits) stop.elide := by
  induction h with
  | @stand rest frames =>
    rw [Stop.elide, passMarkers_elide]
    exact .stand
  | @marker op rest _ _ _ _ hop _ ih =>
    rw [elide_cons_of_isMarker hop]
    exact .marker hop (ih ((suffix_cons _ _).trans hrest))
  | @move op rest rest' frames frames' ds ds' visits stop hop hmoves _ ih =>
    have hnext := ih (hmoves.suffix hrest)
    cases hfalls : fallsThrough op rest with
    | true =>
      obtain ⟨markers, behind, rfl, hmarkers, hiff⟩ :=
        exists_moves_of_fallsThrough hnodup hrest hfalls
      obtain ⟨rfl, rfl, rfl⟩ := hiff.mp hmoves
      rw [withoutNeedless_cons_of_falls hfalls, ContractScript.elide, hfalls, if_pos rfl,
        elide_markers hmarkers]
      exact executes_markers hmarkers hnext
    | false =>
      rw [withoutNeedless_cons_of_kept hfalls, ContractScript.elide, hfalls]
      exact .move hop (moves_elide_iff.mpr ⟨_, rfl, hmoves⟩) hnext
  | @last op rest frames d ending hop hends =>
    have hfalls : fallsThrough op rest = false := by
      unfold fallsThrough
      split
      · cases hends with
        | raise hop => exact absurd rfl (hop _)
      · rfl
    rw [withoutNeedless_cons_of_kept hfalls, ContractScript.elide, hfalls]
    exact .last hop hends

/-- Needless jumps and markers are passed up to the operation that comes next without them. -/
theorem exists_passed (rest : List Operation) (hrest : rest <:+ code)
    (hplace : passMarkers (elide rest) = op :: place) :
    ∃ next, op :: next <:+ code ∧ elide next = place ∧ fallsThrough op next = false ∧
      ∀ {frames ds visits stop}, Executes code (op :: next) frames ds visits stop →
        ∃ visits', Executes code rest frames ds visits' stop ∧
          withoutNeedless visits' = withoutNeedless visits := by
  induction hlength : rest.length using Nat.strongRecOn generalizing rest with
  | ind n ih =>
    subst hlength
    cases rest with
    | nil => cases hplace
    | cons op' rest =>
      have htail : rest <:+ code := (suffix_cons op' rest).trans hrest
      cases hop : op'.isMarker with
      | true =>
        rw [elide_cons_of_isMarker hop, passMarkers_cons hop] at hplace
        obtain ⟨next, hnext, helide, hkept, hexec⟩ :=
          ih rest.length (Nat.lt_succ_self _) rest htail hplace rfl
        refine ⟨next, hnext, helide, hkept, fun h => ?_⟩
        obtain ⟨visits', h', heq⟩ := hexec h
        exact ⟨visits', .marker hop h', heq⟩
      | false =>
        cases hfalls : fallsThrough op' rest with
        | true =>
          -- the jump is no visit that counts, and less code is left behind its label
          obtain ⟨markers, behind, rfl, hmarkers, hiff⟩ :=
            exists_moves_of_fallsThrough hnodup hrest hfalls
          have hlt : behind.length < (op' :: (markers ++ behind)).length := by
            rw [length_cons, length_append]
            omega
          have hbehind : passMarkers (elide behind) = op :: place := by
            rw [elide, hfalls, if_pos rfl, elide_markers hmarkers, passMarkers,
              dropWhile_append_of_pos hmarkers] at hplace
            exact hplace
          obtain ⟨next, hnext, helide, hkept, hexec⟩ := ih behind.length hlt behind
            ((suffix_append markers behind).trans htail) hbehind rfl
          refine ⟨next, hnext, helide, hkept, fun h => ?_⟩
          obtain ⟨visits', h', heq⟩ := hexec h
          refine ⟨_, .move hop (hiff.mpr ⟨rfl, rfl, rfl⟩) h', ?_⟩
          rw [withoutNeedless_cons_of_falls hfalls, heq]
        | false =>
          rw [elide, hfalls, if_neg Bool.false_ne_true, passMarkers_cons_of_code hop] at hplace
          obtain ⟨rfl, rfl⟩ := List.cons.inj hplace
          exact ⟨rest, hrest, rfl, hfalls, fun h => ⟨_, h, rfl⟩⟩

/-- An execution of `elide code` is one of `code`. The place is given up to markers, since those
that a needless jump leads over are not passed in the whole code. -/
theorem exists_executes_of_elide {visits' : List Visit} {stop' : Stop}
    (h : Executes (elide code) place frames ds visits' stop') (hrest : rest <:+ code)
    (hplace : passMarkers (elide rest) = passMarkers place) :
    ∃ visits stop, Executes code rest frames ds visits stop ∧ withoutNeedless visits = visits' ∧
      stop.elide = stop' := by
  induction h generalizing rest with
  | stand => exact ⟨[], _, .stand, rfl, by rw [Stop.elide, passMarkers_elide, hplace]⟩
  | marker hop _ ih => exact ih hrest (hplace.trans (passMarkers_cons hop _))
  | @move op place place' frames frames' ds ds' visits' stop' hop hmoves _ ih =>
    rw [passMarkers_cons_of_code hop] at hplace
    obtain ⟨next, hnext, rfl, hkept, hexec⟩ := exists_passed hnodup rest hrest hplace
    obtain ⟨next', rfl, hmoves'⟩ := moves_elide_iff.mp hmoves
    obtain ⟨visits, stop, h, rfl, rfl⟩ := ih (hmoves'.suffix hnext) rfl
    obtain ⟨all, hall, heq⟩ := hexec (.move hop hmoves' h)
    exact ⟨all, stop, hall, heq.trans (withoutNeedless_cons_of_kept hkept visits), rfl⟩
  | @last op place frames d ending hop hends =>
    rw [passMarkers_cons_of_code hop] at hplace
    obtain ⟨next, -, rfl, hkept, hexec⟩ := exists_passed hnodup rest hrest hplace
    obtain ⟨all, hall, heq⟩ := hexec (.last hop hends)
    exact ⟨all, _, hall, heq.trans (withoutNeedless_cons_of_kept hkept []), rfl⟩

/-- Needless jumps lead forward, so only so many of them follow each other. -/
theorem Executes.length_le (h : Executes code rest frames ds visits stop) (hrest : rest <:+ code) :
    visits.length ≤ (withoutNeedless visits).length * (code.length + 1) + rest.length := by
  induction h with
  | stand => exact Nat.zero_le _
  | marker _ _ ih =>
    have hle := ih ((suffix_cons _ _).trans hrest)
    rw [length_cons]
    omega
  | @move op rest rest' frames frames' ds ds' visits stop hop hmoves _ ih =>
    have hnext := hmoves.suffix hrest
    have hle := ih hnext
    cases hfalls : fallsThrough op rest with
    | true =>
      obtain ⟨markers, behind, rfl, -, hiff⟩ := exists_moves_of_fallsThrough hnodup hrest hfalls
      obtain ⟨-, rfl, -⟩ := hiff.mp hmoves
      rw [withoutNeedless_cons_of_falls hfalls, length_cons, length_cons,
        length_append]
      omega
    | false =>
      have hbound := hnext.length_le
      rw [withoutNeedless_cons_of_kept hfalls, length_cons, length_cons, Nat.succ_mul]
      omega
  | @last op rest frames d ending hop hends =>
    rw [length_cons, length_cons]
    exact Nat.le_add_left _ _

end

end

/-! ## What is dropped -/

/-- The `Operation` at a position is an unconditional jump with only markers between itself and its
label. -/
def Needless (code : List Operation) (i : Nat) : Prop :=
  ∃ l markers behind, code.drop i = .jump .always l :: (markers ++ Operation.label l :: behind) ∧
    ∀ marker ∈ markers, marker.isMarker = true

/-- `fallsThrough` tells whether the first operation is `Needless`. -/
theorem needless_zero_iff : Needless (op :: rest) 0 ↔ fallsThrough op rest = true := by
  constructor
  · rintro ⟨l, markers, behind, heq, hmarkers⟩
    obtain ⟨rfl, rfl⟩ := List.cons.inj heq
    rw [fallsThrough, takeWhile_append_of_pos hmarkers]
    simp [List.takeWhile, Operation.isMarker]
  · intro h
    obtain ⟨l, markers, behind, rfl, rfl, hmarkers⟩ := exists_of_fallsThrough h
    exact ⟨l, markers, behind, rfl, hmarkers⟩

/-- `elideJumps` leaves the operations at all positions but those of needless jumps, in their order.
-/
theorem exists_kept (ops : List Op) : ∃ kept : List Nat, kept.Pairwise (· < ·) ∧
    (∀ i, i ∈ kept ↔ i < ops.length ∧ ¬ Needless (ops.map Op.operation) i) ∧
    elideJumps ops = kept.filterMap (ops[·]?) := by
  induction ops with
  | nil => exact ⟨[], .nil, by simp, rfl⟩
  | cons op ops ih =>
    obtain ⟨kept, hsorted, hmem, heq⟩ := ih
    -- what is kept of the later operations stands one position further on
    have hshift : (kept.map (· + 1)).filterMap ((op :: ops)[·]?) = elideJumps ops := by
      rw [heq, filterMap_map]
      rfl
    have hsorted' : (kept.map (· + 1)).Pairwise (· < ·) :=
      pairwise_map.mpr (hsorted.imp fun h => Nat.succ_lt_succ h)
    have hlater : ∀ i, i + 1 ∈ kept.map (· + 1) ↔
        i + 1 < (op :: ops).length ∧ ¬ Needless ((op :: ops).map Op.operation) (i + 1) := by
      intro i
      rw [mem_map_of_injective Nat.succ_injective, hmem, length_cons]
      exact and_congr_left' Nat.succ_lt_succ_iff.symm
    have hzero : Needless (op.operation :: ops.map Op.operation) 0 ↔
        isFallthrough op.operation ops = true := by
      rw [isFallthrough_eq]
      exact needless_zero_iff
    rw [elideJumps]
    split
    · next hfalls =>
      refine ⟨kept.map (· + 1), hsorted', fun i => ?_, hshift.symm⟩
      cases i with
      | zero => simp [hzero, hfalls]
      | succ i => exact hlater i
    · next hkept =>
      refine ⟨0 :: kept.map (· + 1), ?_, fun i => ?_, ?_⟩
      · refine pairwise_cons.mpr ⟨fun i hi => ?_, hsorted'⟩
        obtain ⟨j, -, rfl⟩ := mem_map.mp hi
        exact Nat.succ_pos j
      · cases i with
        | zero => simp [hzero, hkept]
        | succ i => rw [mem_cons, ← hlater i, or_iff_right (Nat.succ_ne_zero i)]
      · rw [filterMap_cons, hshift]
        rfl

/-! ## Code with and without needless jumps -/

/-- From a place of some code and from a place of other code, in all try statements and by all
decisions, there are the same executions but for needless jumps of the first code. Of these only so
many follow each other. -/
structure SameExecutions (code place code' place' : List Operation) : Prop where
  drop : ∀ {frames decisions visits stop}, Executes code place frames decisions visits stop →
    Executes code' place' frames decisions (withoutNeedless visits) stop.elide
  restore : ∀ {frames decisions visits' stop'},
    Executes code' place' frames decisions visits' stop' →
    ∃ visits stop, Executes code place frames decisions visits stop ∧
      withoutNeedless visits = visits' ∧ stop.elide = stop'
  length_le : ∀ {frames decisions visits stop},
    Executes code place frames decisions visits stop →
    visits.length ≤ ((withoutNeedless visits).length + 1) * (code.length + 1)

/-- If no label is placed twice, `elideJumps` drops the jumps with only markers up to their label,
and everything else stays in order, all labels among it. Every label leads to the place that it led
to, and from the start, from every label and from all other places there are the same executions
(`SameExecutions`). -/
theorem elision_keeps_executions (ops : List Op) (hnodup : (placedLabels ops).Nodup) :
    (∃ kept : List Nat, kept.Pairwise (· < ·) ∧
      (∀ i, i ∈ kept ↔ i < ops.length ∧ ¬ Needless (ops.map Op.operation) i) ∧
      elideJumps ops = kept.filterMap (ops[·]?)) ∧
    placedLabels (elideJumps ops) = placedLabels ops ∧
    (∀ l, afterLabel l ((elideJumps ops).map Op.operation) =
      (afterLabel l (ops.map Op.operation)).map elide) ∧
    ∀ place, place <:+ ops.map Op.operation →
      SameExecutions (ops.map Op.operation) place ((elideJumps ops).map Op.operation)
        (elide place) := by
  rw [placedLabels_eq_labelsIn] at hnodup
  rw [placedLabels_eq_labelsIn, placedLabels_eq_labelsIn, map_elideJumps]
  refine ⟨exists_kept ops, labelsIn_elide _, fun l => afterLabel_elide l _, fun place hplace => ?_⟩
  refine ⟨fun h => h.elide hnodup hplace, fun h => exists_executes_of_elide hnodup h hplace rfl,
    fun h => ?_⟩
  have hle := h.length_le hnodup hplace
  have hlength := hplace.length_le
  rw [Nat.succ_mul]
  omega

/-- Two jumps over each other's label, of which only the second has nothing but markers before
it. -/
def neighbours : List Op :=
  [⟨.jump .always 1, none⟩, ⟨.jump .always 0, none⟩, ⟨.label 0, none⟩, ⟨.anchor, none⟩,
    ⟨.label 1, none⟩, ⟨.return, none⟩]

theorem elision_keeps_executions_neighbours :
    (placedLabels neighbours).Nodup ∧
      (elideJumps neighbours).map Op.operation =
        [.jump .always 1, .label 0, .anchor, .label 1, .return] ∧
      SameExecutions (neighbours.map Op.operation) (neighbours.map Op.operation)
        [.jump .always 1, .label 0, .anchor, .label 1, .return]
        [.jump .always 1, .label 0, .anchor, .label 1, .return] := by
  have hnodup : (placedLabels neighbours).Nodup := by decide
  obtain ⟨-, -, -, hsame⟩ := elision_keeps_executions neighbours hnodup
  exact ⟨hnodup, rfl, hsame _ (suffix_refl _)⟩

end ContractScript
