import Mathlib.Data.List.Chain
import ContractScript.Proofs.LabelDiscipline

/-!
# Runs with exceptions

Runs of the operations of a function (`RunStep`, `Trace`) that keep the local slots and the try
statements which control has entered (`TryFrame`). Nothing is known of other values, so a run may
take either way at a condition and store any value, and an exception may come up at every operation.
Where control goes only where it may, the try statements that a run has entered are those around the
place where it is (`Aligned`).
-/

namespace ContractScript

open List

variable {V : Type} {op : Operation} {i count params : Nat} {rest ops rest' : List Operation}
  {x y : Operation × RegionScan} {regions : List Region} {frames frames' : List TryFrame}

/-! ## Steps -/

/-- The part of a try statement that control is in. A finalizer knows where control goes on after
it, unless an exception is on its way. -/
inductive FramePhase where
  | body
  | handler
  | finalizer (pending : Option Label)
deriving DecidableEq

/-- A try statement that control has entered and not yet left. -/
structure TryFrame where
  handler : Option Label
  finalizer : Option Label
  phase : FramePhase
deriving DecidableEq

namespace TryFrame

/-- The `Label` that an exception goes to, and the part that starts there. -/
def catches? : TryFrame → Option (Label × FramePhase)
  | ⟨some l, _, .body⟩ => some (l, .handler)
  | ⟨none, some l, .body⟩ | ⟨_, some l, .handler⟩ => some (l, .finalizer none)
  | _ => none

def isFinal (frame : TryFrame) : Bool :=
  match frame.phase with
  | .finalizer _ => true
  | _ => false

end TryFrame

variable {code : List Operation}

/-- An exception goes to the innermost try statement that still has a part for it. -/
inductive Unwinds (code : List Operation) :
    List TryFrame → List Operation → List TryFrame → Prop where
  | here {frame : TryFrame} {frames : List TryFrame} {l : Label} {phase : FramePhase}
    {rest : List Operation} :
    frame.catches? = some (l, phase) → afterLabel l code = some rest →
    Unwinds code (frame :: frames) rest ({ frame with phase := phase } :: frames)
  | outer {frame : TryFrame} {frames frames' : List TryFrame} {rest : List Operation} :
    frame.catches? = none → Unwinds code frames rest frames' →
    Unwinds code (frame :: frames) rest frames'

/-- Whether control goes on with the next `Operation`. -/
def Operation.goesOn : Operation → Bool
  | .jump _ _ | .try _ _ | .endTry _ | .return | .simple .endFinally | .simple .throw => false
  | _ => true

/-- Control goes on from an `Operation`, before other ones and inside of try statements. A try
statement is left through its finalizer. -/
inductive Sends (code : List Operation) : Operation → List Operation → List TryFrame →
    List Operation → List TryFrame → Prop where
  | next {op : Operation} {rest : List Operation} {frames : List TryFrame} :
    op.goesOn = true → Sends code op rest frames rest frames
  | jump {kind : JumpKind} {l : Label} {rest rest' : List Operation} {frames : List TryFrame} :
    afterLabel l code = some rest' → Sends code (.jump kind l) rest frames rest' frames
  | stay {kind : JumpKind} {l : Label} {rest : List Operation} {frames : List TryFrame} :
    kind ≠ .always → Sends code (.jump kind l) rest frames rest frames
  | enter {handler finalizer : Option Label} {rest : List Operation} {frames : List TryFrame} :
    Sends code (.try handler finalizer) rest frames rest (⟨handler, finalizer, .body⟩ :: frames)
  | leave {l : Label} {rest rest' : List Operation} {frame : TryFrame} {frames : List TryFrame} :
    frame.isFinal = false → frame.finalizer = none → afterLabel l code = some rest' →
    Sends code (.endTry l) rest (frame :: frames) rest' frames
  | finalize {l f : Label} {rest rest' : List Operation} {frame : TryFrame}
    {frames : List TryFrame} :
    frame.isFinal = false → frame.finalizer = some f → afterLabel f code = some rest' →
    Sends code (.endTry l) rest (frame :: frames) rest'
      ({ frame with phase := .finalizer (some l) } :: frames)
  | resume {l : Label} {rest rest' : List Operation} {frame : TryFrame} {frames : List TryFrame} :
    frame.phase = .finalizer (some l) → afterLabel l code = some rest' →
    Sends code (.simple .endFinally) rest (frame :: frames) rest' frames
  | reraise {rest rest' : List Operation} {frame : TryFrame} {frames frames' : List TryFrame} :
    frame.phase = .finalizer none → Unwinds code frames rest' frames' →
    Sends code (.simple .endFinally) rest (frame :: frames) rest' frames'

/-- The local slot that an `Opcode` names. Only a declaration for the host can bring such an opcode
into a function. -/
def Opcode.storedLocal? : Opcode → Option Nat
  | .stLoc0 => some 0
  | .stLoc1 => some 1
  | .stLoc2 => some 2
  | .stLoc3 => some 3
  | .stLoc4 => some 4
  | .stLoc5 => some 5
  | .stLoc6 => some 6
  | _ => none

/-- The local slot that an `Operation` stores to. -/
def Operation.storedLocal? : Operation → Option Nat
  | .store .local index => some index
  | .simple opcode => opcode.storedLocal?
  | _ => none

def Operation.opensLocals : Operation → Bool
  | .initSlots _ _ => true
  | _ => false

/-- What an `Operation` makes of the local slots. They are null when they are opened. -/
inductive SlotChange (null : V) : Operation → (Nat → V) → (Nat → V) → Prop where
  | store {op : Operation} {i : Nat} {locals : Nat → V} (v : V) : op.storedLocal? = some i →
    SlotChange null op locals fun j => if j = i then v else locals j
  | opens {count params : Nat} {locals : Nat → V} :
    SlotChange null (.initSlots count params) locals fun _ => null
  | keep {op : Operation} {locals : Nat → V} : op.storedLocal? = none →
    op.opensLocals = false → SlotChange null op locals locals

/-- What is left of the code, the local slots, and the entered try statements, innermost first. -/
structure RunState (V : Type) where
  rest : List Operation
  locals : Nat → V
  frames : List TryFrame

/-- One step, through an `Operation` or by an exception that it raises. -/
inductive RunStep (null : V) (code : List Operation) : RunState V → Operation → RunState V →
    Prop where
  | go {op : Operation} {rest rest' : List Operation} {locals locals' : Nat → V}
    {frames frames' : List TryFrame} :
    Sends code op rest frames rest' frames' → SlotChange null op locals locals' →
    RunStep null code ⟨op :: rest, locals, frames⟩ op ⟨rest', locals', frames'⟩
  | raise {op : Operation} {rest rest' : List Operation} {locals : Nat → V}
    {frames frames' : List TryFrame} : Unwinds code frames rest' frames' →
    RunStep null code ⟨op :: rest, locals, frames⟩ op ⟨rest', locals, frames'⟩

/-- A run from a state to another one, with the `Operation`s that it goes through. -/
inductive Trace (null : V) (code : List Operation) (c : RunState V) :
    List Operation → RunState V → Prop where
  | refl : Trace null code c [] c
  | step {ops : List Operation} {op : Operation} {c' c'' : RunState V} :
    Trace null code c ops c' → RunStep null code c' op c'' → Trace null code c (ops ++ [op]) c''

theorem RunStep.rest_eq {null : V} {c c' : RunState V} (h : RunStep null code c op c') :
    ∃ rest, c.rest = op :: rest := by
  cases h <;> exact ⟨_, rfl⟩

/-- `SlotChange` leaves a slot that is not stored to as it is, or opens it. -/
theorem SlotChange.of_not_stored {null : V} {locals locals' : Nat → V}
    (h : SlotChange null op locals locals') (hi : op.storedLocal? ≠ some i) :
    locals' i = locals i ∨ locals' i = null := by
  cases h with
  | store v hop =>
    refine .inl (if_neg ?_)
    rintro rfl
    exact hi hop
  | opens => exact .inr rfl
  | keep => exact .inl rfl

/-- A step leaves a slot null that it does not store to. -/
theorem RunStep.null_of_not_stored {null : V} {c c' : RunState V} (h : RunStep null code c op c')
    (hi : op.storedLocal? ≠ some i) (hnull : c.locals i = null) : c'.locals i = null := by
  cases h with
  | go _ hwrites =>
    rcases hwrites.of_not_stored hi with heq | heq
    · exact heq.trans hnull
    · exact heq
  | raise => exact hnull

/-- The first operation of a run opens the slots. -/
theorem RunStep.null_of_opens {null : V} {locals : Nat → V} {c : RunState V}
    (h : RunStep null code ⟨.initSlots count params :: rest, locals, []⟩ op c) (i : Nat) :
    c.locals i = null := by
  cases h with
  | go _ hwrites =>
    cases hwrites with
    | store _ hop => cases hop
    | opens => rfl
    | keep _ hop => cases hop
  | raise hunwinds => cases hunwinds

/-- A local slot is null from the first step on, until something is stored to it. -/
theorem Trace.null_of_not_stored {null : V} {locals : Nat → V} {c : RunState V}
    (h : Trace null (.initSlots count params :: rest)
      ⟨.initSlots count params :: rest, locals, []⟩ ops c)
    (hi : ∀ op ∈ ops, op.storedLocal? ≠ some i) :
    c = ⟨.initSlots count params :: rest, locals, []⟩ ∨ c.locals i = null := by
  induction h with
  | refl => exact .inl rfl
  | @step ops op c' c'' hruns hstep ih =>
    obtain ⟨hops, hop⟩ := forall_mem_append.mp hi
    rcases ih hops with rfl | hnull
    · exact .inr (hstep.null_of_opens i)
    · exact .inr (hstep.null_of_not_stored (hop op mem_cons_self) hnull)

/-! ## Runs that know all values -/

namespace Interpretation

variable {I : Interpretation V} {code : List Operation}

/-- What a run keeps of a state of the machine, which enters no try statement. -/
def runState (I : Interpretation V) (c : Config V) : RunState V :=
  ⟨c.rest, fun i => ((c.vars .local)[i]?).getD (I.constant .null), []⟩

theorem opcode_eq_none {op : Opcode} (h : op.storedLocal? = some i) (stack : List V) :
    I.opcode op stack = none := by
  unfold Opcode.storedLocal? at h
  split at h <;> first | (cases stack <;> rfl) | cases h

theorem goesOn_of_operation {stack : List V} {vars : Vars V} {result : List V × Vars V}
    (hjump : op.isJump = false) (h : I.operation op stack vars = some result) :
    op.goesOn = true := by
  unfold Operation.goesOn
  split
  · cases hjump
  · cases h
  · cases h
  · cases h
  · cases stack <;> cases h
  · cases stack <;> cases h
  · rfl

/-- The machine changes the local slots as `SlotChange` says. -/
theorem slotChange {stack stack' : List V} {vars vars' : Vars V}
    (h : I.operation op stack vars = some (stack', vars')) :
    SlotChange (I.constant .null) op (fun i => ((vars .local)[i]?).getD (I.constant .null))
      fun i => ((vars' .local)[i]?).getD (I.constant .null) := by
  cases op with
  | label | anchor | pushInt | pushBool | pushData | pushNull =>
    cases h
    exact .keep rfl rfl
  | simple opcode =>
    obtain ⟨_, hopcode, heq⟩ := Option.map_eq_some_iff.mp h
    cases heq
    -- the machine does not know the opcodes that name a slot
    cases hstored : opcode.storedLocal? with
    | none => exact .keep hstored rfl
    | some i => cases (I.opcode_eq_none hstored stack).symm.trans hopcode
  | load kind index =>
    obtain ⟨_, -, heq⟩ := Option.map_eq_some_iff.mp h
    cases heq
    exact .keep rfl rfl
  | store kind index =>
    cases stack with
    | nil => cases h
    | cons v stack =>
      rw [operation] at h
      split at h
      · next hlt =>
        cases h
        cases kind with
        | «local» =>
          have hset : (fun i => (((vars.set .local index v) .local)[i]?).getD (I.constant .null)) =
              fun i => if i = index then v else ((vars .local)[i]?).getD (I.constant .null) := by
            funext i
            by_cases hi : i = index
            · rw [if_pos hi, hi, Vars.getElem?_set_self hlt]
              rfl
            · rw [if_neg hi, Vars.getElem?_set_ne fun heq => hi (Prod.mk.inj heq).2]
          rw [hset]
          exact .store v rfl
        | argument | static => exact .keep rfl rfl
      · cases h
  | initSlots count params =>
    rw [operation] at h
    split at h
    · cases h
      have hopen : (fun i : Nat => (List.replicate count (I.constant .null))[i]?.getD
          (I.constant .null)) = fun _ => I.constant .null := by
        funext i
        rw [getElem?_replicate]
        split <;> rfl
      exact hopen ▸ .opens
    · cases h
  | _ => cases h

/-- A step of the machine is a `RunStep`. -/
theorem runStep {c c' : Config V} (h : I.step code c = some c') :
    ∃ op, RunStep (I.constant .null) code (I.runState c) op (I.runState c') := by
  obtain ⟨rest, stack, vars⟩ := c
  cases rest with
  | nil => cases h
  | cons op rest =>
    refine ⟨op, ?_⟩
    cases hjump : op.isJump with
    | true =>
      cases op with
      | jump kind l =>
        rw [step_jump] at h
        split at h
        · cases h
        · next hjumps =>
          cases h
          refine .go (.stay ?_) (.keep rfl rfl)
          rintro rfl
          cases hjumps
        · obtain ⟨rest', hrest, rfl⟩ := Option.map_eq_some_iff.mp h
          exact .go (.jump hrest) (.keep rfl rfl)
      | _ => cases hjump
    | false =>
      rw [step_operation I code hjump] at h
      obtain ⟨⟨stack', vars'⟩, hoperation, rfl⟩ := Option.map_eq_some_iff.mp h
      exact .go (.next (goesOn_of_operation hjump hoperation)) (slotChange hoperation)

/-- A run of the machine is a `Trace`, which knows less. -/
theorem Steps.runs {n : Nat} {start : RunState V} {c c' : Config V} (h : I.Steps code n c c')
    (hruns : Trace (I.constant .null) code start ops (I.runState c)) :
    ∃ ops', Trace (I.constant .null) code start ops' (I.runState c') := by
  induction h generalizing ops with
  | refl => exact ⟨ops, hruns⟩
  | head hstep _ ih =>
    obtain ⟨op, hop⟩ := runStep hstep
    exact ih (hruns.step hop)

end Interpretation

/-! ## The place of a run -/

/-- The place in front of what is left of the code. -/
def PlaceOf (code rest : List Operation) (x : Operation × RegionScan) : Prop :=
  ∃ before op after, code = before ++ rest ∧ rest = op :: after ∧
    x = (op, (RegionScan.run {} before).place op)

/-- A frame is in a part of the statement that starts at a place. If it is left through its
finalizer, that is since an `ENDTRY` of the statement. -/
inductive InPart (T : List (Operation × RegionScan)) (s : RegionScan) :
    FramePhase → TryPhase → Prop where
  | body : InPart T s .body .body
  | handler : InPart T s .handler .handler
  | raised : InPart T s (.finalizer none) .finalizer
  | left {l : Label} {s' : RegionScan} {phase : TryPhase} : (.endTry l, s') ∈ T →
    s'.regions = ⟨s.opened, phase⟩ :: s.regions → InPart T s (.finalizer (some l)) .finalizer

/-- The entered try statements are those of the `Region`s, each started where it stands. -/
inductive Aligned (T : List (Operation × RegionScan)) : List TryFrame → List Region → Prop where
  | nil : Aligned T [] []
  | cons {frame : TryFrame} {frames : List TryFrame} {s : RegionScan} {phase : TryPhase} :
    (.try frame.handler frame.finalizer, s) ∈ T → InPart T s frame.phase phase →
    Aligned T frames s.regions → Aligned T (frame :: frames) (⟨s.opened, phase⟩ :: s.regions)

/-- A run is somewhere in the code, inside of the try statements around it. -/
structure RunState.Placed (code : List Operation) (c : RunState V) : Prop where
  suffix : c.rest <:+ code
  aligned : ∀ x, PlaceOf code c.rest x → Aligned (RegionScan.places {} code) c.frames x.2.regions

section Placed

variable {code : List Operation}

theorem exists_placeOf (h : op :: rest <:+ code) : ∃ s, PlaceOf code (op :: rest) (op, s) := by
  obtain ⟨before, rfl⟩ := h
  exact ⟨_, before, op, rest, rfl, rfl, rfl⟩

theorem PlaceOf.mem (h : PlaceOf code rest x) : x ∈ RegionScan.places {} code := by
  obtain ⟨before, op, after, rfl, rfl, rfl⟩ := h
  rw [RegionScan.places_append]
  exact mem_append_right _ mem_cons_self

section

variable (hcode : Respects code)
include hcode

/-- The place after another one `Falls` to it. -/
theorem PlaceOf.falls (hx : PlaceOf code (op :: rest) x) (hy : PlaceOf code rest y) :
    Falls x y.2.regions := by
  obtain ⟨before, _, _, hcode', heq, rfl⟩ := hx
  cases heq
  obtain ⟨before', op', after, hcode'', rfl, rfl⟩ := hy
  have hbefore : before' = before ++ [op] := by
    refine append_cancel_right (hcode''.symm.trans (hcode'.trans ?_))
    rw [append_assoc]
    rfl
  obtain ⟨_, hlinks⟩ := hcode.links
  have hchain := hlinks.isChain
  rw [hcode', RegionScan.places_append, RegionScan.places, RegionScan.places] at hchain
  have hnext := (isChain_append_cons_cons.mp hchain).2.1
  rw [hbefore, RegionScan.run_append]
  exact hnext

/-- Control that goes on stays inside of the same regions, if the operation opens and leaves
none. -/
theorem PlaceOf.regions_eq (hx : PlaceOf code (op :: rest) x) (hy : PlaceOf code rest y)
    (hop : op.goesOn = true ∨ op.isJump = true) : y.2.regions = x.2.regions := by
  have hfalls := hx.falls hcode hy
  obtain ⟨_, _, _, -, heq, rfl⟩ := hx
  cases heq
  generalize y.2.regions = regions at hfalls
  cases hfalls with
  | same => rfl
  | enter heq | part heq | finish heq | resume heq =>
    obtain rfl : op = _ := heq
    rcases hop with hop | hop <;> cases hop

/-- What `afterLabel` finds is inside of the regions of the label. -/
theorem regions_afterLabel (hnodup : (labelsIn code).Nodup) {l : Label}
    (hl : LabelAt (RegionScan.places {} code) l regions) (hrest : afterLabel l code = some rest)
    (hy : PlaceOf code rest y) : y.2.regions = regions := by
  obtain ⟨before, hbefore⟩ := suffix_of_afterLabel hrest
  have hx : PlaceOf code (.label l :: rest)
      (.label l, (RegionScan.run {} before).place (.label l)) :=
    ⟨before, _, rest, hbefore.symm, rfl, rfl⟩
  rw [hx.regions_eq hcode hy (.inl rfl)]
  obtain ⟨s, hs, rfl⟩ := hl
  -- the label stands nowhere else
  rw [← hbefore, labelsIn_append, labelsIn_cons] at hnodup
  obtain ⟨-, hafter, hdisjoint⟩ := nodup_append.mp hnodup
  rw [← hbefore, RegionScan.places_append, RegionScan.places] at hs
  have hmem : ∀ {s₀ : RegionScan} {ops : List Operation}, (.label l, s) ∈ s₀.places ops →
      l ∈ labelsIn ops := fun hin => LabelAt.mem_labelsIn ⟨s, hin, rfl⟩
  rcases mem_append.mp hs with hin | hin
  · exact absurd rfl (hdisjoint l (hmem hin) l mem_cons_self)
  · rcases mem_cons.mp hin with heq | hin
    · rw [(Prod.mk.inj heq).2]
    · exact absurd (hmem hin) (nodup_cons.mp hafter).1

/-- An exception leads into another part of the statement that catches it, and frames stay
`Aligned`. -/
theorem Aligned.unwinds (hnodup : (labelsIn code).Nodup)
    (hunwinds : Unwinds code frames rest frames')
    (h : Aligned (RegionScan.places {} code) frames regions) (hy : PlaceOf code rest y) :
    Aligned (RegionScan.places {} code) frames' y.2.regions := by
  induction hunwinds generalizing regions with
  | @here frame frames l phase rest hcatches hrest =>
    cases h with
    | @cons _ _ s _ htry hpart houter =>
      obtain ⟨hhandler, hfinalizer⟩ := hcode.settled _ htry
      unfold TryFrame.catches? at hcatches
      split at hcatches
      · -- the handler of a body
        cases hcatches
        rw [regions_afterLabel hcode hnodup (hhandler l rfl) hrest hy]
        exact .cons htry .handler houter
      · cases hcatches
        rw [regions_afterLabel hcode hnodup (hfinalizer l rfl) hrest hy]
        exact .cons htry .raised houter
      · cases hcatches
        rw [regions_afterLabel hcode hnodup (hfinalizer l rfl) hrest hy]
        exact .cons htry .raised houter
      · cases hcatches
  | outer _ _ ih =>
    cases h with
    | cons _ _ houter => exact ih houter hy

/-- Frames stay `Aligned` with the try statements around a place. -/
theorem Sends.aligned (hnodup : (labelsIn code).Nodup)
    (hsends : Sends code op rest frames rest' frames') (hx : PlaceOf code (op :: rest) x)
    (hy : PlaceOf code rest' y) (h : Aligned (RegionScan.places {} code) frames x.2.regions) :
    Aligned (RegionScan.places {} code) frames' y.2.regions := by
  have hsettled := hcode.settled x hx.mem
  have hop : x.1 = op := by
    obtain ⟨_, _, _, -, heq, rfl⟩ := hx
    cases heq
    rfl
  obtain ⟨op, s⟩ := x
  cases hop
  cases hsends with
  | next hgoes =>
    rw [hx.regions_eq hcode hy (.inl hgoes)]
    exact h
  | stay _ =>
    rw [hx.regions_eq hcode hy (.inr rfl)]
    exact h
  | jump hrest =>
    rw [regions_afterLabel hcode hnodup hsettled hrest hy]
    exact h
  | enter =>
    have hfalls := hx.falls hcode hy
    generalize y.2.regions = regions at hfalls
    cases hfalls with
    | same hopens => cases hopens
    | enter _ => exact .cons hx.mem .body h
    | part heq | finish heq | resume heq => cases heq
  | leave _ _ hrest =>
    obtain ⟨_, _, hregions, -, hl⟩ := hsettled
    dsimp only at h hregions
    rw [hregions] at h
    rw [regions_afterLabel hcode hnodup hl hrest hy]
    cases h with
    | cons _ _ houter => exact houter
  | @finalize l f _ _ frame _ _ hfinalizer hrest =>
    generalize hregions : s.regions = regions at h
    cases h with
    | @cons _ _ s' _ htry _ houter =>
      have hf := (hcode.settled _ htry).2 f hfinalizer
      rw [regions_afterLabel hcode hnodup hf hrest hy]
      exact .cons htry (.left hx.mem hregions) houter
  | resume hphase hrest =>
    generalize s.regions = regions at h
    cases h with
    | cons _ hpart houter =>
      rw [hphase] at hpart
      cases hpart with
      | left hendTry hregions =>
        -- the label was named inside of the same statement
        obtain ⟨_, _, hregions', -, hl⟩ := hcode.settled _ hendTry
        cases hregions.symm.trans hregions'
        rw [regions_afterLabel hcode hnodup hl hrest hy]
        exact houter
  | reraise _ hunwinds =>
    generalize s.regions = regions at h
    cases h with
    | cons _ _ houter => exact houter.unwinds hcode hnodup hunwinds hy

end

theorem Unwinds.suffix (h : Unwinds code frames rest frames') : rest <:+ code := by
  induction h with
  | here _ hrest => exact (suffix_cons _ _).trans (suffix_of_afterLabel hrest)
  | outer _ _ ih => exact ih

/-- Control stays in the code. -/
theorem Sends.suffix (h : Sends code op rest frames rest' frames') (hrest : op :: rest <:+ code) :
    rest' <:+ code := by
  cases h with
  | next _ | stay _ | enter => exact (suffix_cons _ _).trans hrest
  | jump hafter | leave _ _ hafter | finalize _ _ hafter | resume _ hafter =>
    exact (suffix_cons _ _).trans (suffix_of_afterLabel hafter)
  | reraise _ hunwinds => exact hunwinds.suffix

/-- A step keeps a run `Placed`. -/
theorem RunState.Placed.step (hcode : Respects code) (hnodup : (labelsIn code).Nodup) {null : V}
    {c c' : RunState V} {op : Operation} (h : c.Placed code) (hstep : RunStep null code c op c') :
    c'.Placed code := by
  obtain ⟨hsuffix, haligned⟩ := h
  cases hstep with
  | go hsends _ =>
    obtain ⟨s, hx⟩ := exists_placeOf hsuffix
    exact ⟨hsends.suffix hsuffix, fun y hy => hsends.aligned hcode hnodup hx hy (haligned _ hx)⟩
  | raise hunwinds =>
    obtain ⟨s, hx⟩ := exists_placeOf hsuffix
    exact ⟨hunwinds.suffix, fun y hy => (haligned _ hx).unwinds hcode hnodup hunwinds hy⟩

/-- A run from the start of a function is always `Placed`: inside of just the try statements around
it. -/
theorem Trace.placed (hcode : Respects code) (hnodup : (labelsIn code).Nodup) {null : V}
    {locals : Nat → V} {c : RunState V} (h : Trace null code ⟨code, locals, []⟩ ops c) :
    c.Placed code := by
  induction h with
  | refl =>
    refine ⟨suffix_refl _, fun x hx => ?_⟩
    obtain ⟨before, op, _, hbefore, -, rfl⟩ := hx
    cases self_eq_append_left.mp hbefore
    -- a label at the start belongs to no statement
    have hregions : ((RegionScan.run {} []).place op).regions = [] := by
      cases op <;> rfl
    rw [hregions]
    exact .nil
  | step _ hstep ih => exact ih.step hcode hnodup hstep

end Placed

end ContractScript
