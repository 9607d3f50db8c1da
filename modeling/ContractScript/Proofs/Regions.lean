import ContractScript.Proofs.ProgramCode

/-!
# The try statements around a place

Operations are gone through from the first to the last (`RegionScan`), and the try statements whose
end is still to come are kept on a stack, each with the part that the scan is in. A statement starts
at its `TRY`; the labels that the `TRY` names start its handler and its finalizer; and the first
label that one of its `ENDTRY`s leads to is its end. Code that leaves every statement that it enters
and leads only to places that it may lead to (`Regular`) is put together from such parts.
-/

namespace ContractScript

open List

variable {l lo' : Label} {T T' : List (Operation × RegionScan)}

/-! ## The scan -/

/-- A part of a try statement. The statements of a function are numbered in the order of their
starts. -/
structure Region where
  number : Nat
  phase : TryPhase
deriving DecidableEq

/-- A try statement whose end is still to come. -/
structure OpenTry where
  region : Region
  handler : Option Label
  finalizer : Option Label
  /-- Where its `ENDTRY`s lead to, of those that the scan has seen. -/
  exits : List Label

namespace OpenTry

/-- A `Label` means something to the statement. -/
def Knows (t : OpenTry) (l : Label) : Prop :=
  t.handler = some l ∨ t.finalizer = some l ∨ l ∈ t.exits

/-- The statement in another part. -/
def enter (t : OpenTry) (phase : TryPhase) : OpenTry :=
  { t with region := ⟨t.region.number, phase⟩ }

/-- The statement after a `Label`, unless the label is its end. -/
def reach (t : OpenTry) (l : Label) : Option OpenTry :=
  if t.handler = some l then some (t.enter .handler)
  else if t.finalizer = some l then some (t.enter .finalizer)
  else if l ∈ t.exits then none
  else some t

theorem reach_of_not_knows {t : OpenTry} (h : ¬ t.Knows l) : t.reach l = some t := by
  simp only [Knows, not_or] at h
  rw [reach, if_neg h.1, if_neg h.2.1, if_neg h.2.2]

end OpenTry

/-- What a scan of operations knows at a place. -/
structure RegionScan where
  /-- How many try statements have started. -/
  opened : Nat := 0
  /-- Those whose end is still to come, innermost first. -/
  tries : List OpenTry := []

namespace RegionScan

/-- The parts of try statements around a place, innermost first. -/
def regions (s : RegionScan) : List Region :=
  s.tries.map OpenTry.region

/-- The scan after an `Operation`. -/
def step (s : RegionScan) : Operation → RegionScan
  | .try handler finalizer =>
    ⟨s.opened + 1, ⟨⟨s.opened, .body⟩, handler, finalizer, []⟩ :: s.tries⟩
  | .endTry l =>
    { s with tries := s.tries.modifyHead fun t => { t with exits := l :: t.exits } }
  | .label l =>
    match s.tries with
    | [] => s
    | t :: outer => { s with tries := (t.reach l).toList ++ outer }
  | _ => s

/-- The scan after `Operation`s. -/
def run (s : RegionScan) (code : List Operation) : RegionScan :=
  code.foldl step s

/-- The scan at an `Operation`: a label already belongs to what it starts. -/
def place (s : RegionScan) : Operation → RegionScan
  | .label l => s.step (.label l)
  | _ => s

/-- Operations, with what the scan knows at each. -/
def places : RegionScan → List Operation → List (Operation × RegionScan)
  | _, [] => []
  | s, op :: rest => (op, s.place op) :: places (s.step op) rest

section

variable (s : RegionScan)

@[simp] theorem run_nil : s.run [] = s := rfl

@[simp] theorem run_cons (op : Operation) (code : List Operation) :
    s.run (op :: code) = (s.step op).run code := rfl

@[simp] theorem run_append (code code' : List Operation) :
    s.run (code ++ code') = (s.run code).run code' :=
  foldl_append

@[simp] theorem places_append (code code' : List Operation) :
    s.places (code ++ code') = s.places code ++ (s.run code).places code' := by
  induction code generalizing s with
  | nil => rfl
  | cons op code ih => exact congrArg (_ :: ·) (ih _)

/-- An `ENDTRY` is a way out to note, but the scan stays in the part that it is in. -/
theorem regions_step_endTry (l : Label) : (s.step (.endTry l)).regions = s.regions := by
  obtain ⟨opened, tries⟩ := s
  cases tries <;> rfl

end

/-- A label that means nothing to the statements around it changes nothing. -/
theorem step_label {s : RegionScan} (h : ∀ t ∈ s.tries, ¬ t.Knows l) : s.step (.label l) = s := by
  obtain ⟨opened, tries⟩ := s
  cases tries with
  | nil => rfl
  | cons t outer =>
    simp only [step, OpenTry.reach_of_not_knows (h t mem_cons_self)]
    rfl

end RegionScan

/-- Operations that are no transfers do not change the scan. -/
theorem RegionScan.step_of_isInert {op : Operation} (h : op.isInert = true) (s : RegionScan) :
    s.step op = s ∧ s.place op = s := by
  cases op with
  | jump | «try» | endTry | label | «return» => cases h
  | _ => exact ⟨rfl, rfl⟩

/-! ## Where control goes -/

variable {x y z : Operation × RegionScan}

/-- A `Label` stands at a place inside of those regions. -/
def LabelAt (T : List (Operation × RegionScan)) (l : Label) (regions : List Region) : Prop :=
  ∃ s, (.label l, s) ∈ T ∧ s.regions = regions

/-- From a place control goes only where it may. A jump stays in its regions; an `ENDTRY` leaves
the innermost one, which is no finalizer; a `TRY` names labels in its own parts; and the function
is left outside of all regions. -/
def Settled (T : List (Operation × RegionScan)) (x : Operation × RegionScan) : Prop :=
  match x.1 with
  | .jump _ l => LabelAt T l x.2.regions
  | .endTry l => ∃ r outer, x.2.regions = r :: outer ∧ r.phase ≠ .finalizer ∧ LabelAt T l outer
  | .try handler finalizer =>
    (∀ l ∈ handler, LabelAt T l (⟨x.2.opened, .handler⟩ :: x.2.regions)) ∧
      ∀ l ∈ finalizer, LabelAt T l (⟨x.2.opened, .finalizer⟩ :: x.2.regions)
  | .return => x.2.regions = []
  | _ => True

/-- Operations that are no transfers are `Settled`. -/
theorem settled_of_isInert {op : Operation} (h : op.isInert = true) (s : RegionScan) :
    Settled T (op, s) := by
  cases op with
  | jump | «try» | endTry | label | «return» => cases h
  | _ => trivial

theorem LabelAt.mono {regions : List Region} (h : LabelAt T l regions)
    (hlabels : ∀ l s, (.label l, s) ∈ T → (.label l, s) ∈ T') : LabelAt T' l regions := by
  obtain ⟨s, hs, hregions⟩ := h
  exact ⟨s, hlabels l s hs, hregions⟩

/-- `Settled` looks at the places of labels only. -/
theorem Settled.mono (h : Settled T x) (hlabels : ∀ l s, (.label l, s) ∈ T → (.label l, s) ∈ T') :
    Settled T' x := by
  obtain ⟨op, s⟩ := x
  cases op with
  | jump => exact LabelAt.mono h hlabels
  | endTry =>
    obtain ⟨r, outer, hregions, hphase, hat⟩ := h
    exact ⟨r, outer, hregions, hphase, hat.mono hlabels⟩
  | «try» =>
    obtain ⟨hhandler, hfinalizer⟩ := h
    exact ⟨fun l hl => (hhandler l hl).mono hlabels, fun l hl => (hfinalizer l hl).mono hlabels⟩
  | _ => exact h

/-- The regions around the place after another one. They differ only after a `TRY`, which opens its
region, after an `ENDTRY`, where another part of its statement or what follows it may start, and
after the end of a finalizer. -/
inductive Falls (x : Operation × RegionScan) : List Region → Prop where
  | same : x.1.opensRegion = false → Falls x x.2.regions
  | enter {handler finalizer : Option Label} : x.1 = .try handler finalizer →
    Falls x (⟨x.2.opened, .body⟩ :: x.2.regions)
  | part {l : Label} {r : Region} {outer : List Region} {phase : TryPhase} : x.1 = .endTry l →
    x.2.regions = r :: outer → phase ≠ .body → Falls x (⟨r.number, phase⟩ :: outer)
  | finish {l : Label} {r : Region} {outer : List Region} : x.1 = .endTry l →
    x.2.regions = r :: outer → Falls x outer
  | resume {number : Nat} {outer : List Region} : x.1 = .simple .endFinally →
    x.2.regions = ⟨number, .finalizer⟩ :: outer → Falls x outer

/-- Places that follow each other, from one before the first up to the last. -/
inductive Links : Operation × RegionScan → List (Operation × RegionScan) →
    Operation × RegionScan → Prop where
  | nil (x : Operation × RegionScan) : Links x [] x
  | cons {x y z : Operation × RegionScan} {T : List (Operation × RegionScan)} :
    Falls x y.2.regions → Links y T z → Links x (y :: T) z

/-- `Links` go on from where others end. -/
theorem Links.append (h : Links x T y) (h' : Links y T' z) : Links x (T ++ T') z := by
  induction h with
  | nil => exact h'
  | cons hfalls _ ih => exact .cons hfalls (ih h')

/-- Another place may come first. -/
theorem Links.of_falls (h : Links x T y) (z : Operation × RegionScan)
    (hfalls : ∀ regions, Falls x regions → Falls z regions) : ∃ y', Links z T y' := by
  cases h with
  | nil => exact ⟨z, .nil z⟩
  | cons hx hrest => exact ⟨y, .cons (hfalls _ hx) hrest⟩

theorem Links.isChain_cons (h : Links x T z) : (x :: T).IsChain fun x y => Falls x y.2.regions := by
  induction h with
  | nil => exact .singleton _
  | cons hfalls _ ih => exact .cons_cons hfalls ih

/-- `Links` is a chain of places that follow each other. -/
theorem Links.isChain (h : Links x T z) : T.IsChain fun x y => Falls x y.2.regions := by
  cases h with
  | nil => exact .nil
  | cons _ hrest => exact hrest.isChain_cons

/-- Code can be put at a place, and what comes after it can follow. -/
def Flows (s : RegionScan) (code : List Operation) : Prop :=
  ∀ x, Falls x s.regions → ∃ y, Links x (s.places code) y ∧ Falls y (s.run code).regions

/-! ## Inside of loops and try statements -/

/-- The `Label`s that control may leave the innermost try statement for. -/
def Nesting.Outward (n : Nesting) (l : Label) : Prop :=
  l = Draft.returnTarget ∨ ∃ loop ∈ n.loops, loop.tryDepth < n.tries.length ∧
    (l = loop.continueLabel ∨ l = loop.breakLabel)

/-- The scan is inside of loops and try statements, and their `Label`s are older than one. -/
structure Within (n : Nesting) (lo : Label) (s : RegionScan) : Prop where
  phases : n.tries = s.regions.map Region.phase
  known : ∀ t ∈ s.tries, ∀ l, t.Knows l → l < lo
  loops : ∀ loop ∈ n.loops, loop.tryDepth ≤ n.tries.length ∧ loop.continueLabel < lo ∧
    loop.breakLabel < lo
  pos : Draft.returnTarget < lo

/-- Loops are left for labels outside of all regions that they are outside of, and so is the
function. -/
structure Leads (T : List (Operation × RegionScan)) (n : Nesting) (s : RegionScan) : Prop where
  loops : ∀ loop ∈ n.loops, ∀ l, l = loop.continueLabel ∨ l = loop.breakLabel →
    LabelAt T l (s.regions.drop (n.tries.length - loop.tryDepth))
  final : LabelAt T Draft.returnTarget []

/-- The same try statements, but there may be more ways out of the innermost one. -/
inductive Grown (P : Label → Prop) : List OpenTry → List OpenTry → Prop where
  | nil : Grown P [] []
  | cons {t : OpenTry} {exits : List Label} {outer : List OpenTry} : t.exits ⊆ exits →
    (∀ l ∈ exits, l ∈ t.exits ∨ P l) →
    Grown P (t :: outer) ({ t with exits := exits } :: outer)

namespace Grown

variable {P : Label → Prop} {tries tries' tries'' : List OpenTry}

theorem refl : ∀ tries, Grown P tries tries
  | [] => .nil
  | _ :: _ => .cons (List.Subset.refl _) fun _ hl => .inl hl

variable (h : Grown P tries tries')
include h

theorem trans (h' : Grown P tries' tries'') : Grown P tries tries'' := by
  cases h with
  | nil => exact h'
  | cons hsub hnew =>
    cases h' with
    | cons hsub' hnew' =>
      refine .cons (List.Subset.trans hsub hsub') fun l hl => ?_
      rcases hnew' l hl with hold | hnew'
      · exact hnew l hold
      · exact .inr hnew'

theorem map_region : tries'.map OpenTry.region = tries.map OpenTry.region := by
  cases h <;> rfl

theorem imp {Q : Label → Prop} (hpq : ∀ l, P l → Q l) : Grown Q tries tries' := by
  cases h with
  | nil => exact .nil
  | cons hsub hnew => exact .cons hsub fun l hl => (hnew l hl).imp_right (hpq l)

end Grown

namespace Within

variable {n : Nesting} {lo : Label} {s : RegionScan}

variable (h : Within n lo s)
include h

/-- `Within` goes by labels that are older than one, so it also goes by older than a newer one. -/
theorem mono (hle : lo ≤ lo') : Within n lo' s where
  phases := h.phases
  known t ht l hl := Nat.lt_of_lt_of_le (h.known t ht l hl) hle
  loops loop hloop := by
    obtain ⟨hdepth, hcontinue, hbreak⟩ := h.loops loop hloop
    exact ⟨hdepth, Nat.lt_of_lt_of_le hcontinue hle, Nat.lt_of_lt_of_le hbreak hle⟩
  pos := Nat.lt_of_lt_of_le h.pos hle

theorem lt_of_outward (hl : n.Outward l) : l < lo := by
  rcases hl with rfl | ⟨loop, hloop, -, rfl | rfl⟩
  · exact h.pos
  · exact (h.loops loop hloop).2.1
  · exact (h.loops loop hloop).2.2

/-- More ways out do not change what a place is `Within`. -/
theorem grown {s' : RegionScan} (hgrown : Grown n.Outward s.tries s'.tries) : Within n lo s' where
  phases := by rw [RegionScan.regions, hgrown.map_region]; exact h.phases
  known := by
    have hold := h.known
    cases hs : s.tries with
    | nil =>
      rw [hs] at hgrown
      generalize s'.tries = tries at hgrown
      cases hgrown
      exact forall_mem_nil _
    | cons t outer =>
      rw [hs] at hgrown hold
      generalize s'.tries = tries at hgrown
      cases hgrown with
      | cons hsub hnew =>
        obtain ⟨ht, houter⟩ := forall_mem_cons.mp hold
        refine forall_mem_cons.mpr ⟨fun l hl => ?_, houter⟩
        rcases hl with hhandler | hfinalizer | hexit
        · exact ht l (.inl hhandler)
        · exact ht l (.inr (.inl hfinalizer))
        · rcases hnew l hexit with hexit | hout
          · exact ht l (.inr (.inr hexit))
          · exact h.lt_of_outward hout
  loops := h.loops
  pos := h.pos

/-- A label that is not older means nothing to the statements around it. -/
theorem step_label (hl : lo ≤ l) : s.step (.label l) = s :=
  RegionScan.step_label fun t ht hknows => absurd (h.known t ht l hknows) (Nat.not_lt.mpr hl)

end Within

theorem Leads.of_regions_eq {n : Nesting} {s s' : RegionScan} (h : Leads T n s)
    (heq : s'.regions = s.regions) : Leads T n s' :=
  ⟨heq ▸ h.loops, h.final⟩

/-! ## Regular code -/

/-- Code for a place inside of loops and try statements, whose own `Label`s are not older than one.
It leaves every statement that it enters, its places follow each other, and control goes only where
it may, if the labels that it leads to besides its own stand outside of all that it enters. -/
structure Regular (n : Nesting) (lo : Label) (targets : List Label) (code : List Operation) :
    Prop where
  grown : ∀ {s}, Within n lo s → Grown n.Outward s.tries (s.run code).tries
  flows : ∀ {s}, Within n lo s → Flows s code
  settled : ∀ {s T}, Within n lo s → Leads T n s → (∀ l ∈ targets, LabelAt T l s.regions) →
    s.places code ⊆ T → ∀ x ∈ s.places code, Settled T x

namespace Regular

variable {n : Nesting} {lo : Label} {targets : List Label} {code code' : List Operation}

/-- `Regular` code leaves the scan in the regions that it started in. -/
theorem regions_run (h : Regular n lo targets code) {s : RegionScan} (hs : Within n lo s) :
    (s.run code).regions = s.regions :=
  (h.grown hs).map_region

/-- No code is `Regular`. -/
theorem nil : Regular n lo targets [] where
  grown _ := .refl _
  flows _ x hx := ⟨x, .nil x, hx⟩
  settled _ _ _ _ := forall_mem_nil _

/-- `Regular` code may follow `Regular` code. -/
theorem append (h : Regular n lo targets code) (h' : Regular n lo targets code') :
    Regular n lo targets (code ++ code') where
  grown {s} hs := by
    rw [RegionScan.run_append]
    exact (h.grown hs).trans (h'.grown (hs.grown (h.grown hs)))
  flows {s} hs x hx := by
    obtain ⟨y, hlinks, hy⟩ := h.flows hs x hx
    obtain ⟨z, hlinks', hz⟩ := h'.flows (hs.grown (h.grown hs)) y hy
    rw [RegionScan.places_append, RegionScan.run_append]
    exact ⟨z, hlinks.append hlinks', hz⟩
  settled {s T} hs hleads htargets hsub := by
    rw [RegionScan.places_append] at hsub ⊢
    obtain ⟨hsub, hsub'⟩ := append_subset.mp hsub
    have heq := h.regions_run hs
    refine forall_mem_append.mpr ⟨h.settled hs hleads htargets hsub, ?_⟩
    refine h'.settled (hs.grown (h.grown hs)) (hleads.of_regions_eq heq) (fun l hl => ?_) hsub'
    rw [heq]
    exact htargets l hl

/-- `Regular` code may be put where labels are older, and where it may lead to more of them. -/
theorem mono {targets' : List Label} (h : Regular n lo' targets' code) (hle : lo ≤ lo')
    (hsub : targets' ⊆ targets) : Regular n lo targets code where
  grown hs := h.grown (hs.mono hle)
  flows hs := h.flows (hs.mono hle)
  settled hs hleads htargets := h.settled (hs.mono hle) hleads fun l hl => htargets l (hsub hl)

/-- An operation after which the scan is the same is `Regular`. -/
theorem of_step_eq {op : Operation} (hstep : ∀ {s}, Within n lo s → s.step op = s)
    (hplace : ∀ {s}, Within n lo s → s.place op = s) (hopens : op.opensRegion = false)
    (hsettled : ∀ {s T}, Within n lo s → Leads T n s → (∀ l ∈ targets, LabelAt T l s.regions) →
      Settled T (op, s)) : Regular n lo targets [op] where
  grown {s} hs := by
    rw [RegionScan.run_cons, RegionScan.run_nil, hstep hs]
    exact .refl _
  flows {s} hs x hx := by
    refine ⟨(op, s), ?_, ?_⟩
    · rw [RegionScan.places, hplace hs]
      exact .cons hx (.nil _)
    · rw [RegionScan.run_cons, RegionScan.run_nil, hstep hs]
      exact .same hopens
  settled {s T} hs hleads htargets _ := by
    rw [RegionScan.places, hplace hs]
    exact forall_mem_singleton.mpr (hsettled hs hleads htargets)

theorem op {operation : Operation} (h : operation.isInert = true) :
    Regular n lo targets [operation] := by
  refine of_step_eq (fun _ => (RegionScan.step_of_isInert h _).1)
    (fun _ => (RegionScan.step_of_isInert h _).2) ?_ fun _ _ _ => settled_of_isInert h _
  cases operation with
  | «try» => cases h
  | _ => rfl

/-- Operations that are no transfers are `Regular`. -/
theorem ops : ∀ {code : List Operation}, (∀ op ∈ code, op.isInert = true) →
    Regular n lo targets code
  | [], _ => nil
  | op :: code, h => by
    obtain ⟨hop, hcode⟩ := forall_mem_cons.mp h
    exact (Regular.op hop).append (ops hcode)

theorem label (hl : lo ≤ l) : Regular n lo targets [.label l] :=
  of_step_eq (fun hs => hs.step_label hl) (fun hs => hs.step_label hl) rfl fun _ _ _ => trivial

/-- A jump is `Regular` if its label is among the targets. -/
theorem jump {kind : JumpKind} (hl : l ∈ targets) : Regular n lo targets [.jump kind l] :=
  of_step_eq (fun _ => rfl) (fun _ => rfl) rfl fun _ _ htargets => htargets l hl

/-- `Regular` code may lead to a label that it places itself. -/
theorem bind (hl : lo ≤ l) (h : Regular n lo (l :: targets) code)
    (h' : Regular n lo (l :: targets) code') :
    Regular n lo targets (code ++ .label l :: code') := by
  have hwhole : Regular n lo (l :: targets) (code ++ .label l :: code') :=
    h.append ((Regular.label hl).append h')
  refine ⟨hwhole.grown, hwhole.flows, fun {s T} hs hleads htargets hsub => ?_⟩
  refine hwhole.settled hs hleads (forall_mem_cons.mpr ⟨?_, htargets⟩) hsub
  refine ⟨s.run code, hsub ?_, h.regions_run hs⟩
  rw [RegionScan.places_append, RegionScan.places, RegionScan.place,
    (hs.grown (h.grown hs)).step_label hl]
  exact mem_append_right _ mem_cons_self

/-- What `exitTo` gives is `Regular`, if the label stands outside of the regions that are left. -/
theorem exit {target : Label} {depth : Nat} {exit : Exit} (h : n.exitTo target depth = .ok exit)
    (hlabel : ∀ {s T}, Within n lo s → Leads T n s →
      LabelAt T target (s.regions.drop (n.tries.length - depth)))
    (hout : depth < n.tries.length → n.Outward target) :
    Regular n lo targets [exit.operation] := by
  obtain ⟨hsame, rfl⟩ | ⟨hone, hphase, rfl⟩ := Nesting.exitTo_eq_ok_iff.mp h
  · refine of_step_eq (fun _ => rfl) (fun _ => rfl) rfl fun {s T} hs hleads _ => ?_
    have hat := hlabel hs hleads
    rw [hsame, Nat.sub_self] at hat
    exact hat
  · -- the exit leaves one try statement, so one is open
    have hopen : ∀ {s}, Within n lo s → ∃ t outer, s.tries = t :: outer := by
      intro s hs
      cases htries : s.tries with
      | nil =>
        have hphases := hs.phases
        rw [RegionScan.regions, htries] at hphases
        rw [hphases] at hone
        simp at hone
      | cons t outer => exact ⟨t, outer, rfl⟩
    refine ⟨fun {s} hs => ?_, fun {s} hs x hx => ?_, fun {s T} hs hleads _ _ => ?_⟩
    · obtain ⟨t, outer, htries⟩ := hopen hs
      have hout := hout (by omega)
      show Grown _ s.tries (s.tries.modifyHead _)
      rw [htries]
      refine .cons (subset_cons_self _ _) fun l hl => ?_
      rcases mem_cons.mp hl with rfl | hl
      · exact .inr hout
      · exact .inl hl
    · refine ⟨(.endTry target, s), .cons hx (.nil _), ?_⟩
      show Falls _ (s.step (.endTry target)).regions
      rw [RegionScan.regions_step_endTry]
      exact .same rfl
    · obtain ⟨t, outer, htries⟩ := hopen hs
      refine forall_mem_singleton.mpr ⟨t.region, outer.map OpenTry.region, ?_, ?_, ?_⟩
      · show s.regions = _
        rw [RegionScan.regions, htries]
        rfl
      · rw [hs.phases, RegionScan.regions, htries] at hphase
        exact fun hfinalizer => hphase (congrArg some hfinalizer)
      · have hat := hlabel hs hleads
        rw [hone, Nat.add_sub_cancel_left, RegionScan.regions, htries] at hat
        exact hat

/-- What leaves a loop is `Regular`. -/
theorem exitLoop {loop : Loop} (hloop : loop ∈ n.loops)
    (hl : l = loop.continueLabel ∨ l = loop.breakLabel) {exit : Exit}
    (h : n.exitTo l loop.tryDepth = .ok exit) : Regular n lo targets [exit.operation] :=
  .exit h (fun _ hleads => hleads.loops loop hloop l hl) fun hlt => .inr ⟨loop, hloop, hlt, hl⟩

/-- A `return` leaves all regions. -/
theorem exitFunction {exit : Exit} (h : n.returnExit Draft.returnTarget = .ok exit) :
    Regular n lo targets [exit.operation] := by
  refine .exit h (fun {s T} hs hleads => ?_) fun _ => .inl rfl
  rw [hs.phases, length_map, Nat.sub_zero, drop_length]
  exact hleads.final

/-- The body of a loop is `Regular` outside of it too, and leads to where the loop goes on and to
where it ends. -/
theorem loop {c b lo' : Label} (h : Regular (n.enterLoop c b) lo' [] code) (hlo : lo ≤ lo')
    (hc : c < lo') (hb : b < lo') : Regular n lo [c, b] code := by
  have hwithin : ∀ {s}, Within n lo s → Within (n.enterLoop c b) lo' s := by
    intro s hs
    refine ⟨hs.phases, (hs.mono hlo).known, ?_, (hs.mono hlo).pos⟩
    exact forall_mem_cons.mpr ⟨⟨Nat.le_refl _, hc, hb⟩, (hs.mono hlo).loops⟩
  refine ⟨fun hs => (h.grown (hwithin hs)).imp fun l hl => ?_, fun hs => h.flows (hwithin hs),
    fun {s T} hs hleads htargets => ?_⟩
  · rcases hl with hfinal | ⟨loop, hloop, hlt, hl⟩
    · exact .inl hfinal
    · rcases mem_cons.mp hloop with rfl | hloop
      · exact absurd hlt (Nat.lt_irrefl _)
      · exact .inr ⟨loop, hloop, hlt, hl⟩
  · refine h.settled (hwithin hs) ⟨forall_mem_cons.mpr ⟨?_, hleads.loops⟩, hleads.final⟩
      (forall_mem_nil _)
    rintro l hl
    show LabelAt T l (s.regions.drop (n.tries.length - n.tries.length))
    rw [Nat.sub_self, drop_zero]
    rcases hl with rfl | rfl
    · exact htargets _ mem_cons_self
    · exact htargets _ (mem_cons_of_mem _ mem_cons_self)

end Regular

/-! ## Try statements -/

/-- The `Label`s of a try statement are new and differ. -/
structure PartLabels (lo : Label) (handler finalizer : Option Label) (endLabel : Label) : Prop where
  le : lo ≤ endLabel
  handler : ∀ l ∈ handler, lo ≤ l ∧ l < endLabel ∧ finalizer ≠ some l
  finalizer : ∀ l ∈ finalizer, lo ≤ l ∧ l < endLabel

/-- The code of a handler or a finalizer, if there is one. -/
inductive Part (n : Nesting) (lo : Label) (phase : TryPhase) (closing : Operation) :
    Option Label → List Operation → Prop where
  | none : Part n lo phase closing none []
  | some {l : Label} {code : List Operation} : Regular (n.within phase) lo [] code →
    Part n lo phase closing (some l) (.label l :: (code ++ [closing]))

/-- The `Label`s of a try statement stand where control may go to. -/
structure Placed (T : List (Operation × RegionScan)) (n : Nesting) (s : RegionScan)
    (handler finalizer : Option Label) (endLabel : Label) : Prop where
  leads : Leads T n s
  handler : ∀ l ∈ handler, LabelAt T l (⟨s.opened, .handler⟩ :: s.regions)
  finalizer : ∀ l ∈ finalizer, LabelAt T l (⟨s.opened, .finalizer⟩ :: s.regions)
  after : LabelAt T endLabel s.regions

/-- Code leads from one place to another, and control goes only where it may if the labels around
the code stand where they must. -/
structure Goes (P : List (Operation × RegionScan) → Prop) (x : Operation × RegionScan)
    (s : RegionScan) (code : List Operation) (y : Operation × RegionScan) (s' : RegionScan) :
    Prop where
  run_eq : s.run code = s'
  links : Links x (s.places code) y
  settled : ∀ T, P T → s.places code ⊆ T → ∀ z ∈ s.places code, Settled T z

namespace Goes

variable {P : List (Operation × RegionScan) → Prop} {x y z : Operation × RegionScan}
  {s s' s'' : RegionScan} {code code' : List Operation}

theorem nil (x : Operation × RegionScan) (s : RegionScan) : Goes P x s [] x s :=
  ⟨rfl, .nil x, fun _ _ _ => forall_mem_nil _⟩

/-- Code that leads on from where other code leads to may follow it. -/
theorem append (h : Goes P x s code y s') (h' : Goes P y s' code' z s'') :
    Goes P x s (code ++ code') z s'' where
  run_eq := by rw [RegionScan.run_append, h.run_eq, h'.run_eq]
  links := by
    rw [RegionScan.places_append, h.run_eq]
    exact h.links.append h'.links
  settled T hT hsub := by
    rw [RegionScan.places_append, h.run_eq] at hsub ⊢
    obtain ⟨hsub, hsub'⟩ := append_subset.mp hsub
    exact forall_mem_append.mpr ⟨h.settled T hT hsub, h'.settled T hT hsub'⟩

theorem single {op : Operation} (hfalls : Falls x (s.place op).regions)
    (hsettled : ∀ T, P T → Settled T (op, s.place op)) :
    Goes P x s [op] (op, s.place op) (s.step op) :=
  ⟨rfl, .cons hfalls (.nil _), fun T hT _ => forall_mem_singleton.mpr (hsettled T hT)⟩

/-- `Regular` code leads to a place in the same regions. -/
theorem of_regular {n : Nesting} {lo : Label} (h : Regular n lo [] code) (hs : Within n lo s)
    (hleads : ∀ T, P T → Leads T n s) (hx : Falls x s.regions) :
    ∃ y, Goes P x s code y (s.run code) ∧ Falls y (s.run code).regions := by
  obtain ⟨y, hlinks, hy⟩ := h.flows hs x hx
  exact ⟨y, ⟨rfl, hlinks, fun T hT hsub =>
    h.settled hs (hleads T hT) (forall_mem_nil _) hsub⟩, hy⟩

end Goes

/-- The scan is in a part of a statement that started at another place. The innermost statement is
left for its end, or for older `Label`s. -/
structure Inner (s : RegionScan) (lo : Label) (handler finalizer : Option Label) (endLabel : Label)
    (phase : TryPhase) (exits : List Label) (s' : RegionScan) : Prop where
  tries_eq : s'.tries = ⟨⟨s.opened, phase⟩, handler, finalizer, exits⟩ :: s.tries
  exits : ∀ l ∈ exits, l < lo ∨ l = endLabel

namespace Inner

variable {n : Nesting} {s s' : RegionScan} {lo endLabel : Label} {handler finalizer : Option Label}
  {phase : TryPhase} {exits : List Label}

section

variable (h : Inner s lo handler finalizer endLabel phase exits s')
include h

theorem regions_eq : s'.regions = ⟨s.opened, phase⟩ :: s.regions := by
  rw [RegionScan.regions, h.tries_eq]
  rfl

/-- A part of a statement is `Within` it. -/
theorem within (hs : Within n lo s) (hlabels : PartLabels lo handler finalizer endLabel) :
    Within (n.within phase) (endLabel + 1) s' where
  phases := by
    rw [h.regions_eq, map_cons, ← hs.phases]
    rfl
  known := by
    have hle : lo ≤ endLabel + 1 := Nat.le_succ_of_le hlabels.le
    rw [h.tries_eq]
    refine forall_mem_cons.mpr ⟨fun l hl => ?_, (hs.mono hle).known⟩
    rcases hl with hhandler | hfinalizer | hexit
    · exact Nat.lt_succ_of_lt (hlabels.handler l hhandler).2.1
    · exact Nat.lt_succ_of_lt (hlabels.finalizer l hfinalizer).2
    · rcases h.exits l hexit with hlt | rfl
      · exact Nat.lt_of_lt_of_le hlt hle
      · exact Nat.lt_succ_self l
  loops loop hloop := by
    obtain ⟨hdepth, hbefore⟩ := (hs.mono (Nat.le_succ_of_le hlabels.le)).loops loop hloop
    exact ⟨Nat.le_succ_of_le hdepth, hbefore⟩
  pos := (hs.mono (Nat.le_succ_of_le hlabels.le)).pos

/-- From a part of a statement, loops and the function are left for labels outside. -/
theorem leads (hs : Within n lo s) (hleads : Leads T n s) : Leads T (n.within phase) s' where
  loops loop hloop l hl := by
    have hdepth := (hs.loops loop hloop).1
    have hlength : (n.within phase).tries.length - loop.tryDepth =
        (n.tries.length - loop.tryDepth) + 1 := by
      show n.tries.length + 1 - _ = _
      omega
    rw [hlength, h.regions_eq, drop_succ_cons]
    exact hleads.loops loop hloop l hl
  final := hleads.final

/-- `Regular` code of a part stays in it. -/
theorem run (hs : Within n lo s) (hlabels : PartLabels lo handler finalizer endLabel)
    {code : List Operation} (hcode : Regular (n.within phase) (endLabel + 1) [] code) :
    ∃ exits', exits ⊆ exits' ∧ (∀ l ∈ exits', l ∈ exits ∨ (n.within phase).Outward l) ∧
      Inner s lo handler finalizer endLabel phase exits' (s'.run code) := by
  have hgrown := hcode.grown (h.within hs hlabels)
  rw [h.tries_eq] at hgrown
  generalize htries : (s'.run code).tries = tries at hgrown
  cases hgrown with
  | @cons _ exits' _ hsub hnew =>
    refine ⟨exits', hsub, hnew, htries, fun l hl => ?_⟩
    rcases hnew l hl with hold | hfinal | ⟨loop, hloop, -, hl⟩
    · exact h.exits l hold
    · exact .inl (hfinal ▸ hs.pos)
    · obtain ⟨-, hcontinue, hbreak⟩ := hs.loops loop hloop
      rcases hl with rfl | rfl
      · exact .inl hcontinue
      · exact .inl hbreak

theorem endTry : Inner s lo handler finalizer endLabel phase (endLabel :: exits)
      (s'.step (.endTry endLabel)) where
  tries_eq := by
    show s'.tries.modifyHead _ = _
    rw [h.tries_eq]
    rfl
  exits := forall_mem_cons.mpr ⟨.inr rfl, h.exits⟩

end

/-- The label of the handler starts it, as `TryPhase.handler`. -/
theorem enterHandler (h : Inner s lo (some l) finalizer endLabel phase exits s') :
    Inner s lo (some l) finalizer endLabel .handler exits (s'.step (.label l)) where
  tries_eq := by
    simp only [RegionScan.step, h.tries_eq, OpenTry.reach, if_true]
    rfl
  exits := h.exits

/-- The label of the finalizer starts it, as `TryPhase.finalizer`. -/
theorem enterFinalizer (h : Inner s lo handler (some l) endLabel phase exits s')
    (hne : handler ≠ some l) :
    Inner s lo handler (some l) endLabel .finalizer exits (s'.step (.label l)) where
  tries_eq := by
    simp only [RegionScan.step, h.tries_eq, OpenTry.reach, if_neg hne, if_true]
    rfl
  exits := h.exits

/-- The end of the statement is reached. -/
theorem close (h : Inner s lo handler finalizer endLabel phase exits s')
    (hlabels : PartLabels lo handler finalizer endLabel) (hend : endLabel ∈ exits) :
    (s'.step (.label endLabel)).tries = s.tries := by
  have hhandler : handler ≠ some endLabel := fun heq =>
    Nat.lt_irrefl _ (hlabels.handler endLabel heq).2.1
  have hfinalizer : finalizer ≠ some endLabel := fun heq =>
    Nat.lt_irrefl _ (hlabels.finalizer endLabel heq).2
  simp only [RegionScan.step, h.tries_eq, OpenTry.reach, if_neg hhandler, if_neg hfinalizer,
    if_pos hend]
  rfl

end Inner

section Try

variable {n : Nesting} {s : RegionScan} {lo endLabel : Label} {handler finalizer : Option Label}
  {code body code' : List Operation} {x : Operation × RegionScan}

/-- A handler or a finalizer starts after an `ENDTRY`, at its label, and goes on to its closing
operation. -/
theorem Part.goes (hs : Within n lo s) (hlabels : PartLabels lo handler finalizer endLabel)
    {phase : TryPhase} {closing : Operation} {part : Option Label}
    (h : Part n (endLabel + 1) phase closing part code) (hphase : phase ≠ .body)
    {exits : List Label} {s₁ : RegionScan}
    (henter : ∀ l ∈ part, Inner s lo handler finalizer endLabel phase exits (s₁.step (.label l)))
    (hplace : ∀ s', RegionScan.place s' closing = s')
    (hsettled : ∀ T s', Placed T n s handler finalizer endLabel →
      s'.regions = ⟨s.opened, phase⟩ :: s.regions → Settled T (closing, s'))
    (hclose : ∀ {exits s'}, Inner s lo handler finalizer endLabel phase exits s' → ∃ exits',
      exits ⊆ exits' ∧
        Inner s lo handler finalizer endLabel phase exits' (s'.step closing))
    {l' : Label} {phase' : TryPhase} (hop : x.1 = .endTry l')
    (hx : x.2.regions = ⟨s.opened, phase'⟩ :: s.regions) :
    part = Option.none ∧ code = [] ∨ ∃ exits' s₂ s₃, exits ⊆ exits' ∧
      Goes (Placed · n s handler finalizer endLabel) x s₁ code (closing, s₂) s₃ ∧
      s₂.regions = ⟨s.opened, phase⟩ :: s.regions ∧
      Inner s lo handler finalizer endLabel phase exits' s₃ ∧
      ∀ T, s₁.places code ⊆ T → ∀ l ∈ part, LabelAt T l (⟨s.opened, phase⟩ :: s.regions) := by
  cases h with
  | none => exact .inl ⟨rfl, rfl⟩
  | @some l code hcode =>
    have hstart := henter l rfl
    obtain ⟨exits₂, hsub, -, hinner⟩ := hstart.run hs hlabels hcode
    obtain ⟨exits₃, hsub', hinner'⟩ := hclose hinner
    have hlabel : Falls x (s₁.place (.label l)).regions := by
      show Falls x (s₁.step (.label l)).regions
      rw [hstart.regions_eq]
      exact .part hop hx hphase
    obtain ⟨y, hgoes, hy⟩ := Goes.of_regular (P := (Placed · n s handler finalizer endLabel))
      hcode (hstart.within hs hlabels) (fun T hT => hstart.leads hs hT.leads)
      (x := (.label l, s₁.step (.label l))) (.same rfl)
    have hlast : Goes (Placed · n s handler finalizer endLabel) y _ [closing] _ _ :=
      .single (by rw [hplace]; exact hy) fun T hT => by
        rw [hplace]
        exact hsettled T _ hT hinner.regions_eq
    rw [hplace] at hlast
    refine .inr ⟨exits₃, _, _, List.Subset.trans hsub hsub',
      (Goes.single hlabel fun _ _ => trivial).append (hgoes.append hlast), hinner.regions_eq,
      hinner', fun T hT l' hl' => ?_⟩
    cases hl'
    exact ⟨s₁.step (.label l), hT mem_cons_self, hstart.regions_eq⟩

/-- A whole statement starts at its `TRY` and ends at the label after it. -/
theorem goes_try (hs : Within n lo s) (hlabels : PartLabels lo handler finalizer endLabel)
    (hbody : Regular (n.within .body) (endLabel + 1) [] body)
    (hhandler : Part n (endLabel + 1) .handler (.endTry endLabel) handler code)
    (hfinalizer : Part n (endLabel + 1) .finalizer (.simple .endFinally) finalizer code')
    (hx : Falls x s.regions) :
    let whole := [Operation.try handler finalizer] ++ body ++ [Operation.endTry endLabel] ++
      code ++ code' ++ [Operation.label endLabel]
    ∃ y s', Goes (Placed · n s handler finalizer endLabel) x s whole y s' ∧ s'.tries = s.tries ∧
      Falls y s'.regions ∧ ∀ T, s.places whole ⊆ T → Leads T n s →
        Placed T n s handler finalizer endLabel := by
  intro whole
  have hstart : Inner s lo handler finalizer endLabel .body [] (s.step (.try handler finalizer)) :=
    ⟨rfl, forall_mem_nil _⟩
  obtain ⟨exits, -, -, hinner⟩ := hstart.run hs hlabels hbody
  have htry : Goes (Placed · n s handler finalizer endLabel) x s [.try handler finalizer]
      (.try handler finalizer, s) (s.step (.try handler finalizer)) :=
    .single hx fun T hT => ⟨hT.handler, hT.finalizer⟩
  obtain ⟨y, hgoes, hy⟩ := Goes.of_regular (P := (Placed · n s handler finalizer endLabel)) hbody
    (hstart.within hs hlabels) (fun T hT => hstart.leads hs hT.leads)
    (x := (.try handler finalizer, s)) (.enter rfl)
  generalize (s.step (.try handler finalizer)).run body = s₂ at hinner hgoes hy
  have hleave : Goes (Placed · n s handler finalizer endLabel) y s₂ [.endTry endLabel]
      (.endTry endLabel, s₂) (s₂.step (.endTry endLabel)) :=
    .single hy fun T hT => ⟨_, _, hinner.regions_eq, nofun, hT.after⟩
  have hopened := (htry.append hgoes).append hleave
  -- the handler, if there is one, starts right after the `ENDTRY` of the body
  obtain ⟨phase₄, exits₄, s₃, s₄, hgoes₄, hregions₄, hinner₄, hend₄, hat₄⟩ :
      ∃ phase exits₄ s₃ s₄, Goes (Placed · n s handler finalizer endLabel) (.endTry endLabel, s₂)
          (s₂.step (.endTry endLabel)) code (.endTry endLabel, s₃) s₄ ∧
        s₃.regions = ⟨s.opened, phase⟩ :: s.regions ∧
        Inner s lo handler finalizer endLabel phase exits₄ s₄ ∧ endLabel ∈ exits₄ ∧
        ∀ T, (s₂.step (.endTry endLabel)).places code ⊆ T → ∀ l ∈ handler,
          LabelAt T l (⟨s.opened, .handler⟩ :: s.regions) := by
    have henter : ∀ l ∈ handler, Inner s lo handler finalizer endLabel .handler (endLabel :: exits)
        ((s₂.step (.endTry endLabel)).step (.label l)) := by
      intro l hl
      obtain rfl : handler = some l := hl
      exact hinner.endTry.enterHandler
    rcases hhandler.goes hs hlabels nofun henter (fun _ => rfl)
      (fun T s' hT hs' => ⟨_, _, hs', nofun, hT.after⟩)
      (fun h => ⟨_, subset_cons_self _ _, h.endTry⟩) (x := (.endTry endLabel, s₂)) rfl
      hinner.regions_eq with
      ⟨rfl, rfl⟩ | ⟨exits₄, s₃, s₄, hsub, hgoes, hregions, hinner₄, hat⟩
    · exact ⟨_, _, _, _, .nil _ _, hinner.regions_eq, hinner.endTry, mem_cons_self,
        nofun⟩
    · exact ⟨_, exits₄, s₃, s₄, hgoes, hregions, hinner₄, hsub mem_cons_self, hat⟩
  -- the finalizer, if there is one, starts after whichever part comes last before it
  obtain ⟨phase₅, exits₅, y₅, s₅, hgoes₅, hfalls₅, hinner₅, hend₅, hat₅⟩ :
      ∃ phase exits₅ y₅ s₅, Goes (Placed · n s handler finalizer endLabel) (.endTry endLabel, s₃)
          s₄ code' y₅ s₅ ∧ Falls y₅ s.regions ∧
        Inner s lo handler finalizer endLabel phase exits₅ s₅ ∧ endLabel ∈ exits₅ ∧
        ∀ T, s₄.places code' ⊆ T → ∀ l ∈ finalizer,
          LabelAt T l (⟨s.opened, .finalizer⟩ :: s.regions) := by
    have henter : ∀ l ∈ finalizer, Inner s lo handler finalizer endLabel .finalizer exits₄
        (s₄.step (.label l)) := by
      intro l hl
      obtain rfl : finalizer = some l := hl
      exact hinner₄.enterFinalizer fun heq => (hlabels.handler l heq).2.2 rfl
    rcases hfinalizer.goes hs hlabels nofun henter (fun _ => rfl)
      (fun _ _ _ _ => trivial) (fun h => ⟨_, List.Subset.refl _, h⟩)
      (x := (.endTry endLabel, s₃)) rfl hregions₄ with
      ⟨rfl, rfl⟩ | ⟨exits₅, s₂, s₅, hsub, hgoes, hregions, hinner₅, hat⟩
    · exact ⟨_, _, _, _, .nil _ _, .finish rfl hregions₄, hinner₄, hend₄,
        nofun⟩
    · exact ⟨_, exits₅, _, s₅, hgoes, .resume rfl hregions, hinner₅, hsub hend₄, hat⟩
  -- some `ENDTRY` led to the label after the statement, so that label is its end
  have hclosed := hinner₅.close hlabels hend₅
  have hregions : (s₅.step (.label endLabel)).regions = s.regions :=
    congrArg (List.map OpenTry.region) hclosed
  have hlast : Goes (Placed · n s handler finalizer endLabel) y₅ s₅ [.label endLabel]
      (.label endLabel, s₅.step (.label endLabel)) (s₅.step (.label endLabel)) :=
    .single (hregions ▸ hfalls₅) fun _ _ => trivial
  refine ⟨_, _, ((hopened.append hgoes₄).append hgoes₅).append hlast, hclosed, .same rfl,
    fun T hT hleads => ?_⟩
  rw [RegionScan.places_append, RegionScan.places_append, RegionScan.places_append,
    ((hopened.append hgoes₄).append hgoes₅).run_eq, (hopened.append hgoes₄).run_eq,
    hopened.run_eq] at hT
  obtain ⟨hT, hlastT⟩ := append_subset.mp hT
  obtain ⟨hT, hfinalizerT⟩ := append_subset.mp hT
  obtain ⟨-, hhandlerT⟩ := append_subset.mp hT
  exact ⟨hleads, hat₄ T hhandlerT, hat₅ T hfinalizerT, _, hlastT mem_cons_self, hregions⟩

/-- A try statement is `Regular`, if its parts are. -/
theorem Regular.try (hlabels : PartLabels lo handler finalizer endLabel) {targets : List Label}
    (hbody : Regular (n.within .body) (endLabel + 1) [] body)
    (hhandler : Part n (endLabel + 1) .handler (.endTry endLabel) handler code)
    (hfinalizer : Part n (endLabel + 1) .finalizer (.simple .endFinally) finalizer code') :
    Regular n lo targets ([Operation.try handler finalizer] ++ body ++
      [Operation.endTry endLabel] ++ code ++ code' ++ [Operation.label endLabel]) where
  grown {s} hs := by
    obtain ⟨y, s', hgoes, htries, -⟩ := goes_try hs hlabels hbody hhandler hfinalizer
      (x := (.anchor, s)) (.same rfl)
    rw [hgoes.run_eq, htries]
    exact .refl _
  flows {s} hs x hx := by
    obtain ⟨y, s', hgoes, -, hy, -⟩ := goes_try hs hlabels hbody hhandler hfinalizer hx
    refine ⟨y, hgoes.links, ?_⟩
    rw [hgoes.run_eq]
    exact hy
  settled {s T} hs hleads _ hsub := by
    obtain ⟨y, s', hgoes, -, -, hplaced⟩ := goes_try hs hlabels hbody hhandler hfinalizer
      (x := (.anchor, s)) (.same rfl)
    exact hgoes.settled T (hplaced T hsub hleads) hsub

end Try

end ContractScript
