import ContractScript.Proofs.TryFrames

/-!
# Code that is left for good

A place in the code of a function that control never comes back to once it has passed it
(`OneWay`). No operation after it branches to a label before it, and the try statements that are
open there go on after it: their handlers and finalizers, as far as they are still to come, and the
labels for which they are left.
-/

namespace ContractScript

open List

variable {V : Type} {l : Label} {x : Operation × RegionScan} {op : Operation} {r : Region}
  {phase : FramePhase} {rest : List Operation} {frames frames' : List TryFrame}

/-! ## Statements that stay open -/

/-- What becomes of an open try statement as the scan goes on inside of it: it may get further ways
out, and other parts of it may start. -/
structure OpenTry.Follows (code : List Operation) (t t' : OpenTry) : Prop where
  number_eq : t'.region.number = t.region.number
  handler_eq : t'.handler = t.handler
  finalizer_eq : t'.finalizer = t.finalizer
  exits : t.exits ⊆ t'.exits
  phase : t'.region.phase = t.region.phase ∨ t'.region.phase = .finalizer ∨
    t'.region.phase = .handler ∧ ∃ l ∈ labelsIn code, t.handler = some l

namespace OpenTry.Follows

variable {code code' : List Operation} {t t' t'' : OpenTry}

theorem refl (t : OpenTry) : t.Follows code t :=
  ⟨rfl, rfl, rfl, List.Subset.refl _, .inl rfl⟩

theorem trans (h : t.Follows code t') (h' : t'.Follows code' t'') :
    t.Follows (code ++ code') t'' where
  number_eq := h'.number_eq.trans h.number_eq
  handler_eq := h'.handler_eq.trans h.handler_eq
  finalizer_eq := h'.finalizer_eq.trans h.finalizer_eq
  exits := List.Subset.trans h.exits h'.exits
  phase := by
    rw [labelsIn_append]
    rcases h'.phase with hsame | hfinal | ⟨hhandler, l, hl, hlabel⟩
    · rw [hsame]
      rcases h.phase with hsame | hfinal | ⟨hhandler, l, hl, hlabel⟩
      · exact .inl hsame
      · exact .inr (.inl hfinal)
      · exact .inr (.inr ⟨hhandler, l, mem_append_left _ hl, hlabel⟩)
    · exact .inr (.inl hfinal)
    · exact .inr (.inr ⟨hhandler, l, mem_append_right _ hl, h.handler_eq ▸ hlabel⟩)

/-- A label may start a part of an open try statement. -/
theorem reach (h : t.reach l = some t') : t.Follows [.label l] t' := by
  unfold OpenTry.reach at h
  split at h
  · next hhandler =>
    cases h
    exact ⟨rfl, rfl, rfl, List.Subset.refl _, .inr (.inr ⟨rfl, l, mem_cons_self, hhandler⟩)⟩
  · split at h
    · cases h
      exact ⟨rfl, rfl, rfl, List.Subset.refl _, .inr (.inl rfl)⟩
    · split at h <;> cases h
      exact refl t

end OpenTry.Follows

namespace RegionScan

variable {s s₁ : RegionScan} {t : OpenTry} {code : List Operation}

/-- Later statements have greater numbers. -/
def Numbered (s : RegionScan) : Prop :=
  (s.opened :: s.tries.map (·.region.number)).Pairwise (· > ·)

theorem Numbered.lt (h : s.Numbered) (ht : t ∈ s.tries) : t.region.number < s.opened :=
  (pairwise_cons.mp h).1 _ (mem_map_of_mem ht)

/-- `step` gives the next number to a statement that starts. -/
theorem Numbered.step {s : RegionScan} (h : s.Numbered) (op : Operation) :
    (s.step op).Numbered := by
  obtain ⟨opened, tries⟩ := s
  cases op with
  | «try» handler finalizer =>
    refine pairwise_cons.mpr ⟨fun k hk => ?_, h⟩
    rcases mem_cons.mp hk with rfl | hk
    · exact Nat.lt_succ_self _
    · exact Nat.lt_succ_of_lt ((pairwise_cons.mp h).1 k hk)
  | endTry l =>
    cases tries with
    | nil => exact h
    | cons t outer => exact h
  | label l =>
    cases tries with
    | nil => exact h
    | cons t outer =>
      cases hreach : t.reach l with
      | none =>
        have hsub : (opened :: outer.map (·.region.number)).Sublist
            (opened :: (t :: outer).map (·.region.number)) :=
          (sublist_cons_self _ _).cons_cons _
        simp only [RegionScan.step, hreach]
        exact h.sublist hsub
      | some t' =>
        simp only [RegionScan.step, hreach, Numbered]
        show (opened :: t'.region.number :: _).Pairwise (· > ·)
        rw [(OpenTry.Follows.reach hreach).number_eq]
        exact h
  | _ => exact h

theorem numbered_start : Numbered {} :=
  pairwise_singleton _ _

section

variable (s)

theorem opened_le_step (op : Operation) : s.opened ≤ (s.step op).opened := by
  cases op with
  | «try» => exact Nat.le_succ _
  | label l =>
    obtain ⟨opened, tries⟩ := s
    cases tries <;> exact Nat.le_refl _
  | _ => exact Nat.le_refl _

theorem place_cases (op : Operation) :
    s.place op = s ∨ s.place op = s.step op ∧ ∃ l, op = .label l := by
  cases op with
  | label l => exact .inr ⟨rfl, l, rfl⟩
  | _ => exact .inl rfl

theorem opened_le_place (op : Operation) : s.opened ≤ (s.place op).opened := by
  rcases s.place_cases op with heq | ⟨heq, -⟩ <;> rw [heq]
  exact s.opened_le_step op

end

theorem opened_le (h : x ∈ s.places code) : s.opened ≤ x.2.opened := by
  induction code generalizing s with
  | nil => cases h
  | cons op rest ih =>
    rcases mem_cons.mp h with rfl | h
    · exact s.opened_le_place op
    · exact Nat.le_trans (s.opened_le_step op) (ih h)

/-- A place has a scan of the code up to it. -/
theorem exists_run_of_mem (h : x ∈ s.places code) :
    ∃ before, before <+: code ∧ x.2 = s.run before := by
  induction code generalizing s with
  | nil => cases h
  | cons op rest ih =>
    rcases mem_cons.mp h with rfl | h
    · rcases s.place_cases op with heq | ⟨heq, -⟩
      · exact ⟨[], nil_prefix, heq⟩
      · exact ⟨[op], prefix_append [op] rest, heq⟩
    · obtain ⟨before, hbefore, heq⟩ := ih h
      exact ⟨op :: before, cons_prefix_cons.mpr ⟨rfl, hbefore⟩, heq⟩

/-- After an operation a statement is open that was so before, or that starts there. -/
theorem mem_tries_step (h : t ∈ (s.step op).tries) : (∃ t₀ ∈ s.tries, t₀.Follows [op] t) ∨
      op = .try t.handler t.finalizer ∧ t.region.number = s.opened := by
  obtain ⟨opened, tries⟩ := s
  have hsame : t ∈ tries → ∃ t₀ ∈ tries, t₀.Follows [op] t := fun ht => ⟨t, ht, .refl t⟩
  cases op with
  | «try» handler finalizer =>
    rcases mem_cons.mp h with rfl | ht
    · exact .inr ⟨rfl, rfl⟩
    · exact .inl (hsame ht)
  | endTry l =>
    cases tries with
    | nil => cases h
    | cons t₀ outer =>
      rcases mem_cons.mp h with rfl | ht
      · exact .inl ⟨t₀, mem_cons_self, rfl, rfl, rfl, subset_cons_self _ _, .inl rfl⟩
      · exact .inl (hsame (mem_cons_of_mem _ ht))
  | label l =>
    cases tries with
    | nil => cases h
    | cons t₀ outer =>
      rcases mem_append.mp h with ht | ht
      · exact .inl ⟨t₀, mem_cons_self, .reach (Option.mem_toList.mp ht)⟩
      · exact .inl (hsame (mem_cons_of_mem _ ht))
  | _ => exact .inl (hsame h)

/-- After some code a statement is open that `Follows` one from before, or that starts there. -/
theorem mem_tries_run (h : t ∈ (s.run code).tries) : (∃ t₀ ∈ s.tries, t₀.Follows code t) ∨
      ∃ s', (.try t.handler t.finalizer, s') ∈ s.places code ∧ s'.opened = t.region.number := by
  induction code generalizing s with
  | nil => exact .inl ⟨t, h, .refl t⟩
  | cons op rest ih =>
    rcases ih h with ⟨t₁, ht₁, hfollows⟩ | ⟨s', hs', hopened⟩
    · rcases mem_tries_step ht₁ with ⟨t₀, ht₀, hfirst⟩ | ⟨hop, hnumber⟩
      · exact .inl ⟨t₀, ht₀, hfirst.trans hfollows⟩
      · refine .inr ⟨s, ?_, by rw [hfollows.number_eq, hnumber]⟩
        rw [hfollows.handler_eq, hfollows.finalizer_eq, ← hop, places]
        subst hop
        exact mem_cons_self
    · exact .inr ⟨s', mem_cons_of_mem _ hs', hopened⟩

theorem Numbered.run (h : s.Numbered) (code : List Operation) : (s.run code).Numbered := by
  induction code generalizing s with
  | nil => exact h
  | cons op rest ih => exact ih (h.step op)

/-- A number belongs to one statement. -/
theorem try_unique {s₂ : RegionScan} {h₁ f₁ h₂ f₂ : Option Label}
    (hs₁ : (.try h₁ f₁, s₁) ∈ s.places code) (hs₂ : (.try h₂ f₂, s₂) ∈ s.places code)
    (heq : s₁.opened = s₂.opened) : h₁ = h₂ ∧ f₁ = f₂ := by
  induction code generalizing s with
  | nil => cases hs₁
  | cons op rest ih =>
    -- those after the first one have greater numbers
    have hlater : ∀ {h f : Option Label}, op = .try h f →
        ∀ {x : Operation × RegionScan}, x ∈ (s.step op).places rest →
          (s.place op).opened < x.2.opened := by
      rintro h f rfl x hx
      exact opened_le hx
    rcases mem_cons.mp hs₁ with heq₁ | hin₁ <;> rcases mem_cons.mp hs₂ with heq₂ | hin₂
    · cases (Prod.mk.inj heq₁).1.trans (Prod.mk.inj heq₂).1.symm
      exact ⟨rfl, rfl⟩
    · obtain ⟨hop, rfl⟩ := Prod.mk.inj heq₁
      exact absurd heq (Nat.ne_of_lt (hlater hop.symm hin₂))
    · obtain ⟨hop, rfl⟩ := Prod.mk.inj heq₂
      exact absurd heq.symm (Nat.ne_of_lt (hlater hop.symm hin₁))
    · exact ih hin₁ hin₂

/-- The ways out of a statement that were seen are known as long as it is open. -/
theorem mem_exits (hs : s.Numbered) {outer : List Region} (hl : (.endTry l, s₁) ∈ s.places code)
    (hr : s₁.regions = r :: outer) (ht : t ∈ (s.run code).tries)
    (hnumber : t.region.number = r.number) : l ∈ t.exits := by
  induction code generalizing s with
  | nil => cases hl
  | cons op rest ih =>
    rcases mem_cons.mp hl with heq | hin
    · obtain ⟨rfl, hplace⟩ := Prod.mk.inj heq
      obtain rfl : s₁ = s := hplace
      obtain ⟨opened, tries⟩ := s₁
      cases tries with
      | nil => cases hr
      | cons t₀ tries =>
        obtain ⟨rfl, rfl⟩ := List.cons.inj hr
        have hstep := hs.step (.endTry l)
        rcases mem_tries_run (s := RegionScan.step ⟨opened, t₀ :: tries⟩ (.endTry l)) ht with
          ⟨t₁, ht₁, hfollows⟩ | ⟨s', hs', hopened⟩
        · rcases mem_cons.mp ht₁ with rfl | hlater
          · exact hfollows.exits mem_cons_self
          · -- a statement further out has a smaller number
            have hlt := (pairwise_cons.mp (pairwise_cons.mp hs).2).1 _
              (mem_map_of_mem hlater)
            rw [← hfollows.number_eq, hnumber] at hlt
            exact absurd hlt (Nat.lt_irrefl _)
        · have hle := opened_le hs'
          have hlt := hs.lt (t := t₀) mem_cons_self
          dsimp only at hle
          rw [hopened, hnumber] at hle
          exact absurd hle (Nat.not_le.mpr hlt)
    · exact ih (hs.step op) hin ht

theorem opened_le_run (s : RegionScan) (code : List Operation) :
    s.opened ≤ (s.run code).opened := by
  induction code generalizing s with
  | nil => exact Nat.le_refl _
  | cons op rest ih => exact Nat.le_trans (s.opened_le_step op) (ih _)

/-- The statements around a place have started before the end of the code. -/
theorem number_lt (hs : s.Numbered) (h : x ∈ s.places code) (hr : r ∈ x.2.regions) :
    r.number < (s.run code).opened := by
  obtain ⟨before, ⟨after, rfl⟩, heq⟩ := exists_run_of_mem h
  rw [heq] at hr
  obtain ⟨t, ht, rfl⟩ := mem_map.mp hr
  rw [run_append]
  exact Nat.lt_of_lt_of_le ((hs.run before).lt ht) (opened_le_run _ after)

end RegionScan

/-! ## The place -/

/-- Control that has passed the place between two parts of a function does not come back: what is
behind the place leads to labels behind it, and so does what is left of the try statements that are
open there. -/
structure OneWay (code code' : List Operation) : Prop where
  targets : ∀ op ∈ code', ∀ l ∈ op.targets, l ∈ labelsIn code'
  handler : ∀ t ∈ (RegionScan.run {} code).tries, t.region.phase = .body →
    ∀ l ∈ t.handler, l ∈ labelsIn code'
  /-- The handler of a statement comes before its finalizer. -/
  passed : ∀ t ∈ (RegionScan.run {} code).tries, t.region.phase = .finalizer →
    ∀ l ∈ t.handler, l ∉ labelsIn code'
  finalizer : ∀ t ∈ (RegionScan.run {} code).tries, t.region.phase ≠ .finalizer →
    ∀ l ∈ t.finalizer, l ∈ labelsIn code'
  exits : ∀ t ∈ (RegionScan.run {} code).tries, ∀ l ∈ t.exits, l ∈ labelsIn code'

/-- `OneWay` looks at labels and at the statements that are left open. -/
theorem OneWay.congr {code code' before after : List Operation} (h : OneWay code code')
    (hrun : RegionScan.run {} before = RegionScan.run {} code) (hsub : after ⊆ code')
    (hlabels : labelsIn after = labelsIn code') : OneWay before after := by
  obtain ⟨htargets, hhandler, hpassed, hfinalizer, hexits⟩ := h
  constructor <;> (try rw [hrun]) <;> rw [hlabels]
  · exact fun op hop => htargets op (hsub hop)
  · exact hhandler
  · exact hpassed
  · exact hfinalizer
  · exact hexits

/-- A try statement is left for `Label`s among some, whether by an exception or not. -/
structure TryFrame.Onward (labels : List Label) (frame : TryFrame) : Prop where
  handler : frame.phase = .body → ∀ l ∈ frame.handler, l ∈ labels
  finalizer : frame.isFinal = false → ∀ l ∈ frame.finalizer, l ∈ labels
  pending : ∀ l, frame.phase = .finalizer (some l) → l ∈ labels

theorem TryFrame.Onward.catches {labels : List Label} {frame : TryFrame} (h : frame.Onward labels)
    (hcatches : frame.catches? = some (l, phase)) : l ∈ labels := by
  obtain ⟨hhandler, hfinalizer, -⟩ := h
  unfold TryFrame.catches? at hcatches
  split at hcatches
  · cases hcatches
    exact hhandler rfl l rfl
  · cases hcatches
    exact hfinalizer rfl l rfl
  · cases hcatches
    exact hfinalizer rfl l rfl
  · cases hcatches

theorem InPart.isFinal_eq {T : List (Operation × RegionScan)} {s : RegionScan} {part : TryPhase}
    (h : InPart T s phase part) {handler finalizer : Option Label}
    (hfinal : TryFrame.isFinal ⟨handler, finalizer, phase⟩ = false) : part ≠ .finalizer := by
  rintro rfl
  cases h <;> cases hfinal

section Behind

variable {code code' : List Operation}

/-- The place in front of code behind another one has a scan that goes on from there. -/
theorem PlaceOf.exists_run (h : PlaceOf (code ++ code') rest x) (hrest : rest <:+ code') :
    ∃ passed, passed <+: code' ∧ x.2 = (RegionScan.run {} code).run passed := by
  obtain ⟨before, op, after, hbefore, rfl, rfl⟩ := h
  obtain ⟨between, rfl⟩ := hrest
  have heq : before = code ++ between := by
    refine append_cancel_right (hbefore.symm.trans ?_)
    rw [append_assoc]
  rw [heq, RegionScan.run_append]
  rcases RegionScan.place_cases ((RegionScan.run {} code).run between) op with heq | ⟨heq, -⟩
  · exact ⟨between, prefix_append _ _, heq⟩
  · refine ⟨between ++ [op], ⟨after, append_assoc _ _ _⟩, ?_⟩
    rw [RegionScan.run_append]
    exact heq

namespace OneWay

/-- What is behind the place leads to labels behind it. -/
theorem targets_of_mem (h : OneWay code code') {s : RegionScan}
    (hs : (op, s) ∈ (RegionScan.run {} code).places code') :
    ∀ l ∈ op.targets, l ∈ labelsIn code' := by
  refine h.targets op ?_
  rw [← RegionScan.map_fst_places (RegionScan.run {} code) code']
  exact mem_map_of_mem hs

section Open

variable {passed : List Operation} {t : OpenTry} {frame : TryFrame} {s : RegionScan}
  (h : OneWay code code') (hpassed : passed <+: code')
  (htry : (.try frame.handler frame.finalizer, s) ∈ RegionScan.places {} (code ++ code'))
  (hpart : InPart (RegionScan.places {} (code ++ code')) s frame.phase t.region.phase)
  (hnumber : t.region.number = s.opened)
include h hpassed htry hpart hnumber

/-- A try statement that was opened before the place and is still open behind it is left for labels
behind the place. -/
theorem onward_of_follows {t₀ : OpenTry} (ht₀ : t₀ ∈ (RegionScan.run {} code).tries)
    (hfollows : t₀.Follows passed t) : frame.Onward (labelsIn code') := by
  have hplaces := RegionScan.places_append {} code code'
  -- the frame and the open statement have the same number, so they started at the same `TRY`
  have hstart : frame.handler = t₀.handler ∧ frame.finalizer = t₀.finalizer := by
    rcases RegionScan.mem_tries_run ht₀ with ⟨_, hnil, -⟩ | ⟨s', hs', hopened⟩
    · cases hnil
    · refine RegionScan.try_unique htry (hplaces ▸ mem_append_left _ hs') ?_
      rw [hopened, ← hfollows.number_eq, hnumber]
  refine ⟨fun hphase l hl => ?_, fun hfinal l hl => ?_, fun l hphase => ?_⟩
  · rw [hphase] at hpart
    generalize hbody : t.region.phase = phase at hpart
    cases hpart
    refine h.handler t₀ ht₀ ?_ l (hstart.1 ▸ hl)
    rcases hfollows.phase with heq | heq | ⟨heq, -⟩
    · exact heq.symm.trans hbody
    · cases heq.symm.trans hbody
    · cases heq.symm.trans hbody
  · have hnot : t.region.phase ≠ .finalizer := hpart.isFinal_eq hfinal
    refine h.finalizer t₀ ht₀ (fun hfinalizer => ?_) l (hstart.2 ▸ hl)
    rcases hfollows.phase with heq | heq | ⟨-, l', hl', hhandler⟩
    · exact hnot (heq.trans hfinalizer)
    · exact hnot heq
    · -- the handler does not start after the finalizer
      refine h.passed t₀ ht₀ hfinalizer l' hhandler ?_
      exact (hpassed.sublist.filterMap _).subset hl'
  · rw [hphase] at hpart
    generalize t.region.phase = phase at hpart
    cases hpart with
    | left hendTry hregions =>
      rw [hplaces] at hendTry
      rcases mem_append.mp hendTry with hbefore | hafter
      · refine h.exits t₀ ht₀ l ?_
        refine RegionScan.mem_exits RegionScan.numbered_start hbefore hregions ht₀ ?_
        exact hfollows.number_eq.symm.trans hnumber
      · exact h.targets_of_mem hafter l mem_cons_self

/-- So is one that is opened behind the place. -/
theorem onward_of_places {s' : RegionScan}
    (hs' : (.try t.handler t.finalizer, s') ∈ (RegionScan.run {} code).places passed)
    (hopened : s'.opened = t.region.number) : frame.Onward (labelsIn code') := by
  have hplaces := RegionScan.places_append {} code code'
  have hbehind : (.try t.handler t.finalizer, s') ∈ (RegionScan.run {} code).places code' := by
    obtain ⟨later, rfl⟩ := hpassed
    rw [RegionScan.places_append]
    exact mem_append_left _ hs'
  have hstart : frame.handler = t.handler ∧ frame.finalizer = t.finalizer := by
    refine RegionScan.try_unique htry (hplaces ▸ mem_append_right _ hbehind) ?_
    rw [hopened, hnumber]
  have htargets := h.targets_of_mem hbehind
  refine ⟨fun _ l hl => ?_, fun _ l hl => ?_, fun l hphase => ?_⟩
  · exact htargets l (mem_append_left _ (Option.mem_toList.mpr (hstart.1 ▸ hl)))
  · exact htargets l (mem_append_right _ (Option.mem_toList.mpr (hstart.2 ▸ hl)))
  · rw [hphase] at hpart
    generalize t.region.phase = phase at hpart
    cases hpart with
    | left hendTry hregions =>
      rw [hplaces] at hendTry
      rcases mem_append.mp hendTry with hbefore | hafter
      · -- what stands before the place is in no statement with such a number
        have hlt := RegionScan.number_lt RegionScan.numbered_start hbefore
          (hregions ▸ mem_cons_self)
        have hle := RegionScan.opened_le hs'
        dsimp only at hlt hle
        rw [hopened, hnumber] at hle
        exact absurd hle (Nat.not_le.mpr hlt)
      · exact h.targets_of_mem hafter l mem_cons_self

end Open

/-- All statements that a run behind the place has entered are `Onward`. -/
theorem onward (h : OneWay code code') {c : RunState V} (hc : c.Placed (code ++ code'))
    (hrest : c.rest <:+ code') (hop : c.rest = op :: rest) :
    ∀ frame ∈ c.frames, frame.Onward (labelsIn code') := by
  obtain ⟨s, hplace⟩ := exists_placeOf (hop ▸ hc.suffix)
  rw [← hop] at hplace
  obtain ⟨passed, hpassed, hs⟩ := hplace.exists_run hrest
  have hopen : ∀ r ∈ s.regions, ∃ t ∈ ((RegionScan.run {} code).run passed).tries,
      t.region = r := by
    intro r hr
    rw [show s = _ from hs] at hr
    exact mem_map.mp hr
  have haligned := hc.aligned _ hplace
  dsimp only at haligned
  generalize s.regions = regions at hopen haligned
  generalize c.frames = frames at haligned
  induction haligned with
  | nil => exact forall_mem_nil _
  | @cons _ _ s phase htry hpart _ ih =>
    obtain ⟨hfirst, houter⟩ := forall_mem_cons.mp hopen
    obtain ⟨t, ht, hregion⟩ := hfirst
    refine forall_mem_cons.mpr ⟨?_, ih houter⟩
    have hnumber : t.region.number = s.opened := by rw [hregion]
    have hphase : t.region.phase = phase := by rw [hregion]
    rw [← hphase] at hpart
    rcases RegionScan.mem_tries_run ht with ⟨t₀, ht₀, hfollows⟩ | ⟨s', hs', hopened⟩
    · exact h.onward_of_follows hpassed htry hpart hnumber ht₀ hfollows
    · exact h.onward_of_places hpassed htry hpart hnumber hs' hopened

/-- A label behind the place leads further behind it. -/
theorem suffix_afterLabel (hnodup : (labelsIn (code ++ code')).Nodup) (hl : l ∈ labelsIn code')
    (hrest : afterLabel l (code ++ code') = some rest) : rest <:+ code' ∧ rest ≠ code' := by
  obtain ⟨before, after, rfl⟩ := append_of_mem (mem_labelsIn.mp hl)
  have hafter : afterLabel l (code ++ (before ++ Operation.label l :: after)) = some after := by
    refine afterLabel_of_suffix hnodup ⟨code ++ before, ?_⟩
    rw [append_assoc]
  cases hrest.symm.trans hafter
  refine ⟨⟨before ++ [Operation.label l], by rw [append_assoc]; rfl⟩, fun heq => ?_⟩
  have hlength := congrArg List.length heq
  simp only [length_append, length_cons] at hlength
  omega

theorem suffix_unwinds (hnodup : (labelsIn (code ++ code')).Nodup)
    (hunwinds : Unwinds (code ++ code') frames rest frames')
    (honward : ∀ frame ∈ frames, frame.Onward (labelsIn code')) :
    rest <:+ code' ∧ rest ≠ code' := by
  induction hunwinds with
  | here hcatches hrest =>
    exact suffix_afterLabel hnodup ((honward _ mem_cons_self).catches hcatches) hrest
  | outer _ _ ih => exact ih (forall_mem_cons.mp honward).2

/-- Whatever sends control on from behind the place sends it further behind. -/
theorem suffix_sends (h : OneWay code code') (hnodup : (labelsIn (code ++ code')).Nodup)
    {rest' : List Operation} (hsends : Sends (code ++ code') op rest frames rest' frames')
    (hsuffix : op :: rest <:+ code') (honward : ∀ frame ∈ frames, frame.Onward (labelsIn code')) :
    rest' <:+ code' ∧ rest' ≠ code' := by
  have hop : op ∈ code' := hsuffix.subset mem_cons_self
  have hnext : rest <:+ code' ∧ rest ≠ code' := by
    refine ⟨(suffix_cons _ _).trans hsuffix, fun heq => ?_⟩
    have hle := hsuffix.length_le
    rw [heq, length_cons] at hle
    omega
  cases hsends with
  | next _ | stay _ | enter => exact hnext
  | jump hrest | leave _ _ hrest =>
    exact suffix_afterLabel hnodup (h.targets _ hop _ mem_cons_self) hrest
  | finalize hfinal hfinalizer hrest =>
    have hl := (honward _ mem_cons_self).finalizer hfinal _ hfinalizer
    exact suffix_afterLabel hnodup hl hrest
  | resume hphase hrest =>
    exact suffix_afterLabel hnodup ((honward _ mem_cons_self).pending _ hphase) hrest
  | reraise _ hunwinds =>
    exact suffix_unwinds hnodup hunwinds (forall_mem_cons.mp honward).2

/-- A `RunStep` from behind the place leads further behind it. -/
theorem step (h : OneWay code code') (hnodup : (labelsIn (code ++ code')).Nodup) {null : V}
    {c c' : RunState V} {op : Operation} (hc : c.Placed (code ++ code')) (hrest : c.rest <:+ code')
    (hstep : RunStep null (code ++ code') c op c') : c'.rest <:+ code' ∧ c'.rest ≠ code' := by
  obtain ⟨rest, hop⟩ := hstep.rest_eq
  have honward := h.onward hc hrest hop
  cases hstep with
  | go hsends _ => exact h.suffix_sends hnodup hsends hrest honward
  | raise hunwinds => exact suffix_unwinds hnodup hunwinds honward

/-- Until a `Trace` has passed the place, it has gone only through what stands before it. -/
theorem trace (h : OneWay code code') (hcode : Respects (code ++ code'))
    (hnodup : (labelsIn (code ++ code')).Nodup) {null : V} {locals : Nat → V}
    {ops : List Operation} {c : RunState V}
    (hruns : Trace null (code ++ code') ⟨code ++ code', locals, []⟩ ops c) :
    (c.rest <:+ code' ∧ c.rest ≠ code') ∨ ops ⊆ code := by
  induction hruns with
  | refl => exact .inr (nil_subset _)
  | @step ops op c c' hruns hstep ih =>
    have hplaced := hruns.placed hcode hnodup
    by_cases hbehind : c.rest <:+ code'
    · exact .inl (h.step hnodup hplaced hbehind hstep)
    · -- the operation stands before the place
      obtain ⟨rest, hop⟩ := hstep.rest_eq
      have hops : ops ⊆ code := ih.resolve_left fun hpassed => hbehind hpassed.1
      refine .inr (append_subset.mpr ⟨hops, cons_subset.mpr ⟨?_, nil_subset _⟩⟩)
      obtain ⟨before, hbefore⟩ := hplaced.suffix
      rcases append_eq_append_iff.mp hbefore with ⟨between, hcode', hrest⟩ | ⟨_, -, hrest⟩
      · cases between with
        | nil => exact absurd (hrest ▸ suffix_refl _) hbehind
        | cons first between =>
          rw [hop, cons_append] at hrest
          cases (List.cons.inj hrest).1
          rw [hcode']
          exact mem_append_right _ mem_cons_self
      · exact absurd ⟨_, hrest.symm⟩ hbehind

end OneWay

end Behind

end ContractScript
