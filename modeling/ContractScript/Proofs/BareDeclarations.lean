import ContractScript.Proofs.DeclarationPlaces
import ContractScript.Proofs.OneWay

/-!
# Declarations without a value

A local variable that is declared without a value is to start with the null that its slot was opened
with. Slots belong to the whole function, so this is so unless control comes back to the declaration
after something was stored to the slot. Outside of loops it never comes back, whatever is thrown and
caught. Inside of a loop it does.
-/

namespace ContractScript

open List

variable {t : OpenTry} {l : Label} {code₁ body : List Operation} {k : Construct}
  {ctx ctx' c : Context} {ps qs : List Piece} {id : Ident} {p : Program} {r : Routine}
  {decl : FunctionDecl} {depth : Nat}

/-! ## No way back -/

theorem labelsIn_subset_left (code code' : List Operation) :
    labelsIn code ⊆ labelsIn (code ++ code') := by
  rw [labelsIn_append]
  exact subset_append_left _ _

theorem labelsIn_subset_right (code code' : List Operation) :
    labelsIn code' ⊆ labelsIn (code ++ code') := by
  rw [labelsIn_append]
  exact subset_append_right _ _

theorem mem_labelsIn_last (code : List Operation) (l : Label) :
    l ∈ labelsIn (code ++ [Operation.label l]) :=
  labelsIn_subset_right _ _ mem_cons_self

/-- Code leads to the labels of other code and to the end of the function. -/
def TargetsIn (code code' : List Operation) : Prop :=
  ∀ op ∈ code, ∀ l ∈ op.targets, l ∈ labelsIn code' ∨ l = Draft.returnTarget

namespace TargetsIn

variable {code code' code'' : List Operation}

/-- `TargetsIn` of two parts. -/
theorem append (h : TargetsIn code code'') (h' : TargetsIn code' code'') :
    TargetsIn (code ++ code') code'' :=
  forall_mem_append.mpr ⟨h, h'⟩

/-- `TargetsIn` with more labels to lead to. -/
theorem mono (h : TargetsIn code code') (hsub : labelsIn code' ⊆ labelsIn code'') :
    TargetsIn code code'' := fun op hop l hl => (h op hop l hl).imp_left fun hin => hsub hin

theorem left (h : TargetsIn code code') : TargetsIn code (code' ++ code'') :=
  h.mono (labelsIn_subset_left _ _)

theorem right (h : TargetsIn code code'') : TargetsIn code (code' ++ code'') :=
  h.mono (labelsIn_subset_right _ _)

/-- `TargetsIn` of one operation. -/
theorem single {op : Operation} (h : ∀ l ∈ op.targets, l ∈ labelsIn code) : TargetsIn [op] code :=
  forall_mem_singleton.mpr fun l hl => .inl (h l hl)

theorem none (op : Operation) (h : op.targets = []) : TargetsIn [op] code := by
  refine .single ?_
  rw [h]
  exact forall_mem_nil _

end TargetsIn

/-- `Regular` code outside of loops leads to its own labels. -/
theorem Regular.targetsIn {n : Nesting} {lo : Label} {code : List Operation}
    (h : Regular n lo [] code) (hloops : n.loops = []) (hlo : Draft.returnTarget < lo) :
    TargetsIn code code := by
  -- any scan will do that is inside of the same parts
  let s : RegionScan := ⟨0, n.tries.map fun phase => ⟨⟨0, phase⟩, none, none, []⟩⟩
  have hs : Within n lo s := by
    refine ⟨?_, fun t ht l hl => ?_, ?_, hlo⟩
    · simp [s, RegionScan.regions, Function.comp_def]
    · obtain ⟨phase, -, rfl⟩ := mem_map.mp ht
      rcases hl with hl | hl | hl <;> cases hl
    · rw [hloops]
      exact forall_mem_nil _
  let T := s.places code ++ [(.label Draft.returnTarget, ⟨0, []⟩)]
  have hleads : Leads T n s := by
    refine ⟨?_, ⟨0, []⟩, mem_append_right _ mem_cons_self, rfl⟩
    rw [hloops]
    exact forall_mem_nil _
  have hsettled := h.settled hs hleads (forall_mem_nil _) (subset_append_left _ _)
  intro op hop l hl
  obtain ⟨s', hplace⟩ := s.exists_place hop
  obtain ⟨regions, s'', hs'', hregions⟩ := (hsettled _ hplace).exists_labelAt l hl
  rcases mem_append.mp hs'' with hin | hend
  · exact .inl (LabelAt.mem_labelsIn ⟨s'', hin, hregions⟩)
  · cases mem_singleton.mp hend
    exact .inr rfl

/-- What is left of an `OpenTry` between two parts of code leads to the second one. -/
structure OpenTry.Ahead (code code' : List Operation) (t : OpenTry) : Prop where
  handler : t.region.phase = .body → ∀ l ∈ t.handler, l ∈ labelsIn code'
  passed : t.region.phase = .finalizer → ∀ l ∈ t.handler, l ∈ labelsIn code
  finalizer : t.region.phase ≠ .finalizer → ∀ l ∈ t.finalizer, l ∈ labelsIn code'
  exits : ∀ l ∈ t.exits, l ∈ labelsIn code' ∨ l = Draft.returnTarget

/-- `OpenTry.Ahead` with more code on both sides. -/
theorem OpenTry.Ahead.mono {code code' pre post : List Operation} (h : t.Ahead code code')
    (hsub : labelsIn code ⊆ labelsIn pre) (hsub' : labelsIn code' ⊆ labelsIn post) :
    t.Ahead pre post where
  handler hphase l hl := hsub' (h.handler hphase l hl)
  passed hphase l hl := hsub (h.passed hphase l hl)
  finalizer hphase l hl := hsub' (h.finalizer hphase l hl)
  exits l hl := (h.exits l hl).imp_left fun hin => hsub' hin

/-- A construct is divided at a place from which control does not come back to what stands before
it, and the try statements that were opened in between lead on. -/
structure Divides (n : Nesting) (s : RegionScan) (code code' : List Operation) : Prop where
  targets : TargetsIn code' code'
  tries : ∃ inner outer, (s.run code).tries = inner ++ outer ∧ Grown n.Outward s.tries outer ∧
    ∀ t ∈ inner, t.Ahead code code'

namespace Divides

variable {n : Nesting} {s : RegionScan} {pre code code' post : List Operation}

theorem nil : Divides n s [] [] :=
  ⟨forall_mem_nil _, [], s.tries, rfl, .refl _, forall_mem_nil _⟩

/-- `Divides` with code in front, that opens no try statement around the place. -/
theorem after (hpre : Grown n.Outward s.tries (s.run pre).tries)
    (h : Divides n (s.run pre) code code') : Divides n s (pre ++ code) code' := by
  obtain ⟨inner, outer, htries, hgrown, hahead⟩ := h.tries
  refine ⟨h.targets, inner, outer, ?_, hpre.trans hgrown, fun t ht => ?_⟩
  · rw [RegionScan.run_append, htries]
  · exact (hahead t ht).mono (labelsIn_subset_right _ _) (List.Subset.refl _)

/-- `Divides` with code behind. -/
theorem before (h : Divides n s code code') (hpost : TargetsIn post (code' ++ post)) :
    Divides n s code (code' ++ post) := by
  obtain ⟨inner, outer, htries, hgrown, hahead⟩ := h.tries
  refine ⟨h.targets.left.append hpost, inner, outer, htries, hgrown, fun t ht => ?_⟩
  exact (hahead t ht).mono (List.Subset.refl _) (labelsIn_subset_left _ _)

/-- `Divides` with code around the place, that opens a try statement and closes it behind it. -/
theorem part {phase : TryPhase} (hloops : n.loops = []) (hpre : (s.run pre).tries = t :: s.tries)
    (ht : t.Ahead pre post) (h : Divides (n.within phase) (s.run pre) code code')
    (hpost : TargetsIn post (code' ++ post)) : Divides n s (pre ++ code) (code' ++ post) := by
  obtain ⟨inner, outer, htries, hgrown, hahead⟩ := h.tries
  rw [hpre] at hgrown
  cases hgrown with
  | @cons _ exits _ _ hnew =>
    -- outside of loops the code adds only the end of the function
    have hinner : ({ t with exits := exits } : OpenTry).Ahead pre post := by
      refine ⟨ht.handler, ht.passed, ht.finalizer, fun l hl => ?_⟩
      rcases hnew l hl with hold | hfinal | ⟨loop, hloop, -⟩
      · exact ht.exits l hold
      · exact .inr hfinal
      · rw [show (n.within phase).loops = [] from hloops] at hloop
        cases hloop
    refine ⟨h.targets.left.append hpost, inner ++ [{ t with exits := exits }], s.tries, ?_,
      .refl _, forall_mem_append.mpr ⟨fun t' ht' => ?_, forall_mem_singleton.mpr ?_⟩⟩
    · rw [RegionScan.run_append, htries, append_assoc]
      rfl
    · exact (hahead t' ht').mono (labelsIn_subset_right _ _) (labelsIn_subset_left _ _)
    · exact hinner.mono (labelsIn_subset_left _ _) (labelsIn_subset_right _ _)

end Divides

/-! ### Parts of try statements -/

/-- The scan is in a part of a statement that is left for its end or for that of the function. -/
def InTry (s : RegionScan) (lo : Label) (handler finalizer : Option Label) (endLabel : Label)
    (phase : TryPhase) (s' : RegionScan) : Prop :=
  ∃ exits, Inner s lo handler finalizer endLabel phase exits s' ∧
    ∀ l ∈ exits, l = endLabel ∨ l = Draft.returnTarget

namespace InTry

variable {n : Nesting} {s s' : RegionScan} {lo endLabel : Label} {handler finalizer : Option Label}
  {phase : TryPhase} {code : List Operation}

/-- `Operation.try` starts `InTry` in the body. -/
theorem start : InTry s lo handler finalizer endLabel .body (s.step (.try handler finalizer)) :=
  ⟨[], ⟨rfl, forall_mem_nil _⟩, forall_mem_nil _⟩

/-- `Regular` code stays in its part. -/
theorem run (h : InTry s lo handler finalizer endLabel phase s') (hs : Within n lo s)
    (hlabels : PartLabels lo handler finalizer endLabel) (hloops : n.loops = [])
    (hcode : Regular (n.within phase) (endLabel + 1) [] code) :
    InTry s lo handler finalizer endLabel phase (s'.run code) := by
  obtain ⟨exits, hinner, hexits⟩ := h
  obtain ⟨exits', -, hnew, hinner'⟩ := hinner.run hs hlabels hcode
  refine ⟨exits', hinner', fun l hl => ?_⟩
  rcases hnew l hl with hold | hfinal | ⟨loop, hloop, -⟩
  · exact hexits l hold
  · exact .inr hfinal
  · rw [show (n.within phase).loops = [] from hloops] at hloop
    cases hloop

theorem endTry (h : InTry s lo handler finalizer endLabel phase s') :
    InTry s lo handler finalizer endLabel phase (s'.step (.endTry endLabel)) := by
  obtain ⟨exits, hinner, hexits⟩ := h
  exact ⟨_, hinner.endTry, forall_mem_cons.mpr ⟨.inl rfl, hexits⟩⟩

/-- The label of the handler comes after the body. -/
theorem enterHandler (h : InTry s lo (some l) finalizer endLabel phase s') :
    InTry s lo (some l) finalizer endLabel .handler (s'.step (.label l)) := by
  obtain ⟨exits, hinner, hexits⟩ := h
  exact ⟨exits, hinner.enterHandler, hexits⟩

/-- The label of the finalizer comes last. -/
theorem enterFinalizer (h : InTry s lo handler (some l) endLabel phase s')
    (hlabels : PartLabels lo handler (some l) endLabel) :
    InTry s lo handler (some l) endLabel .finalizer (s'.step (.label l)) := by
  obtain ⟨exits, hinner, hexits⟩ := h
  exact ⟨exits, hinner.enterFinalizer fun heq => (hlabels.handler l heq).2.2 rfl, hexits⟩

/-- `InTry` after a whole handler. -/
theorem handle (h : InTry s lo handler finalizer endLabel phase s') (hs : Within n lo s)
    (hlabels : PartLabels lo handler finalizer endLabel) (hloops : n.loops = [])
    (hcode : Part n (endLabel + 1) .handler (.endTry endLabel) handler code) :
    ∃ phase', InTry s lo handler finalizer endLabel phase' (s'.run code) := by
  cases hcode with
  | none => exact ⟨phase, h⟩
  | some hcode =>
    rw [RegionScan.run_cons, RegionScan.run_append]
    exact ⟨.handler, (h.enterHandler.run hs hlabels hloops hcode).endTry⟩

theorem within (h : InTry s lo handler finalizer endLabel phase s') (hs : Within n lo s)
    (hlabels : PartLabels lo handler finalizer endLabel) :
    Within (n.within phase) (endLabel + 1) s' := by
  obtain ⟨exits, hinner, -⟩ := h
  exact hinner.within hs hlabels

end InTry

namespace Part

variable {n : Nesting} {lo : Label} {phase : TryPhase} {closing : Operation} {part : Option Label}
  {code : List Operation}

/-- A `Part` starts with its own label. -/
theorem mem_labelsIn (h : Part n lo phase closing part code) : ∀ l ∈ part, l ∈ labelsIn code := by
  cases h with
  | none => exact nofun
  | some hcode =>
    rintro l ⟨⟩
    exact mem_cons_self

/-- A `Part` leads to its own labels, and to where its last operation does. -/
theorem targetsIn (h : Part n lo phase closing part code) (hloops : n.loops = [])
    (hlo : Draft.returnTarget < lo) {code' : List Operation}
    (hclosing : TargetsIn [closing] (code ++ code')) : TargetsIn code (code ++ code') := by
  cases h with
  | none => exact forall_mem_nil _
  | @some l code hcode =>
    have hbody : TargetsIn code ([Operation.label l] ++ (code ++ [closing])) :=
      (hcode.targetsIn hloops hlo).left.right
    exact forall_mem_cons.mpr ⟨nofun, hbody.left.append hclosing⟩

/-- `TargetsIn` of a handler, a finalizer and the end of their statement. -/
theorem targetsIn_tail {endLabel : Label} {handler finalizer : Option Label}
    {code code' : List Operation} (h : Part n lo .handler (.endTry endLabel) handler code)
    (h' : Part n lo .finalizer (.simple .endFinally) finalizer code') (hloops : n.loops = [])
    (hlo : Draft.returnTarget < lo) :
    TargetsIn ([Operation.endTry endLabel] ++ (code ++ (code' ++ [Operation.label endLabel])))
      ([Operation.endTry endLabel] ++ (code ++ (code' ++ [Operation.label endLabel]))) := by
  have hend : ∀ code, TargetsIn [.endTry endLabel] (code ++ [Operation.label endLabel]) :=
    fun code => .single (forall_mem_singleton.mpr (mem_labelsIn_last code endLabel))
  have hcode' := h'.targetsIn hloops hlo (.none (.simple .endFinally) rfl : TargetsIn _
    (code' ++ [Operation.label endLabel]))
  have hcode := h.targetsIn hloops hlo ((hend code').right)
  exact (hend code').right.right.append (hcode.append (hcode'.append (.none _ rfl)).right).right

end Part

namespace Divides

variable {n : Nesting} {s : RegionScan} {lo endLabel : Label} {handler finalizer : Option Label}
  {code code' : List Operation}

/-- `Divides` around a place in a part of a try statement: in front of it from the start of the
statement on, and behind it up to the end. -/
theorem inTry {phase : TryPhase} {pre post : List Operation}
    (hin : InTry s lo handler finalizer endLabel phase (s.run pre)) (hloops : n.loops = [])
    (hhandler : phase = .body → ∀ l ∈ handler, l ∈ labelsIn post)
    (hpassed : phase = .finalizer → ∀ l ∈ handler, l ∈ labelsIn pre)
    (hfinalizer : phase ≠ .finalizer → ∀ l ∈ finalizer, l ∈ labelsIn post)
    (hend : endLabel ∈ labelsIn post) (h : Divides (n.within phase) (s.run pre) code code')
    (hpost : TargetsIn post (code' ++ post)) : Divides n s (pre ++ code) (code' ++ post) := by
  obtain ⟨exits, hinner, hexits⟩ := hin
  refine h.part hloops hinner.tries_eq ⟨hhandler, hpassed, hfinalizer, fun l hl => ?_⟩ hpost
  rcases hexits l hl with rfl | rfl
  · exact .inl hend
  · exact .inr rfl

/-- `Divides` in a body: the handler and the finalizer are still to come. -/
theorem inBody {code₂ : List Operation} (hs : Within n lo s)
    (hlabels : PartLabels lo handler finalizer endLabel) (hloops : n.loops = [])
    (h : ∀ {s'}, Within (n.within .body) (endLabel + 1) s' → Divides (n.within .body) s' code code')
    (hhandler : Part n (endLabel + 1) .handler (.endTry endLabel) handler code₁)
    (hfinalizer : Part n (endLabel + 1) .finalizer (.simple .endFinally) finalizer code₂) :
    Divides n s ([Operation.try handler finalizer] ++ code)
      (code' ++ ([Operation.endTry endLabel] ++
        (code₁ ++ (code₂ ++ [Operation.label endLabel])))) := by
  have hin : InTry s lo handler finalizer endLabel .body (s.run [.try handler finalizer]) := .start
  have hpost := hhandler.targetsIn_tail hfinalizer hloops (Nat.succ_pos _)
  refine .inTry hin hloops ?_ nofun ?_ ?_ (h (hin.within hs hlabels)) hpost.right
  · intro _ l hl
    exact labelsIn_subset_left code₁ _ (hhandler.mem_labelsIn l hl)
  · intro _ l hl
    exact labelsIn_subset_right code₁ _
      (labelsIn_subset_left code₂ _ (hfinalizer.mem_labelsIn l hl))
  · exact labelsIn_subset_right code₁ _ (mem_labelsIn_last code₂ _)

/-- `Divides` in a handler: the body is over, and the finalizer is still to come. -/
theorem inHandler {binds : List Operation} (hs : Within n lo s)
    (hlabels : PartLabels lo (some l) finalizer endLabel) (hloops : n.loops = [])
    (hbody : Regular (n.within .body) (endLabel + 1) [] body)
    (hbinds : Regular (n.within .handler) (endLabel + 1) [] binds)
    (h : ∀ {s'}, Within (n.within .handler) (endLabel + 1) s' →
      Divides (n.within .handler) s' code code')
    (hfinalizer : Part n (endLabel + 1) .finalizer (.simple .endFinally) finalizer code₁) :
    Divides n s ([Operation.try (some l) finalizer] ++ body ++ [Operation.endTry endLabel] ++
      [Operation.label l] ++ binds ++ code)
      (code' ++ ([Operation.endTry endLabel] ++ (code₁ ++ [Operation.label endLabel]))) := by
  have hin : InTry s lo (some l) finalizer endLabel .handler
      (s.run ([Operation.try (some l) finalizer] ++ body ++ [Operation.endTry endLabel] ++
        [Operation.label l] ++ binds)) := by
    simp only [RegionScan.run_append]
    exact (InTry.start.run hs hlabels hloops hbody).endTry.enterHandler.run hs hlabels hloops hbinds
  have hnone : Part n (endLabel + 1) .handler (.endTry endLabel) none [] := .none
  have hpost := hnone.targetsIn_tail hfinalizer hloops (Nat.succ_pos _)
  refine .inTry hin hloops nofun nofun ?_ ?_ (h (hin.within hs hlabels)) hpost.right
  · intro _ l hl
    exact labelsIn_subset_left code₁ _ (hfinalizer.mem_labelsIn l hl)
  · exact mem_labelsIn_last code₁ _

/-- `Divides` in a finalizer: the body and the handler are over. -/
theorem inFinalizer (hs : Within n lo s) (hlabels : PartLabels lo handler (some l) endLabel)
    (hloops : n.loops = []) (hbody : Regular (n.within .body) (endLabel + 1) [] body)
    (hhandler : Part n (endLabel + 1) .handler (.endTry endLabel) handler code₁)
    (h : ∀ {s'}, Within (n.within .finalizer) (endLabel + 1) s' →
      Divides (n.within .finalizer) s' code code') :
    Divides n s ([Operation.try handler (some l)] ++ body ++ [Operation.endTry endLabel] ++ code₁ ++
      [Operation.label l] ++ code) (code' ++ [Operation.simple .endFinally, .label endLabel]) := by
  have hin : InTry s lo handler (some l) endLabel .finalizer
      (s.run ([Operation.try handler (some l)] ++ body ++ [Operation.endTry endLabel] ++ code₁ ++
        [Operation.label l])) := by
    simp only [RegionScan.run_append]
    obtain ⟨phase, hin⟩ := (InTry.start.run hs hlabels hloops hbody).endTry.handle hs hlabels hloops
      hhandler
    exact hin.enterFinalizer hlabels
  have hpost : TargetsIn [Operation.simple .endFinally, .label endLabel]
      (code' ++ [Operation.simple .endFinally, .label endLabel]) :=
    (TargetsIn.none (.simple .endFinally) rfl).append (.none (.label endLabel) rfl)
  refine .inTry hin hloops nofun ?_ nofun (mem_labelsIn_last [_] _)
    (h (hin.within hs hlabels)) hpost
  intro _ l' hl'
  exact labelsIn_subset_left _ _ (labelsIn_subset_right _ _ (hhandler.mem_labelsIn l' hl'))

end Divides

/-! ### Constructs -/

theorem Construct.Code.label_le {n : Nesting} (h : k.Code n ctx ps ctx') :
    ctx.label ≤ ctx'.label := by
  cases k with
  | stmt | stmts | block => exact h.fresh.le

/-- The code of a condition, and the jump over what depends on it. -/
theorem ExprCode.regular_test {e : Expr} (h : ExprCode e (ctx.withLabel (ctx.label + 1)) ps ctx')
    (hps : ∀ piece ∈ ps, piece.IsInert) (n : Nesting) (targets : List Label) :
    Regular n ctx.label (ctx.label :: targets) (codeOf ps ++ [Operation.jump .ifFalse ctx.label]) :=
  ((h.regular hps n _).mono (Nat.le_succ _) (List.Subset.refl _)).append (.jump mem_cons_self)

/-- Outside of loops control does not come back to what stands before a declaration: the code
`Divides` there. -/
theorem DeclaresAt.divides {m n : Nesting} (h : DeclaresAt id m c n k ctx ps qs ctx')
    (hm : m.loops = []) (hps : ∀ piece ∈ ps, piece.IsInert) (hqs : ∀ piece ∈ qs, piece.IsInert)
    {s : RegionScan} (hs : Within n ctx.label s) : Divides n s (codeOf ps) (codeOf qs) := by
  have hloops : n.loops = [] := suffix_nil.mp (hm ▸ h.loops_suffix)
  -- the code in front only adds ways out to the open try statements, and the code behind leads on
  induction h generalizing s with
  | declare _ => exact .nil
  | block _ ih => exact ih hps hqs hs hloops
  | @braces n _ _ ctx _ _ _ _ ih =>
    simp only [forall_mem_append] at hps hqs
    have hgrown := (Regular.op rfl : Regular n ctx.label [] [.anchor]).grown hs
    rw [codeOf_append, codeOf_append]
    exact ((ih hps.2 hqs.1 (hs.grown hgrown) hloops).before (.none _ rfl)).after hgrown
  | first hdeclares hrest ih =>
    simp only [forall_mem_append] at hqs
    rw [codeOf_append]
    have hlo := Nat.lt_of_lt_of_le hs.pos hdeclares.code.label_le
    exact (ih hps hqs.1 hs hloops).before ((hrest.regular hqs.2 []).targetsIn hloops hlo).right
  | later hfirst _ ih =>
    simp only [forall_mem_append] at hps
    rw [codeOf_append]
    have hgrown := (hfirst.regular hps.1 []).grown hs
    exact (ih hps.2 hqs ((hs.grown hgrown).mono hfirst.fresh.le) hloops).after hgrown
  | @ifThen n _ _ _ ctx _ _ _ _ _ hcondition _ ih =>
    simp only [forall_mem_append] at hps hqs
    rw [codeOf_append, codeOf_append, codeOf_append]
    have hgrown := (hcondition.regular_test hps.1.1 n []).grown hs
    have hle := Nat.le_of_succ_le hcondition.fresh.le
    exact ((ih hps.2 hqs.1 ((hs.grown hgrown).mono hle) hloops).before (.none _ rfl)).after hgrown
  | @thenOf n _ _ _ _ ctx ctx₁ ctx₂ _ _ _ rs us hcondition hdeclares helse ih =>
    simp only [forall_mem_append] at hps hqs
    have hgrown := (hcondition.regular_test hps.1.1 n []).grown hs
    have hle := Nat.le_of_succ_le hcondition.fresh.le
    have hlo := Nat.lt_of_lt_of_le hs.pos (Nat.le_trans hle hdeclares.code.label_le)
    have helse' := (helse.regular hqs.1.2 []).targetsIn hloops (Nat.lt_succ_of_lt hlo)
    -- the jump over the other branch leads to the very end
    let post := [Operation.jump .always ctx₂.label, .label ctx.label] ++ codeOf us ++
      [Operation.label ctx₂.label]
    have hjump : TargetsIn [.jump .always ctx₂.label] post :=
      .single (forall_mem_singleton.mpr (mem_labelsIn_last _ _))
    have hpost : TargetsIn post post :=
      ((hjump.append (.none (.label _) rfl)).append helse'.right.left).append (.none (.label _) rfl)
    have hdivides := ((ih hps.2 hqs.1.1.1 ((hs.grown hgrown).mono hle) hloops).before
      hpost.right).after hgrown
    simpa [post] using hdivides
  | @elseOf n _ _ _ _ ctx ctx₁ ctx₂ _ ps qs _ _ hcondition hthen _ ih =>
    simp only [forall_mem_append] at hps hqs
    have hle := Nat.le_of_succ_le hcondition.fresh.le
    have hle' := Nat.le_trans hle hthen.fresh.le
    have hpre : Regular n ctx.label [ctx.label, ctx₂.label] (codeOf ps ++
        [Operation.jump .ifFalse ctx.label] ++ codeOf qs ++ [Operation.jump .always ctx₂.label] ++
        [Operation.label ctx.label]) :=
      (((hcondition.regular_test hps.1.1.1.1 n _).append
        ((hthen.regular hps.1.1.2 _).mono hle (List.Subset.refl _))).append
        (.jump (mem_cons_of_mem _ mem_cons_self))).append (.label (Nat.le_refl _))
    have hgrown := hpre.grown hs
    have hdivides := ((ih hps.2 hqs.1 ((hs.grown hgrown).mono (Nat.le_succ_of_le hle'))
      hloops).before (.none (.label ctx₂.label) rfl)).after hgrown
    simpa using hdivides
  | «while» _ hdeclares _ =>
    -- the declaration would be in a loop
    have hnone := suffix_nil.mp (hm ▸ hdeclares.loops_suffix)
    cases hnone
  | bodyOf hl hl' hdeclares hhandler hfinalizer ih =>
    simp only [forall_mem_append] at hps hqs
    have hle := hdeclares.code.label_le
    obtain ⟨_, hfresh, -⟩ := hhandler.fresh
    have hdivides := Divides.inBody hs (partLabels hl hl') hloops
      (fun hs' => ih hps.2 hqs.1.1.1.1 hs' hloops) (hhandler.part hqs.1.1.2 hle)
      (hfinalizer.part hqs.1.2 (Nat.le_trans hle hfresh.le))
    simpa using hdivides
  | handlerOf hl hl' hbody hbinds hdeclares hfinalizer ih =>
    simp only [forall_mem_append] at hps hqs
    have hle := Nat.le_trans hbody.fresh.le (Nat.le_of_eq hbinds.label_eq.1.symm)
    have hdivides := Divides.inHandler hs (partLabels hl hl') hloops (hbody.regular hps.1.1.2 [])
      (.ops hbinds.isInert) (fun hs' => ih hps.2.2 hqs.1.1.1 (hs'.mono hle) hloops)
      (hfinalizer.part hqs.1.2 (Nat.le_trans hle hdeclares.code.label_le))
    simpa using hdivides
  | finalizerOf hl hl' hbody hhandler hdeclares ih =>
    simp only [forall_mem_append] at hps hqs
    obtain ⟨_, hfresh, -⟩ := hhandler.fresh
    have hdivides := Divides.inFinalizer hs (partLabels hl hl') hloops
      (hbody.regular hps.1.1.1.2 []) (hhandler.part hps.1.2 hbody.fresh.le)
      (fun hs' => ih hps.2.2 hqs.1.1 (hs'.mono (Nat.le_trans hbody.fresh.le hfresh.le)) hloops)
    simpa using hdivides

/-! ## Functions -/

/-- `OneWay` from where the body of a function `Divides`. -/
theorem Divides.oneWay {code code' : List Operation} (h : Divides {} {} code code')
    (hnodup : (labelsIn (code ++ (code' ++ [Operation.label Draft.returnTarget, .return]))).Nodup) :
    OneWay code (code' ++ [Operation.label Draft.returnTarget, .return]) := by
  obtain ⟨inner, outer, htries, hgrown, hahead⟩ := h.tries
  have hall : ∀ t ∈ (RegionScan.run {} code).tries, t.Ahead code code' := by
    -- outside of the body no try statement is open
    cases hgrown
    rw [htries, append_nil]
    exact hahead
  have hmem : ∀ l, l ∈ labelsIn code' ∨ l = Draft.returnTarget →
      l ∈ labelsIn (code' ++ [Operation.label Draft.returnTarget, .return]) := by
    rintro l (hin | rfl)
    · exact labelsIn_subset_left _ _ hin
    · exact labelsIn_subset_right _ _ mem_cons_self
  constructor
  · exact forall_mem_append.mpr ⟨fun op hop l hl => hmem l (h.targets op hop l hl),
      forall_mem_cons.mpr ⟨nofun, forall_mem_singleton.mpr nofun⟩⟩
  · exact fun t ht hphase l hl => hmem l (.inl ((hall t ht).handler hphase l hl))
  · intro t ht hphase l hl hin
    rw [labelsIn_append] at hnodup
    exact (nodup_append.mp hnodup).2.2 l ((hall t ht).passed hphase l hl) l hin rfl
  · exact fun t ht hphase l hl => hmem l (.inl ((hall t ht).finalizer hphase l hl))
  · exact fun t ht l hl => hmem l ((hall t ht).exits l hl)

/-- In the `Operation`s of a function of a program, a local variable is declared without a value
inside of so many loops: its slot, and the operations that come after the declaration. -/
inductive Routine.Declares (p : Program) (r : Routine) (decl : FunctionDecl) (id : Ident) :
    Nat → Nat → List Operation → Prop where
  | intro {scope : Scope} {tokens : TokenTable} {body : Block} {ctx ctx' c : Context} {m : Nesting}
    {ps qs : List Piece} : SameGlobals p.declared.scope scope → decl.body = some body →
    ParamsIn decl.params (Context.enter ⟨scope, #[], #[], 1, tokens⟩ decl.id.name) ctx →
    DeclaresAt id m c {} (.block body) ctx ps qs ctx' →
    r.ops.map Op.operation = finishedCode (ps ++ qs) ctx'.leave →
    Declares p r decl id m.loops.length c.locals.size
      (elide (codeOf qs ++ [Operation.label Draft.returnTarget, .return]))

/-- Every declaration without a value has its place, by `Routine.Declares`. -/
theorem exists_declares (hr : r ∈ p.lowered.routines) (hdecl : p.functions[r.id]? = some decl)
    {body : Block} (hbody : decl.body = some body) (h : (Construct.block body).Declares id depth) :
    ∃ i rest, r.Declares p decl id depth i rest := by
  obtain ⟨scope, tokens, s', hscope, hlower⟩ := exists_lowerFunction hr hdecl
  obtain ⟨ps, hcode, -, hops⟩ := lowerFunction_code hlower
  generalize s'.context = ctx at hcode hops
  cases hcode with
  | none hnone _ => cases hbody.symm.trans hnone
  | some hsome hparams hblock =>
    cases hbody.symm.trans hsome
    obtain ⟨m, c, qs, rs, hat, rfl, hdepth⟩ := h.declaresAt hblock
    have hplace : r.Declares p decl id m.loops.length _ _ :=
      .intro hscope hbody hparams hat hops
    rw [hdepth.trans (Nat.zero_add depth)] at hplace
    exact ⟨_, _, hplace⟩

/-- What comes before the declaration of a variable stores nothing to its slot, unless the host
provides such an operation. -/
theorem DeclaresAt.not_stored {m n : Nesting} (h : DeclaresAt id m c n k ctx ps qs ctx')
    (hctx : ctx.Bounded) (hps : ∀ piece ∈ ps, piece.Accounted p.declared.scope) :
    ∀ op ∈ codeOf ps, op.storedLocal? = some c.locals.size → ∃ opcode, op = .simple opcode := by
  intro op hop hstored
  cases op with
  | simple opcode => exact ⟨opcode, rfl⟩
  | store kind index =>
    cases kind with
    | «local» =>
      cases hstored
      -- a store of its own would be to an older slot
      have hslot : .store .local c.locals.size ∈ slotCode ps := by
        rw [← filter_codeOf hps]
        exact mem_filter.mpr ⟨hop, rfl⟩
      exact absurd ((h.storesBefore hctx).stores _ hslot) (Nat.lt_irrefl _)
    | argument | static => cases hstored
  | _ => cases hstored

/-- `Routine.Declares` divides the operations of the function, that start with
`Operation.initSlots`. -/
theorem Routine.Declares.divides {i : Nat} {rest : List Operation}
    (h : r.Declares p decl id depth i rest) : ∃ count params before,
      r.ops.map Op.operation = (Operation.initSlots count params :: before) ++ rest ∧
      Respects (r.ops.map Op.operation) ∧ (labelsIn (r.ops.map Op.operation)).Nodup ∧
      (∀ op ∈ before, op.storedLocal? = some i → ∃ opcode, op = .simple opcode) ∧
      (depth = 0 → OneWay (Operation.initSlots count params :: before) rest) := by
  cases h with
  | @intro scope tokens body ctx ctx' c m ps qs hscope hbody hparams hat hops =>
    have hfunction : FunctionCode decl ⟨scope, #[], #[], 1, tokens⟩ (ps ++ qs) ctx'.leave :=
      .some hbody hparams hat.code
    have haccounted := hfunction.accounted (inner_declare _ p) (over_of_sameGlobals hscope)
    have hinert := fun piece hpiece => isInert_of_accounted (haccounted piece hpiece)
    obtain ⟨hrespects, hnodup⟩ := hfunction.respects hinert
    rw [forall_mem_append] at haccounted hinert
    have hctx := hparams.bounded (bounded_start hscope tokens decl.id.name)
    obtain ⟨before, helide, hsub, -, hrun⟩ :=
      elide_append (codeOf ps) (codeOf qs ++ [Operation.label Draft.returnTarget, .return])
    have hcode : finishedCode (ps ++ qs) ctx'.leave =
        (Operation.initSlots ctx'.locals.size ctx'.params.size :: before) ++
          elide (codeOf qs ++ [Operation.label Draft.returnTarget, .return]) := by
      have hlocals : ctx'.leave.locals.isEmpty = false := by
        have hlt : c.locals.size < ctx'.locals.size := (hat.storesBefore hctx).size_lt
        exact decide_eq_false (Nat.ne_of_gt (Nat.zero_lt_of_lt hlt))
      rw [finishedCode, hlocals, Bool.and_false, codeOf_append, append_assoc, helide]
      rfl
    rw [hops]
    rw [hcode] at hrespects hnodup ⊢
    refine ⟨_, _, before, rfl, hrespects, hnodup, ?_, fun hdepth => ?_⟩
    · exact fun op hop => hat.not_stored hctx haccounted.1 op (hsub hop)
    · have hlo : Draft.returnTarget < ctx.label := by
        rw [hparams.label_eq]
        exact Nat.zero_lt_one
      have hdivides := hat.divides (length_eq_zero_iff.mp hdepth) hinert.1 hinert.2
        (s := {}) ⟨rfl, forall_mem_nil _, forall_mem_nil _, hlo⟩
      have hlabels := nodup_labelsIn_program (hfunction.fresh.congr (labelsIn_codeOf
        (forall_mem_append.mpr hinert)))
      rw [codeOf_append, append_assoc] at hlabels
      exact (hdivides.oneWay hlabels).congr (hrun {}) (elide_sublist _).subset (labelsIn_elide _)

/-- In a function of a program every local variable that is declared without a value has a slot, and
a place in the operations (`Routine.Declares`). Whenever a `Trace` comes to the place, whatever the
slots held before the function, whichever branches are taken, and whatever is stored, thrown and
caught on the way: the slot holds null if nothing was stored to it before; and outside of loops it
holds null unless an operation of the host stores to it. -/
theorem declared_null_outside_loops (p : Program) (r : Routine) (decl : FunctionDecl)
    (hr : r ∈ p.lowered.routines) (hdecl : p.functions[r.id]? = some decl) :
    let code := r.ops.map Op.operation
    (∀ body id depth, decl.body = some body → (Construct.block body).Declares id depth →
      ∃ i rest, r.Declares p decl id depth i rest) ∧
    ∀ (V : Type) (null : V) (locals : Nat → V) ops c,
      Trace null code ⟨code, locals, []⟩ ops c →
      ∀ id depth i, r.Declares p decl id depth i c.rest →
        ((∀ op ∈ ops, op.storedLocal? ≠ some i) → c.locals i = null) ∧
        (depth = 0 → (∀ opcode, .simple opcode ∈ ops → opcode.storedLocal? ≠ some i) →
          c.locals i = null) := by
  refine ⟨fun body id depth hbody h => exists_declares hr hdecl hbody h, ?_⟩
  intro V null locals ops c htrace id depth i hplace
  obtain ⟨count, params, before, hcode, hrespects, hnodup, hbefore, honeWay⟩ := hplace.divides
  rw [hcode] at htrace hrespects hnodup
  have hnull : (∀ op ∈ ops, op.storedLocal? ≠ some i) → c.locals i = null := by
    intro hops
    refine (htrace.null_of_not_stored hops).resolve_left fun hstart => ?_
    -- a run does not start behind the declaration
    have hrest : c.rest = (Operation.initSlots count params :: before) ++ c.rest :=
      congrArg (·.rest) hstart
    have hlength := congrArg List.length hrest
    rw [length_append, length_cons] at hlength
    omega
  refine ⟨hnull, fun hdepth hhost => hnull fun op hop hstored => ?_⟩
  -- a run that is at the place has not passed it before
  rcases (honeWay hdepth).trace hrespects hnodup htrace with ⟨-, hpassed⟩ | hsub
  · exact hpassed rfl
  · rcases mem_cons.mp (hsub hop) with rfl | hin
    · cases hstored
    · obtain ⟨opcode, rfl⟩ := hbefore op hin hstored
      exact hhost opcode hop hstored

/-- Declares a variable where an exception is handled. -/
def recoveringBody : Block :=
  let var (name : String) : Expr := .ident ⟨name, {}⟩ .integer {}
  ⟨[.try ⟨[.throw (var "n") {}], {}⟩ (some ⟨some ⟨"e", {}⟩,
    ⟨[.declare ⟨"x", {}⟩ .integer none false {},
      .expr (.assign none (var "x") (var "n") {}) {}], {}⟩, {}⟩) none {}], {}⟩

def recovering : FunctionDecl where
  id := ⟨"recover", {}⟩
  params := [⟨⟨"n", {}⟩, .integer, {}⟩]
  returnType := .void
  body := some recoveringBody
  isExport := true
  isSafe := false
  tags := []
  span := {}

def recoveringProgram : Program := ⟨[], [.function recovering]⟩

/-- The `Operation`s of the function before the declaration and after it. -/
def recoveringCode : List Operation × List Operation :=
  ([.initSlots 2 1, .anchor, .try (some 1) none, .anchor, .load .argument 0, .simple .throw,
    .anchor, .endTry 2, .label 1, .store .local 0, .anchor],
  [.load .argument 0, .store .local 1, .anchor, .endTry 2, .label 2, .anchor, .label 0, .return])

theorem declares_recovering (hops : r.ops.map Op.operation = recoveringCode.1 ++ recoveringCode.2) :
    r.Declares recoveringProgram recovering ⟨"x", {}⟩ 0 1 recoveringCode.2 := by
  obtain ⟨scope, hscope⟩ : ∃ scope, SameGlobals recoveringProgram.declared.scope scope :=
    ⟨_, rfl, rfl, rfl⟩
  let start := Context.enter ⟨scope, #[], #[], 1, .empty⟩ "recover"
  have hparams : ParamsIn recovering.params start (start.declareParam "n" {} .integer) :=
    .cons rfl .nil
  have hcode : DeclaresAt ⟨"x", {}⟩ _ _ {} (.block recoveringBody)
      (start.declareParam "n" {} .integer) _ _ _ :=
    .braces (.first (.handlerOf rfl rfl (.block (.cons (.throw (.variable rfl rfl)) .nil))
      (.keep rfl) (.braces (.first (.declare rfl)
        (.cons (.expr (.assign rfl rfl (.variable rfl rfl) rfl)) .nil))) .none) .nil)
  have hat : DeclaresAt ⟨"x", {}⟩ _ _ {} (.block recoveringBody) _ (plain recoveringCode.1.tail)
      (plain (recoveringCode.2.take 6)) _ := hcode
  have hplace := Routine.Declares.intro hscope rfl hparams hat (by
    rw [hops, finishedCode, codeOf_append, codeOf_plain, codeOf_plain]
    rfl)
  rw [codeOf_plain] at hplace
  exact hplace

/-- A `Trace` that comes to the declaration by an exception. -/
theorem trace_recovering : ∃ ops,
    Trace (0 : Int) (recoveringCode.1 ++ recoveringCode.2)
      ⟨recoveringCode.1 ++ recoveringCode.2, fun _ => 5, []⟩ ops
      ⟨recoveringCode.2, fun j => if j = 0 then 7 else 0, [⟨some 1, none, .handler⟩]⟩ ∧
    ∀ opcode, .simple opcode ∈ ops → opcode.storedLocal? ≠ some 1 := by
  let code := recoveringCode.1 ++ recoveringCode.2
  have hstart : Trace (0 : Int) code ⟨code, fun _ => 5, []⟩ [] ⟨code, fun _ => 5, []⟩ := .refl
  have hopened := (hstart.step (.go (.next rfl) .opens)).step (.go (.next rfl) (.keep rfl rfl))
  have hentered := (hopened.step (.go .enter (.keep rfl rfl))).step
    (.go (.next rfl) (.keep rfl rfl))
  have hthrown := (hentered.step (.go (.next rfl) (.keep rfl rfl))).step (.raise (.here rfl rfl))
  have hcaught := (hthrown.step (.go (.next rfl) (.store 7 rfl))).step
    (.go (.next rfl) (.keep rfl rfl))
  exact ⟨_, hcaught, by simp [Opcode.storedLocal?]⟩

theorem declared_null_outside_loops_recovering :
    ∃ r ∈ recoveringProgram.lowered.routines,
      recoveringProgram.functions[r.id]? = some recovering ∧
      let code := r.ops.map Op.operation
      ∃ rest, r.Declares recoveringProgram recovering ⟨"x", {}⟩ 0 1 rest ∧
        ∃ ops c, Trace (0 : Int) code ⟨code, fun _ => 5, []⟩ ops c ∧ c.rest = rest ∧
          c.locals 0 = 7 ∧ c.locals 1 = 0 := by
  have hroutines : recoveringProgram.lowered.routines.map
      (fun r => (r.id, r.ops.map Op.operation)) = [(0, recoveringCode.1 ++ recoveringCode.2)] := by
    decide +kernel
  obtain ⟨r, hr, heq⟩ := mem_map.mp (hroutines ▸ mem_cons_self)
  obtain ⟨hid, hops⟩ := Prod.mk.inj heq
  have hdecl : recoveringProgram.functions[r.id]? = some recovering := by
    rw [hid]
    rfl
  have hplace := declares_recovering hops
  obtain ⟨ops, htrace, hhost⟩ := trace_recovering
  have hmain := declared_null_outside_loops recoveringProgram r recovering hr hdecl
  refine ⟨r, hr, hdecl, _, hplace, ?_⟩
  rw [hops] at hmain ⊢
  exact ⟨ops, _, htrace, rfl, rfl, (hmain.2 Int 0 _ ops _ htrace _ 0 1 hplace).2 rfl hhost⟩

/-- Declares a variable in a loop, and then assigns to it. -/
def loopingBody : Block :=
  ⟨[.while (.literal (.bool true) .boolean {}) (.block ⟨[.declare ⟨"x", {}⟩ .integer none false {},
    .expr (.assign none (.ident ⟨"x", {}⟩ .integer {}) (.literal (.int 1) .integer {}) {}) {}], {}⟩)
    {}], {}⟩

def looping : FunctionDecl where
  id := ⟨"loop", {}⟩
  params := []
  returnType := .void
  body := some loopingBody
  isExport := true
  isSafe := false
  tags := []
  span := {}

def loopingProgram : Program := ⟨[], [.function looping]⟩

/-- The `Operation`s of the function before the declaration and after it. -/
def loopingCode : List Operation × List Operation :=
  ([.initSlots 1 0, .anchor, .label 1, .pushBool true, .jump .ifFalse 2, .anchor],
  [.pushInt 1, .store .local 0, .anchor, .jump .always 1, .label 2, .anchor, .label 0, .return])

theorem declares_looping (hops : r.ops.map Op.operation = loopingCode.1 ++ loopingCode.2) :
    r.Declares loopingProgram looping ⟨"x", {}⟩ 1 0 loopingCode.2 := by
  obtain ⟨scope, hscope⟩ : ∃ scope, SameGlobals loopingProgram.declared.scope scope :=
    ⟨_, rfl, rfl, rfl⟩
  let start := Context.enter ⟨scope, #[], #[], 1, .empty⟩ "loop"
  have hparams : ParamsIn looping.params start start := .nil
  have hcode : DeclaresAt ⟨"x", {}⟩ _ _ {} (.block loopingBody) start _ _ _ :=
    .braces (.first (.while .literal (.block (.braces (.first (.declare rfl)
      (.cons (.expr (.assign rfl rfl .literal rfl)) .nil))))) .nil)
  have hat : DeclaresAt ⟨"x", {}⟩ _ _ {} (.block loopingBody) _ (plain loopingCode.1.tail)
      (plain (loopingCode.2.take 6)) _ := hcode
  have hplace := Routine.Declares.intro hscope rfl hparams hat (by
    rw [hops, finishedCode, codeOf_append, codeOf_plain, codeOf_plain]
    rfl)
  rw [codeOf_plain] at hplace
  exact hplace

/-- In the second round of a loop, the slot of a variable that is declared there without a value
holds what the first round stored to it. -/
theorem declared_keeps_value_in_loop :
    ∃ r ∈ loopingProgram.lowered.routines,
      loopingProgram.functions[r.id]? = some looping ∧
      let code := r.ops.map Op.operation
      ∃ rest, r.Declares loopingProgram looping ⟨"x", {}⟩ 1 0 rest ∧
        ∃ n c, integers.Steps code n ⟨code, [], fun _ => []⟩ c ∧ c.rest = rest ∧
          (c.vars .local)[0]? = some 1 ∧ integers.constant .null ≠ 1 ∧
          ∃ ops, Trace (integers.constant .null) code ⟨code, fun _ => 0, []⟩ ops
            (integers.runState c) := by
  have hroutines : loopingProgram.lowered.routines.map
      (fun r => (r.id, r.ops.map Op.operation)) = [(0, loopingCode.1 ++ loopingCode.2)] := by
    decide +kernel
  obtain ⟨r, hr, heq⟩ := mem_map.mp (hroutines ▸ mem_cons_self)
  obtain ⟨hid, hops⟩ := Prod.mk.inj heq
  have hdecl : loopingProgram.functions[r.id]? = some looping := by
    rw [hid]
    rfl
  refine ⟨r, hr, hdecl, _, declares_looping hops, ?_⟩
  rw [hops]
  have hsteps : integers.Steps (loopingCode.1 ++ loopingCode.2) 13
      ⟨loopingCode.1 ++ loopingCode.2, [], fun _ => []⟩ ⟨loopingCode.2, [], _⟩ :=
    .head rfl (.head rfl (.head rfl (.head rfl (.head rfl (.head rfl (.head rfl (.head rfl
      (.head rfl (.head rfl (.head rfl (.head rfl (.head rfl (.refl _)))))))))))))
  exact ⟨13, _, hsteps, rfl, rfl, by decide, hsteps.runs .refl⟩

end ContractScript
