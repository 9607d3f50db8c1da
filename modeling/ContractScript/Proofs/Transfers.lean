import ContractScript.Proofs.Regions

/-!
# Control transfers respect try statements

The code of every construct is `Regular`: it leaves the try statements that it enters, jumps stay
where they are, and a try statement is left by `ENDTRY`, or by the end of its finalizer. Dropping
needless jumps changes none of this (`Respects.elide`).
-/

namespace ContractScript

open List

variable {ops code : List Operation} {ps qs : List Piece} {l : Label} {ctx ctx' : Context}
  {exit : Exit} {decl : FunctionDecl} {p : Program}

/-! ## Expressions -/

/-- What stands for a symbol is no transfer. -/
def Piece.IsInert : Piece → Prop
  | .use _ _ _ ops => ∀ op ∈ ops, op.isInert = true
  | .op _ | .leave _ _ => True

namespace Regular

variable {n : Nesting} {lo : Label} {targets : List Label}

/-- Operations that are `isBasic` are `Regular`. -/
theorem basic (h : ∀ o ∈ ops, o.isBasic = true) : Regular n lo targets ops :=
  .ops fun o ho => Operation.isInert_of_isBasic (h o ho)

/-- `decideCode` leads to its label only. -/
theorem decide (op : BinaryOp) (l : Label) :
    Regular n lo (l :: targets) (decideCode op l) := by
  have hjump (kind : JumpKind) : Regular n lo (l :: targets) [.jump kind l] :=
    .jump mem_cons_self
  cases op with
  | logicalAnd => exact hjump .ifFalse
  | logicalOr => exact hjump .ifTrue
  | _ => exact (Regular.op rfl).append (hjump .ifFalse)

/-- An assignment is `Regular` if its right side is. -/
theorem assign {op : Option BinaryOp} {keep : Bool} {kind : SlotKind} {index : Nat} {ty : Ty}
    (h : Regular n lo targets (codeOf ps)) (hcombines : Combines ty op ops) :
    Regular n lo targets (codeOf (assignPieces op keep kind index ps ops)) := by
  rw [assignPieces, codeOf_append, codeOf_append, codeOf_plain, codeOf_plain]
  exact ((Regular.basic (isBasic_loadIf _ _ _)).append h).append
    (.ops (isInert_store hcombines keep kind index))

/-- The right operand may be skipped. -/
theorem shortCircuit {op : BinaryOp} (hl : lo ≤ l)
    (hleft : Regular n lo (l :: targets) (codeOf ps))
    (hright : Regular n (l + 1) (l :: targets) (codeOf qs)) :
    Regular n lo targets (codeOf (ps ++ plain (.simple .dup :: (decideCode op l ++
      [Operation.simple .drop])) ++ qs ++ plain [.label l])) := by
  have htest : Regular n lo (l :: targets)
      (.simple .dup :: (decideCode op l ++ [Operation.simple .drop])) :=
    (Regular.op rfl).append ((Regular.decide op l).append (.op rfl))
  rw [codeOf_append, codeOf_append, codeOf_append, codeOf_plain, codeOf_plain]
  exact .bind hl ((hleft.append htest).append
    (hright.mono (Nat.le_succ_of_le hl) (List.Subset.refl _))) .nil

end Regular

mutual

/-- The code of an expression is `Regular`. -/
theorem ExprCode.regular {e : Expr} {ctx ctx' : Context} {ps : List Piece}
    (h : ExprCode e ctx ps ctx') (hps : ∀ piece ∈ ps, piece.IsInert) (n : Nesting)
    (targets : List Label) : Regular n ctx.label targets (codeOf ps) := by
  match h with
  | .literal => exact .basic (forall_mem_singleton.mpr (isBasic_push _))
  | .variable _ _ => exact .op rfl
  | .constant _ _ => exact .basic (forall_mem_singleton.mpr (isBasic_push _))
  | .shortCircuit _ hleft hright =>
    rw [forall_mem_append, forall_mem_append, forall_mem_append] at hps
    exact .shortCircuit hleft.fresh.le (hleft.regular hps.1.1.1 n _) (hright.regular hps.1.2 n _)
  | .nullTest _ _ _ hoperand =>
    rw [codeOf_append, codeOf_plain]
    rw [forall_mem_append] at hps
    exact (hoperand.regular hps.1 n targets).append (.basic (isBasic_nullTest _))
  | .operator _ _ hleft hright hops =>
    rw [codeOf_append, codeOf_append, codeOf_plain]
    rw [forall_mem_append, forall_mem_append] at hps
    exact ((hleft.regular hps.1.1 n targets).append
      ((hright.regular hps.1.2 n targets).mono hleft.fresh.le (List.Subset.refl _))).append
      (.basic (isBasic_operatorOps hops))
  | .negated _ => exact .op rfl
  | .unary _ hoperand =>
    rw [codeOf_append, codeOf_plain]
    rw [forall_mem_append] at hps
    exact (hoperand.regular hps.1 n targets).append (.basic (isBasic_unaryOps _))
  | .assign _ hvalue hcombines =>
    rw [assignPieces, forall_mem_append, forall_mem_append] at hps
    exact (hvalue.regular hps.1.2 n targets).assign hcombines
  | .call _ _ hargs _ =>
    rw [codeOf_append, codeOf_cons, codeOf_nil, append_nil]
    rw [forall_mem_append, forall_mem_singleton] at hps
    exact (hargs.regular hps.1 n targets).append (.ops hps.2)
  | .property _ _ _ =>
    rw [codeOf_cons, codeOf_nil, append_nil]
    exact .ops (forall_mem_singleton.mp hps)
  | .length _ _ _ hobject =>
    rw [codeOf_append, codeOf_plain]
    rw [forall_mem_append] at hps
    exact (hobject.regular hps.1 n targets).append (.op rfl)
  | .paren hinner => exact hinner.regular hps n targets

theorem ArgsCode.regular {args : List Expr} {ctx ctx' : Context} {ps : List Piece}
    (h : ArgsCode args ctx ps ctx') (hps : ∀ piece ∈ ps, piece.IsInert) (n : Nesting)
    (targets : List Label) : Regular n ctx.label targets (codeOf ps) := by
  match h with
  | .nil => exact .nil
  | .cons hrest harg =>
    rw [codeOf_append]
    rw [forall_mem_append] at hps
    exact (hrest.regular hps.1 n targets).append
      ((harg.regular hps.2 n targets).mono hrest.fresh.le (List.Subset.refl _))

end

/-- So is that of an expression that stands as a statement. -/
theorem DiscardedCode.regular {e : Expr} (h : DiscardedCode e ctx ps ctx')
    (hps : ∀ piece ∈ ps, piece.IsInert) (n : Nesting) (targets : List Label) :
    Regular n ctx.label targets (codeOf ps) := by
  cases h with
  | assign _ _ hvalue hcombines =>
    rw [assignPieces, forall_mem_append, forall_mem_append] at hps
    exact (hvalue.regular hps.1.2 n targets).assign hcombines
  | call _ _ _ hargs _ =>
    rw [codeOf_append, codeOf_append, codeOf_cons, codeOf_nil, append_nil, codeOf_plain]
    rw [forall_mem_append, forall_mem_append, forall_mem_singleton] at hps
    exact ((hargs.regular hps.1.1 n targets).append (.ops hps.1.2)).append
      (.basic (isBasic_dropIf _))
  | value _ hvalue =>
    rw [codeOf_append, codeOf_plain, ← Bool.cond_not]
    rw [forall_mem_append] at hps
    exact (hvalue.regular hps.1 n targets).append (.basic (isBasic_dropIf _))

/-! ## Statements -/

namespace Regular

variable {n : Nesting} {lo : Label} {targets : List Label}

theorem breakLoop (h : n.breakExit = .ok exit) : Regular n lo targets [exit.operation] := by
  obtain ⟨loop, hloop, hexit⟩ := exists_of_breakExit h
  exact .exitLoop (mem_of_mem_head? hloop) (.inr rfl) hexit

theorem continueLoop (h : n.continueExit = .ok exit) : Regular n lo targets [exit.operation] := by
  obtain ⟨loop, hloop, hexit⟩ := exists_of_continueExit h
  exact .exitLoop (mem_of_mem_head? hloop) (.inl rfl) hexit

/-- A condition with one branch leads to its own label only. -/
theorem ifThen {l : Label} {ps qs : List Piece} (hl : lo ≤ l)
    (hcondition : Regular n lo (l :: targets) (codeOf ps))
    (hthen : Regular n lo (l :: targets) (codeOf qs)) :
    Regular n lo targets (codeOf (ps ++ plain [.jump .ifFalse l] ++ qs ++ plain [.label l])) := by
  rw [codeOf_append, codeOf_append, codeOf_append, codeOf_plain, codeOf_plain]
  exact .bind hl ((hcondition.append (.jump mem_cons_self)).append hthen) .nil

/-- A condition with two branches leads to its own labels only. -/
theorem ifElse {l' : Label} {rs : List Piece} (hl : lo ≤ l) (hl' : lo ≤ l')
    (hcondition : Regular n lo (l :: l' :: targets) (codeOf ps))
    (hthen : Regular n lo (l :: l' :: targets) (codeOf qs))
    (helse : Regular n lo (l :: l' :: targets) (codeOf rs)) :
    Regular n lo targets (codeOf (ps ++ plain [.jump .ifFalse l] ++ qs ++
      plain [.jump .always l', .label l] ++ rs ++ plain [.label l'])) := by
  have hbefore : Regular n lo (l :: l' :: targets)
      (codeOf ps ++ [Operation.jump .ifFalse l] ++ codeOf qs ++ [Operation.jump .always l']) :=
    ((hcondition.append (.jump mem_cons_self)).append hthen).append
      (.jump (mem_cons_of_mem _ mem_cons_self))
  have hcode : codeOf (ps ++ plain [.jump .ifFalse l] ++ qs ++
      plain [.jump .always l', .label l] ++ rs ++ plain [.label l']) =
      ((codeOf ps ++ [Operation.jump .ifFalse l] ++ codeOf qs ++ [Operation.jump .always l']) ++
        Operation.label l :: codeOf rs) ++ Operation.label l' :: [] := by
    simp
  rw [hcode]
  exact .bind hl' (.bind hl hbefore helse) .nil

/-- A loop leads to its own labels only. -/
theorem whileLoop {c b : Label} (hc : lo ≤ c) (hb : lo ≤ b)
    (hcondition : Regular n lo [c, b] (codeOf ps)) (hbody : Regular n lo [c, b] (codeOf qs)) :
    Regular n lo targets (codeOf (plain [.label c] ++ ps ++ plain [.jump .ifFalse b] ++ qs ++
      plain [.jump .always c, .label b])) := by
  have hround : Regular n lo [c, b]
      (codeOf ps ++ [Operation.jump .ifFalse b] ++ codeOf qs ++ [Operation.jump .always c]) :=
    ((hcondition.append (.jump (mem_cons_of_mem _ mem_cons_self))).append hbody).append
      (.jump mem_cons_self)
  have hcode : codeOf (plain [.label c] ++ ps ++ plain [.jump .ifFalse b] ++ qs ++
      plain [.jump .always c, .label b]) =
      ([] ++ Operation.label c :: (codeOf ps ++ [Operation.jump .ifFalse b] ++ codeOf qs ++
        [Operation.jump .always c])) ++ Operation.label b :: [] := by
    simp
  rw [hcode]
  have hloop : Regular n lo [] _ := .bind hb (.bind hc .nil hround) .nil
  exact hloop.mono (Nat.le_refl _) (nil_subset _)

end Regular

/-- `partLabel` takes the labels of a try statement one after the other. -/
theorem partLabels {isHandled isFinished : Bool} {lo next endLabel : Label}
    {handler finalizer : Option Label} (h : partLabel isHandled lo = (handler, next))
    (h' : partLabel isFinished next = (finalizer, endLabel)) :
    PartLabels lo handler finalizer endLabel := by
  cases isHandled <;> cases isFinished <;> cases h <;> cases h'
  · exact ⟨Nat.le_refl _, nofun, nofun⟩
  · refine ⟨Nat.le_succ _, nofun, fun l hl => ?_⟩
    cases hl
    exact ⟨Nat.le_refl _, Nat.lt_succ_self _⟩
  · refine ⟨Nat.le_succ _, fun l hl => ?_, nofun⟩
    cases hl
    exact ⟨Nat.le_refl _, Nat.lt_succ_self _, nofun⟩
  · refine ⟨Nat.le_succ_of_le (Nat.le_succ _), fun l hl => ?_, fun l hl => ?_⟩
    · cases hl
      exact ⟨Nat.le_refl _, Nat.lt_succ_of_lt (Nat.lt_succ_self _),
        fun heq => Nat.succ_ne_self _ (Option.some.inj heq)⟩
    · cases hl
      exact ⟨Nat.le_succ _, Nat.lt_succ_self _⟩

theorem BindsException.isInert {param : Option Ident} (h : BindsException param ctx ops ctx') :
    ∀ o ∈ ops, o.isInert = true := by
  cases h <;> exact forall_mem_singleton.mpr rfl

mutual

/-- The code of a statement is `Regular`. -/
theorem StmtCode.regular {n : Nesting} {s : Stmt} {ctx ctx' : Context} {ps : List Piece}
    (h : StmtCode n s ctx ps ctx') (hps : ∀ piece ∈ ps, piece.IsInert) (targets : List Label) :
    Regular n ctx.label targets (codeOf ps) := by
  match h with
  | .expr he => exact he.regular hps n targets
  | .declare _ => exact .nil
  | .declareAs hvalue _ =>
    rw [codeOf_append, codeOf_plain]
    rw [forall_mem_append] at hps
    exact (hvalue.regular hps.1 n targets).append (.op rfl)
  | .return hexit => exact .exitFunction hexit
  | .returnAs hvalue hexit =>
    rw [codeOf_append]
    rw [forall_mem_append] at hps
    exact (hvalue.regular hps.1 n targets).append (.exitFunction hexit)
  | .throw hvalue =>
    rw [codeOf_append, codeOf_plain]
    rw [forall_mem_append] at hps
    exact (hvalue.regular hps.1 n targets).append (.op rfl)
  | .break hexit => exact .breakLoop hexit
  | .continue hexit => exact .continueLoop hexit
  | .block hbody => exact hbody.regular hps targets
  | .ifThen hcondition hthen =>
    rw [forall_mem_append, forall_mem_append, forall_mem_append] at hps
    have hle : _ ≤ _ := Nat.le_of_succ_le hcondition.fresh.le
    exact .ifThen (Nat.le_refl _)
      ((hcondition.regular hps.1.1.1 n _).mono (Nat.le_succ _) (List.Subset.refl _))
      ((hthen.regular hps.1.2 _).mono hle (List.Subset.refl _))
  | .ifElse hcondition hthen helse =>
    simp only [forall_mem_append] at hps
    have hle : _ ≤ _ := Nat.le_of_succ_le hcondition.fresh.le
    have hle' := Nat.le_trans hle hthen.fresh.le
    exact .ifElse (Nat.le_refl _) hle'
      ((hcondition.regular hps.1.1.1.1.1 n _).mono (Nat.le_succ _) (List.Subset.refl _))
      ((hthen.regular hps.1.1.1.2 _).mono hle (List.Subset.refl _))
      ((helse.regular hps.1.2 _).mono (Nat.le_succ_of_le hle') (List.Subset.refl _))
  | .while hcondition hbody =>
    simp only [forall_mem_append] at hps
    have hle : _ + 2 ≤ _ := hcondition.fresh.le
    refine .whileLoop (Nat.le_refl _) (Nat.le_succ _)
      ((hcondition.regular hps.1.1.1.2 n _).mono (Nat.le_add_right _ 2) (List.Subset.refl _)) ?_
    exact (hbody.regular hps.1.2 []).loop (Nat.le_trans (Nat.le_add_right _ 2) hle)
      (Nat.lt_of_lt_of_le (Nat.lt_add_of_pos_right (by decide)) hle) (Nat.lt_of_succ_le hle)
  | .try hlabel hlabel' hbody hhandler hfinalizer =>
    simp only [codeOf_append, codeOf_plain]
    simp only [forall_mem_append] at hps
    obtain ⟨_, hfresh, -⟩ := hhandler.fresh
    have hle := hbody.fresh.le
    exact .try (partLabels hlabel hlabel') (hbody.regular hps.1.1.1.1.2 [])
      (hhandler.part hps.1.1.2 hle) (hfinalizer.part hps.1.2 (Nat.le_trans hle hfresh.le))

theorem StmtsCode.regular {n : Nesting} {ss : List Stmt} {ctx ctx' : Context} {ps : List Piece}
    (h : StmtsCode n ss ctx ps ctx') (hps : ∀ piece ∈ ps, piece.IsInert) (targets : List Label) :
    Regular n ctx.label targets (codeOf ps) := by
  match h with
  | .nil => exact .nil
  | .cons hfirst hrest =>
    rw [codeOf_append]
    rw [forall_mem_append] at hps
    exact (hfirst.regular hps.1 targets).append
      ((hrest.regular hps.2 targets).mono hfirst.fresh.le (List.Subset.refl _))

theorem BlockCode.regular {n : Nesting} {b : Block} {ctx ctx' : Context} {ps : List Piece}
    (h : BlockCode n b ctx ps ctx') (hps : ∀ piece ∈ ps, piece.IsInert) (targets : List Label) :
    Regular n ctx.label targets (codeOf ps) := by
  match h with
  | .block hbody =>
    rw [codeOf_append, codeOf_append, codeOf_plain]
    rw [forall_mem_append, forall_mem_append] at hps
    exact ((Regular.op rfl).append (hbody.regular hps.1.2 targets)).append (.op rfl)

theorem CatchCode.part {n : Nesting} {lo : Label} {l : Option Label} {endLabel : Label}
    {c : Option CatchClause} {ctx ctx' : Context} {ps : List Piece}
    (h : CatchCode (n.within .handler) l endLabel c ctx ps ctx')
    (hps : ∀ piece ∈ ps, piece.IsInert) (hlo : lo ≤ ctx.label) :
    Part n lo .handler (.endTry endLabel) l (codeOf ps) := by
  match h with
  | .none => exact .none
  | .some hbinds hbody =>
    simp only [codeOf_append, codeOf_plain]
    rw [forall_mem_append, forall_mem_append] at hps
    have hregular := (hbody.regular hps.1.2 []).mono
      (Nat.le_trans hlo (Nat.le_of_eq hbinds.label_eq.1.symm)) (List.Subset.refl _)
    exact .some ((Regular.ops hbinds.isInert).append hregular)

theorem FinallyCode.part {n : Nesting} {lo : Label} {l : Option Label} {b : Option Block}
    {ctx ctx' : Context} {ps : List Piece} (h : FinallyCode (n.within .finalizer) l b ctx ps ctx')
    (hps : ∀ piece ∈ ps, piece.IsInert) (hlo : lo ≤ ctx.label) :
    Part n lo .finalizer (.simple .endFinally) l (codeOf ps) := by
  match h with
  | .none => exact .none
  | .some hbody =>
    simp only [codeOf_append, codeOf_plain]
    rw [forall_mem_append, forall_mem_append] at hps
    exact .some ((hbody.regular hps.1.2 []).mono hlo (List.Subset.refl _))

end

/-- The code of a function is `Regular`, outside of all loops and try statements. -/
theorem FunctionCode.regular (h : FunctionCode decl ctx ps ctx')
    (hps : ∀ piece ∈ ps, piece.IsInert) : Regular {} ctx.label [] (codeOf ps) := by
  cases h with
  | none _ _ => exact .nil
  | some _ hparams hbody =>
    exact (hbody.regular hps []).mono (Nat.le_of_eq hparams.label_eq.symm) (List.Subset.refl _)

/-! ## Functions -/

/-- Control goes only where it may in a whole function: its end is outside of all regions, and the
places follow each other from a start outside of them. -/
structure Respects (code : List Operation) : Prop where
  settled : ∀ x ∈ RegionScan.places {} code, Settled (RegionScan.places {} code) x
  final : LabelAt (RegionScan.places {} code) Draft.returnTarget []
  links : ∃ y, Links (.anchor, {}) (RegionScan.places {} code) y

namespace Respects

/-- A function whose body is `Regular` `Respects` its regions, with its end. -/
theorem of_regular (h : Regular {} 1 [] code) :
    Respects (code ++ [Operation.label Draft.returnTarget, .return]) := by
  have hs : Within {} 1 {} :=
    ⟨rfl, forall_mem_nil _, forall_mem_nil _, Nat.zero_lt_one⟩
  have hregions : (RegionScan.run {} code).regions = [] := h.regions_run hs
  have htries : (RegionScan.run {} code).tries = [] := map_eq_nil_iff.mp hregions
  have hstep : (RegionScan.run {} code).step (.label Draft.returnTarget) =
      RegionScan.run {} code := by
    refine RegionScan.step_label ?_
    rw [htries]
    exact forall_mem_nil _
  have hplaces : RegionScan.places {} (code ++ [Operation.label Draft.returnTarget, .return]) =
      RegionScan.places {} code ++ [(.label Draft.returnTarget, RegionScan.run {} code),
        (.return, RegionScan.run {} code)] := by
    rw [RegionScan.places_append, RegionScan.places, RegionScan.place, hstep]
    rfl
  -- the body has left all that it entered, so the end is outside of all regions
  have hfinal : LabelAt
      (RegionScan.places {} (code ++ [Operation.label Draft.returnTarget, .return]))
      Draft.returnTarget [] := by
    refine ⟨_, ?_, hregions⟩
    rw [hplaces]
    exact mem_append_right _ mem_cons_self
  refine ⟨?_, hfinal, ?_⟩
  · have hbody := h.settled (s := {}) hs ⟨forall_mem_nil _, hfinal⟩ (forall_mem_nil _)
      (hplaces ▸ subset_append_left _ _)
    rw [hplaces] at hbody ⊢
    refine forall_mem_append.mpr ⟨hbody, ?_⟩
    exact forall_mem_cons.mpr ⟨trivial, forall_mem_singleton.mpr hregions⟩
  · obtain ⟨y, hlinks, hy⟩ := h.flows hs (.anchor, {}) (.same rfl)
    rw [hplaces]
    exact ⟨_, hlinks.append (.cons hy (.cons (.same rfl) (.nil _)))⟩

/-- An operation before all others. -/
theorem cons {code : List Operation} (h : Respects code) {op : Operation}
    (hop : op.isInert = true) : Respects (op :: code) := by
  obtain ⟨hstep, hplace⟩ := RegionScan.step_of_isInert hop {}
  have hplaces : RegionScan.places {} (op :: code) = (op, {}) :: RegionScan.places {} code := by
    rw [RegionScan.places, hstep, hplace]
  have hlabels : ∀ l s, (.label l, s) ∈ RegionScan.places {} code →
      (.label l, s) ∈ RegionScan.places {} (op :: code) := by
    intro l s hs
    rw [hplaces]
    exact mem_cons_of_mem _ hs
  refine ⟨?_, h.final.mono hlabels, ?_⟩
  · intro x hx
    rw [hplaces] at hx
    rcases mem_cons.mp hx with rfl | hx
    · exact settled_of_isInert hop {}
    · exact (h.settled x hx).mono hlabels
  · obtain ⟨y, hy⟩ := h.links
    have hopens : op.opensRegion = false := by
      cases op with
      | «try» => cases hop
      | _ => rfl
    obtain ⟨z, hz⟩ := hy.of_falls (op, {}) fun regions hregions => by
      cases hregions with
      | same => exact .same hopens
      | enter heq | part heq | finish heq | resume heq => cases heq
    rw [hplaces]
    exact ⟨z, .cons (.same rfl) hz⟩

end Respects

/-! ### Needless jumps -/

/-- `elide` drops places only: a dropped jump is not seen by the scan. -/
theorem places_elide_subset (s : RegionScan) (code : List Operation) :
    s.places (elide code) ⊆ s.places code := by
  induction code generalizing s with
  | nil => exact List.Subset.refl _
  | cons op rest ih =>
    rw [elide]
    split
    · next hfalls =>
      obtain ⟨l, _, _, rfl, -⟩ := exists_of_fallsThrough hfalls
      exact subset_cons_of_subset _ (ih s)
    · exact cons_subset_cons _ (ih _)

/-- `elide` leaves all labels where they are. -/
theorem mem_places_elide {s s' : RegionScan} (h : (.label l, s') ∈ s.places code) :
    (.label l, s') ∈ s.places (elide code) := by
  induction code generalizing s with
  | nil => exact h
  | cons op rest ih =>
    rw [elide]
    split
    · next hfalls =>
      obtain ⟨l, _, _, rfl, -⟩ := exists_of_fallsThrough hfalls
      rcases mem_cons.mp h with heq | h
      · cases heq
      · exact ih h
    · rcases mem_cons.mp h with heq | h
      · exact heq ▸ mem_cons_self
      · exact mem_cons_of_mem _ (ih h)

/-- What comes after a dropped jump can follow what came before it. -/
theorem Links.elide {s : RegionScan} {code : List Operation} {x y : Operation × RegionScan}
    (h : Links x (s.places code) y) : ∃ z, Links x (s.places (elide code)) z := by
  induction code generalizing s x y with
  | nil => exact ⟨y, h⟩
  | cons op rest ih =>
    rw [ContractScript.elide]
    split
    · next hfalls =>
      obtain ⟨l, _, _, rfl, -⟩ := exists_of_fallsThrough hfalls
      cases h with
      | cons hx hrest =>
        obtain ⟨z, hz⟩ := hrest.of_falls x fun regions hregions => by
          cases hregions with
          | same => exact hx
          | enter heq | part heq | finish heq | resume heq => cases heq
        exact ih hz
    · cases h with
      | cons hx hrest =>
        obtain ⟨z, hz⟩ := ih hrest
        exact ⟨z, .cons hx hz⟩

/-- `elide` keeps what a function `Respects`. -/
theorem Respects.elide (h : Respects code) : Respects (ContractScript.elide code) where
  settled x hx := (h.settled x (places_elide_subset {} code hx)).mono fun _ _ => mem_places_elide
  final := h.final.mono fun _ _ => mem_places_elide
  links := by
    obtain ⟨y, hy⟩ := h.links
    exact hy.elide

/-! ## Programs -/

theorem Operation.isInert_of_isStraight {op : Operation} (h : op.isStraight = true) :
    op.isInert = true := by
  cases op with
  | jump | «try» | endTry | label | «return» => cases h
  | _ => rfl

/-- Pieces that are `Accounted` for hold no transfers but their own. -/
theorem isInert_of_accounted {piece : Piece} (h : piece.Accounted p.declared.scope) :
    piece.IsInert := by
  cases piece with
  | op | leave => trivial
  | use symbol argCount isWanted ops =>
    obtain ⟨⟨e, hcallee⟩, -, ctx, ctx', huses⟩ := h
    obtain ⟨name, scope, span, definition⟩ := symbol
    cases huses with
    | function | method => exact forall_mem_singleton.mpr rfl
    | event => simp [Piece.IsInert, Operation.isInert]
    | @host call =>
      have hfunction : ∀ id paramCount returns,
          Definition.host call ≠ .function id paramCount returns := by
        intro _ _ _ heq
        cases heq
      have hprovided := provided_of_callee? hcallee rfl hfunction
      have hstraight := (allProvided_bindProgram p).symbols _ hprovided
      exact fun op hop => Operation.isInert_of_isStraight (hstraight op hop)

/-- The operations of a function of a program are those of its declaration (`FunctionCode`), and
each use of a symbol stands for one of the program. -/
theorem exists_functionCode {r : Routine} (hr : r ∈ p.lowered.routines)
    (hdecl : p.functions[r.id]? = some decl) :
    ∃ scope tokens ps ctx, FunctionCode decl ⟨scope, #[], #[], 1, tokens⟩ ps ctx ∧
      r.ops.map Op.operation = finishedCode ps ctx ∧
      ∀ piece ∈ ps, piece.Accounted p.declared.scope := by
  obtain ⟨scope, tokens, s', hscope, hlower⟩ := exists_lowerFunction hr hdecl
  obtain ⟨ps, hcode, -, hops⟩ := lowerFunction_code hlower
  exact ⟨scope, tokens, ps, s'.context, hcode, hops,
    hcode.accounted (inner_declare _ p) (over_of_sameGlobals hscope)⟩

theorem labelsIn_codeOf (h : ∀ piece ∈ ps, piece.IsInert) :
    labelsIn (codeOf ps) = labelsIn (ownCode ps) := by
  induction ps with
  | nil => rfl
  | cons piece ps ih =>
    obtain ⟨hpiece, hps⟩ := forall_mem_cons.mp h
    rw [codeOf_cons, ownCode_cons, labelsIn_append, labelsIn_append, ih hps]
    cases piece with
    | op | leave => rfl
    | use symbol argCount isWanted ops =>
      rw [Piece.ops, labelsIn_of_isInert hpiece]
      rfl

/-- `finishedCode` of a function `Respects` its regions, and places no label twice. -/
theorem FunctionCode.respects {scope : Scope} {tokens : TokenTable}
    (h : FunctionCode decl ⟨scope, #[], #[], 1, tokens⟩ ps ctx)
    (hps : ∀ piece ∈ ps, piece.IsInert) :
    Respects (finishedCode ps ctx) ∧ (labelsIn (finishedCode ps ctx)).Nodup := by
  have hbody := (Respects.of_regular (h.regular hps)).elide
  have hfresh := h.fresh.congr (labelsIn_codeOf hps)
  have hnodup :
      (labelsIn (elide (codeOf ps ++ [Operation.label Draft.returnTarget, .return]))).Nodup :=
    (nodup_labelsIn_program hfresh).sublist ((elide_sublist _).filterMap _)
  unfold finishedCode
  split
  · exact ⟨hbody, hnodup⟩
  · exact ⟨hbody.cons rfl, hnodup⟩

/-- In the operations of a function of a program every label stands once. A jump leads to a label
inside of the same parts of try statements; an `ENDTRY` is no part of a finalizer, and it leads to a
label inside of the same parts but the innermost one; the labels of a `TRY` stand in the handler
and the finalizer of its own statement, inside of the parts around it; the function is left outside
of all try statements; and from one operation to the next the parts change only after a `TRY`, after
an `ENDTRY`, and after the end of a finalizer. -/
theorem transfers_respect_regions (p : Program) (r : Routine) (decl : FunctionDecl)
    (hr : r ∈ p.lowered.routines) (hdecl : p.functions[r.id]? = some decl) :
    let code := r.ops.map Op.operation
    let places := RegionScan.places {} code
    (labelsIn code).Nodup ∧
    (∀ kind l s, (.jump kind l, s) ∈ places → LabelAt places l s.regions) ∧
    (∀ l s, (.endTry l, s) ∈ places → ∃ region outer, s.regions = region :: outer ∧
      region.phase ≠ .finalizer ∧ LabelAt places l outer) ∧
    (∀ handler finalizer s, (.try handler finalizer, s) ∈ places →
      (∀ l ∈ handler, LabelAt places l (⟨s.opened, .handler⟩ :: s.regions)) ∧
        ∀ l ∈ finalizer, LabelAt places l (⟨s.opened, .finalizer⟩ :: s.regions)) ∧
    LabelAt places Draft.returnTarget [] ∧
    (∀ s, (.return, s) ∈ places → s.regions = []) ∧
    places.IsChain fun x y => Falls x y.2.regions := by
  obtain ⟨scope, tokens, ps, ctx, hcode, hops, haccounted⟩ := exists_functionCode hr hdecl
  have hinert : ∀ piece ∈ ps, piece.IsInert := fun piece hpiece =>
    isInert_of_accounted (haccounted piece hpiece)
  obtain ⟨hrespects, hnodup⟩ := hcode.respects hinert
  rw [← hops] at hrespects hnodup
  obtain ⟨y, hlinks⟩ := hrespects.links
  exact ⟨hnodup, fun kind l s hs => hrespects.settled _ hs, fun l s hs => hrespects.settled _ hs,
    fun handler finalizer s hs => hrespects.settled _ hs, hrespects.final,
    fun s hs => hrespects.settled _ hs, hlinks.isChain⟩

/-- A loop whose body is a try statement with all parts, which is left by `break` from its body and
by `continue` from its handler. -/
def retrying : FunctionDecl where
  id := ⟨"retry", {}⟩
  params := [⟨⟨"n", {}⟩, .integer, {}⟩]
  returnType := .void
  body :=
    let n : Expr := .ident ⟨"n", {}⟩ .integer {}
    let effect : Stmt := .expr (.assign none n n {}) {}
    some ⟨[.while n (.try ⟨[.if n (.break {}) none {}, .throw n {}], {}⟩
      (some ⟨some ⟨"e", {}⟩, ⟨[.continue {}], {}⟩, {}⟩) (some ⟨[effect], {}⟩) {}) {},
      .return none {}], {}⟩
  isExport := true
  isSafe := false
  tags := []
  span := {}

def retryingProgram : Program := ⟨[], [.function retrying]⟩

/-- The `Operation`s of the function. -/
def retryingCode : List Operation :=
  [.initSlots 1 1, .anchor, .label 1, .load .argument 0, .jump .ifFalse 2,
    .try (some 3) (some 4), .anchor, .load .argument 0, .jump .ifFalse 6, .endTry 2, .label 6,
    .load .argument 0, .simple .throw, .anchor, .endTry 5, .label 3, .store .local 0, .anchor,
    .endTry 1, .anchor, .endTry 5, .label 4, .anchor, .load .argument 0, .store .argument 0,
    .anchor, .simple .endFinally, .label 5, .jump .always 1, .label 2, .anchor, .label 0, .return]

theorem transfers_respect_regions_retrying : ∃ r ∈ retryingProgram.lowered.routines,
    retryingProgram.functions[r.id]? = some retrying ∧
      let places := RegionScan.places {} (r.ops.map Op.operation)
      (∃ s, (.endTry 2, s) ∈ places ∧ s.regions = [⟨0, .body⟩]) ∧ LabelAt places 2 [] ∧
      (∃ s, (.endTry 1, s) ∈ places ∧ s.regions = [⟨0, .handler⟩]) ∧ LabelAt places 1 [] ∧
      LabelAt places 4 [⟨0, .finalizer⟩] := by
  have hroutines : retryingProgram.lowered.routines.map (fun r => (r.id, r.ops.map Op.operation)) =
      [(0, retryingCode)] := by
    decide +kernel
  obtain ⟨r, hr, heq⟩ := mem_map.mp (hroutines ▸ mem_cons_self)
  obtain ⟨hid, hops⟩ := Prod.mk.inj heq
  have hdecl : retryingProgram.functions[r.id]? = some retrying := by
    rw [hid]
    rfl
  obtain ⟨-, -, hendTry, htry, -⟩ := transfers_respect_regions retryingProgram r retrying hr hdecl
  refine ⟨r, hr, hdecl, ?_⟩
  rw [hops] at hendTry htry ⊢
  have hbreak : (.endTry 2, ⟨1, [⟨⟨0, .body⟩, some 3, some 4, []⟩]⟩) ∈
      RegionScan.places {} retryingCode :=
    mem_of_getElem? (i := 9) rfl
  have hcontinue : (.endTry 1, ⟨1, [⟨⟨0, .handler⟩, some 3, some 4, [5, 2]⟩]⟩) ∈
      RegionScan.places {} retryingCode :=
    mem_of_getElem? (i := 18) rfl
  have hstart : (.try (some 3) (some 4), ⟨0, []⟩) ∈ RegionScan.places {} retryingCode :=
    mem_of_getElem? (i := 5) rfl
  obtain ⟨_, _, hregions, -, htarget⟩ := hendTry 2 _ hbreak
  cases hregions
  obtain ⟨_, _, hregions', -, htarget'⟩ := hendTry 1 _ hcontinue
  cases hregions'
  exact ⟨⟨_, hbreak, rfl⟩, htarget, ⟨_, hcontinue, rfl⟩, htarget',
    (htry _ _ _ hstart).2 4 rfl⟩

end ContractScript
