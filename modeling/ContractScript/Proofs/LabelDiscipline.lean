import Mathlib.Data.List.Nodup
import ContractScript.Proofs.Alike
import ContractScript.Proofs.Transfers

/-!
# Labels of a function

A draft hands out labels one after another, and what is lowered places them. The label of the end
is there from the start and is placed when the draft is finished. No label is ever placed a second
time and none is forgotten, so that no branch is left dangling.
-/

namespace ContractScript

open List

variable {code : List Operation} {l : Label} {s : LowerState}

open Lower

/-! ## Targets -/

theorem RegionScan.map_fst_places (s : RegionScan) (code : List Operation) :
    (s.places code).map Prod.fst = code := by
  induction code generalizing s with
  | nil => rfl
  | cons op rest ih => rw [places, map_cons, ih]

theorem LabelAt.mem_labelsIn {s : RegionScan} {regions : List Region}
    (h : LabelAt (s.places code) l regions) : l ∈ labelsIn code := by
  obtain ⟨s', hs', -⟩ := h
  rw [ContractScript.mem_labelsIn, ← s.map_fst_places code]
  exact mem_map_of_mem hs'

/-- Where control is `Settled`, every target stands somewhere. -/
theorem Settled.exists_labelAt {T : List (Operation × RegionScan)} {x : Operation × RegionScan}
    (h : Settled T x) : ∀ l ∈ x.1.targets, ∃ regions, LabelAt T l regions := by
  obtain ⟨op, s⟩ := x
  intro l hl
  cases op with
  | jump kind target =>
    cases mem_singleton.mp hl
    exact ⟨_, h⟩
  | endTry target =>
    cases mem_singleton.mp hl
    obtain ⟨_, _, _, _, hlabel⟩ := h
    exact ⟨_, hlabel⟩
  | «try» handler finalizer =>
    obtain ⟨hhandler, hfinalizer⟩ := h
    rcases mem_append.mp hl with hl | hl
    · exact ⟨_, hhandler l (Option.mem_toList.mp hl)⟩
    · exact ⟨_, hfinalizer l (Option.mem_toList.mp hl)⟩
  | _ => cases hl

theorem RegionScan.exists_place (s : RegionScan) {op : Operation} (h : op ∈ code) :
    ∃ s', (op, s') ∈ s.places code := by
  rw [← s.map_fst_places code, mem_map] at h
  obtain ⟨⟨_, s'⟩, hplace, rfl⟩ := h
  exact ⟨s', hplace⟩

/-- In code that `Respects` regions, every target is placed. -/
theorem Respects.targets_placed (h : Respects code) :
    ∀ op ∈ code, ∀ l ∈ op.targets, l ∈ labelsIn code := by
  intro op hop l hl
  obtain ⟨s, hplace⟩ := RegionScan.exists_place {} hop
  obtain ⟨_, hlabel⟩ := (h.settled _ hplace).exists_labelAt l hl
  exact hlabel.mem_labelsIn

/-! ## Finishing -/

theorem placedLabels_eq_labelsIn (ops : List Op) :
    placedLabels ops = labelsIn (ops.map Op.operation) := by
  rw [placedLabels, labelsIn, filterMap_map]
  refine filterMap_congr fun op _ => ?_
  obtain ⟨operation, location⟩ := op
  cases operation <;> rfl

/-- `danglingTarget?` finds none if every target is placed. -/
theorem danglingTarget?_eq_none {ops : List Op}
    (h : ∀ op ∈ ops.map Op.operation, ∀ l ∈ op.targets, l ∈ labelsIn (ops.map Op.operation)) :
    danglingTarget? ops = none := by
  unfold danglingTarget?
  dsimp only
  rw [findSome?_eq_none_iff]
  intro op hop
  rw [Option.map_eq_none_iff, find?_eq_none, placedLabels_eq_labelsIn]
  intro l hl
  simpa using h op.operation (mem_map_of_mem hop) l hl

/-- `elide` drops needless jumps from a part of code; its labels stay, and so do the try statements
that it leaves open. -/
theorem elide_append (code code' : List Operation) :
    ∃ before, elide (code ++ code') = before ++ elide code' ∧ before ⊆ code ∧
      labelsIn before = labelsIn code ∧ ∀ s : RegionScan, s.run before = s.run code := by
  induction code with
  | nil => exact ⟨[], rfl, List.Subset.refl _, rfl, fun _ => rfl⟩
  | cons op rest ih =>
    obtain ⟨before, helide, hsub, hlabels, hrun⟩ := ih
    rw [cons_append, elide, helide]
    split
    · next hfalls =>
      obtain ⟨l, _, _, rfl, -⟩ := exists_of_fallsThrough hfalls
      exact ⟨before, rfl, subset_cons_of_subset _ hsub, hlabels, hrun⟩
    · refine ⟨op :: before, rfl, cons_subset_cons _ hsub, ?_, fun s => ?_⟩
      · rw [labelsIn_cons, labelsIn_cons, hlabels]
      · rw [RegionScan.run_cons, RegionScan.run_cons, hrun]

theorem labelsIn_elide (code : List Operation) : labelsIn (elide code) = labelsIn code := by
  obtain ⟨before, helide, -, hlabels, -⟩ := elide_append code []
  rw [append_nil] at helide
  rw [helide, labelsIn_append, hlabels]
  exact append_nil _

theorem nodup_labelsIn_split {before after : List Operation} (h : (labelsIn code).Nodup)
    (hsplit : code = before ++ .label l :: after) : l ∉ labelsIn before := by
  rw [hsplit, labelsIn_append, labelsIn_cons] at h
  have hdisjoint := (nodup_append.mp h).2.2
  intro hl
  exact hdisjoint l hl l mem_cons_self rfl

/-- `Fresh` labels are placed once each. -/
theorem Fresh.count {lo hi : Nat} (h : Fresh lo hi code) (l : Label) :
    (labelsIn code).count l = if lo ≤ l ∧ l < hi then 1 else 0 := by
  split
  · next hin => exact count_eq_one_of_mem h.nodup (h.all l hin.1 hin.2)
  · next hout => exact count_eq_zero.mpr fun hl => hout (h.range l hl)

theorem exists_of_run' {α : Type} {x : Lower α} {a : α} (h : x.run' s = some a) :
    ∃ s', x s = .ok a s' := by
  unfold EStateM.run' EStateM.run at h
  split at h
  · next heq =>
    cases h
    exact ⟨_, heq⟩
  · cases h

/-- `lowerFunction` succeeds if the body is lowered and the draft finished. -/
theorem lowerFunction_of_finish {decl : FunctionDecl} {s' : LowerState} {r : Routine}
    (h : lowerBody decl s = .ok () s') (hfinish : s'.draft.finish = .ok r) :
    lowerFunction decl s = .ok { r with
      returnType := ParamType.ofTy decl.returnType
      isExport := decl.isExport
      isSafe := decl.isMarkedSafe } s' := by
  have hdraft : finishDraft s' = .ok r s' := by
    have hget : (get : Lower LowerState) s' = .ok s' s' := rfl
    rw [finishDraft, bind_of_ok hget, hfinish]
    rfl
  show (lowerBody decl >>= fun _ => finishDraft >>= _) s = _
  simp only [bind, EStateM.bind, h, hdraft]
  rfl

/-- The operations of a finished draft, without their places. -/
theorem map_finishedOps (d : Draft) : (d.finishedOps d.ops).map Op.operation =
    openingCode d ++ elide (d.code ++ [Operation.label Draft.returnTarget, .return]) := by
  have hbody : (elideJumps (d.ops.toList ++
      [⟨.label Draft.returnTarget, none⟩, ⟨.return, none⟩])).map Op.operation =
      elide (d.code ++ [Operation.label Draft.returnTarget, .return]) := by
    rw [map_elideJumps, map_append]
    rfl
  unfold Draft.finishedOps openingCode
  dsimp only
  split
  · exact hbody
  · exact congrArg (_ :: ·) hbody

/-- `Draft.finish` succeeds if control goes only where it may. -/
theorem exists_finish {d : Draft}
    (h : Respects (openingCode d ++
      elide (d.code ++ [Operation.label Draft.returnTarget, .return]))) :
    ∃ r, d.finish = .ok r := by
  rw [← map_finishedOps] at h
  exact ⟨_, Draft.finish_of_none (danglingTarget?_eq_none h.targets_placed)⟩

/-- A body leads to its own labels and to its end. -/
theorem Respects.body_targets {body : List Operation}
    (h : Respects (body ++ [Operation.label Draft.returnTarget, .return])) :
    ∀ op ∈ body, ∀ l ∈ op.targets, l = Draft.returnTarget ∨ l ∈ labelsIn body := by
  intro op hop l hl
  have hplaced := h.targets_placed op (mem_append_left _ hop) l hl
  rw [labelsIn_append] at hplaced
  rcases mem_append.mp hplaced with hin | hend
  · exact .inr hin
  · exact .inl (mem_singleton.mp hend)

/-! ## Functions -/

/-- Where `lowerBody` succeeds in the global scope of a program, every label that was handed out is
placed once, and the label of the end not yet; the body branches only to these labels and to the
end; a label is placed only where it was not placed before, also when the end is; and the draft is
finished without a fault, so that `lowerFunction` succeeds. Its final operations are a body with the
same labels, and then the label of the end and the return. -/
theorem labels_are_placed_once (p : Program) (decl : FunctionDecl) (id : FunctionId)
    (name : String) (scope : Scope) (tokens : TokenTable) (s' : LowerState)
    (hscope : SameGlobals p.declared.scope scope)
    (h : lowerBody decl ⟨{ id := id, name := name }, scope, tokens⟩ = .ok () s') :
    let code := s'.draft.code
    (∀ l, (labelsIn code).count l =
      if Draft.returnTarget < l ∧ l < s'.draft.labelCount then 1 else 0) ∧
    (∀ op ∈ code, ∀ l ∈ op.targets, l = Draft.returnTarget ∨ l ∈ labelsIn code) ∧
    (∀ before l after,
      code ++ [Operation.label Draft.returnTarget] = before ++ Operation.label l :: after →
      l ∉ labelsIn before) ∧
    ∃ r, s'.draft.finish = .ok r ∧
      (∃ r', lowerFunction decl ⟨{ id := id, name := name }, scope, tokens⟩ = .ok r' s' ∧
        r'.ops = r.ops) ∧
      (∃ body, r.ops.map Op.operation = body ++ [Operation.label Draft.returnTarget, .return] ∧
        labelsIn body = labelsIn code ∧ ∀ op ∈ body, ∀ l ∈ op.targets,
          l = Draft.returnTarget ∨ l ∈ labelsIn body) := by
  intro code
  obtain ⟨ps, hfunction, hcode⟩ := lowerBody_code h
  have hinert : ∀ piece ∈ ps, piece.IsInert := fun piece hpiece =>
    isInert_of_accounted
      (hfunction.accounted (inner_declare _ p) (over_of_sameGlobals hscope) piece hpiece)
  have hfresh : Fresh 1 s'.draft.labelCount s'.draft.code :=
    hcode ▸ hfunction.fresh.congr (labelsIn_codeOf hinert)
  have hregular : Regular {} 1 [] s'.draft.code := hcode ▸ hfunction.regular hinert
  have hrespects : Respects (openingCode s'.draft ++
      elide (s'.draft.code ++ [Operation.label Draft.returnTarget, .return])) := by
    rw [hcode]
    exact (hfunction.respects hinert).1
  have hnodup : (labelsIn (code ++ [Operation.label Draft.returnTarget])).Nodup := by
    have := nodup_labelsIn_program hfresh
    rw [labelsIn_append] at this ⊢
    exact this
  obtain ⟨r, hfinish⟩ := exists_finish hrespects
  obtain ⟨body, hbody, -, hlabels, -⟩ := elide_append code [.label Draft.returnTarget, .return]
  have helide : elide (code ++ [Operation.label Draft.returnTarget, .return]) =
      body ++ [Operation.label Draft.returnTarget, .return] := hbody
  refine ⟨hfresh.count, (Respects.of_regular hregular).body_targets,
    fun _ _ _ => nodup_labelsIn_split hnodup, r, hfinish,
    ⟨_, lowerFunction_of_finish h hfinish, rfl⟩, openingCode s'.draft ++ body, ?_, ?_, ?_⟩
  · rw [(operations_of_finish hfinish).2, helide, append_assoc]
  · -- the operation that opens the slots places no label
    rw [labelsIn_append, hlabels]
    unfold openingCode
    split <;> rfl
  · rw [helide, ← append_assoc] at hrespects
    exact hrespects.body_targets

/-- The state in which the function is lowered as the first one of its program. -/
def retryingStart : LowerState :=
  ⟨{ id := 0, name := "retry" }, retryingProgram.declared.scope, .empty⟩

theorem labels_are_placed_once_retrying :
    ∃ s' r, lowerBody retrying retryingStart = .ok () s' ∧ s'.draft.labelCount = 7 ∧
      s'.draft.finish = .ok r ∧
      ∀ l, (labelsIn s'.draft.code).count l = if 0 < l ∧ l < 7 then 1 else 0 := by
  have hrun : (do lowerBody retrying; return (← get).draft.labelCount : Lower Nat).run'
      retryingStart = some 7 := by
    decide +kernel
  obtain ⟨_, hok⟩ := exists_of_run' hrun
  obtain ⟨_, s', hbody, hrest⟩ := exists_of_bind hok
  have hreturn := next_of_bind rfl hrest
  obtain ⟨hlabels, -⟩ := EStateM.Result.ok.inj hreturn
  have hplaced := labels_are_placed_once retryingProgram retrying 0 "retry"
    retryingProgram.declared.scope .empty s' ⟨rfl, rfl, rfl⟩ hbody
  obtain ⟨hcount, -, -, r, hfinish, -⟩ := hplaced
  rw [hlabels] at hcount
  exact ⟨s', r, hbody, hlabels, hfinish, hcount⟩

end ContractScript
