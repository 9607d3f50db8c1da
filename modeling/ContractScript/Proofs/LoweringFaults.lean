import ContractScript.Proofs.Independence
import ContractScript.Proofs.OpenLabels

/-!
# Faults of lowering

A function that fails is dropped with its draft. All static variables share one draft, so what the
failing ones left there stays, and a label that they left open is found at its end.
-/

namespace ContractScript

open List

variable {p : Program} {l : Lowering} {id : FunctionId} {name : String} {decl : FunctionDecl}
  {s : LowerState} {d : Declarations}

open Lower

/-! ## Static variables -/

/-- The fault that a step ends with, if it fails. -/
def Lower.fault? {α : Type} (step : Lower α) (s : LowerState) : Option Diagnostic :=
  match step s with
  | .ok _ _ => none
  | .error e _ => some e

/-- What never fails adds no fault. -/
theorem Lower.fault?_bind {α β : Type} {step : Lower α} {next : α → Lower β}
    (h : ∀ a t, Lower.fault? (next a) t = none) (s : LowerState) :
    Lower.fault? (step >>= next) s = Lower.fault? step s := by
  cases hs : step s with
  | ok a t =>
    have hnext : Lower.fault? (step >>= next) s = Lower.fault? (next a) t := by
      rw [Lower.fault?, bind_of_ok hs]
      rfl
    rw [hnext, h, Lower.fault?, hs]
  | error e t => rw [Lower.fault?, Lower.fault?, bind_of_error hs, hs]

/-- A mark changes only the place of the first operation of a step that succeeds. -/
theorem Lower.LeavesOpen.markFrom {p : Program} {body : Lower Unit} {o : LowerState → Option Label}
    (h : LeavesOpen p body o) (span : Span) : LeavesOpen p (markFrom span body) o := by
  intro s hscope
  obtain ⟨hok, ops, hbehind⟩ := h s hscope
  have hmark : Lower.markFrom span body s =
      (body >>= fun _ => onDraft (·.mark s.draft.ops.size span)) s := rfl
  rw [hmark]
  cases hs : body s with
  | ok a t =>
    rw [hs, hok a t hs] at hbehind
    rw [bind_of_ok hs, hok a t hs]
    refine ⟨fun _ _ _ => rfl, ops.modify 0 fun op =>
      { op with location := op.location.or (some span) }, hbehind.toLeftover.relocate ?_, ?_,
      hbehind.scope_eq, hbehind.name_eq⟩
    · cases ops <;> rfl
    · have hops : t.draft.ops.toList = s.draft.ops.toList ++ ops := hbehind.ops_eq
      exact Draft.ops_mark span hops
  | error e t =>
    rw [hs] at hbehind
    rw [bind_of_error hs]
    exact ⟨nofun, ops, hbehind⟩

namespace StaticDecl

/-- The fault of the initial value of a static variable. -/
def fault? (decl : StaticDecl) (s : LowerState) : Option Diagnostic :=
  decl.init.bind fun value => Lower.fault? (lowerExpr value) s

/-- The `Label` that the initial value leaves open. -/
def openLabel? (decl : StaticDecl) (s : LowerState) : Option Label :=
  decl.init.bind fun value => ContractScript.openLabel? value s

end StaticDecl

/-- `lowerStatic` fails where the initial value does. -/
theorem fault?_lowerStatic (decl : StaticDecl) (index : Nat) (s : LowerState) :
    Lower.fault? (lowerStatic decl index) s = decl.fault? s := by
  unfold lowerStatic StaticDecl.fault?
  cases decl.init with
  | none => rfl
  | some value =>
    have hmarked (body : Lower Unit) : Lower.fault? (markFrom decl.span body) s =
        Lower.fault? (body >>= fun _ => onDraft (·.mark s.draft.ops.size decl.span)) s := rfl
    dsimp only [Option.bind_some]
    rw [hmarked, Lower.fault?_bind fun _ _ => rfl, Lower.fault?_bind fun _ _ => rfl]

/-- `lowerStatic` leaves open what the initial value leaves open. -/
theorem lowerStatic_leavesOpen (decl : StaticDecl) (index : Nat) :
    LeavesOpen p (lowerStatic decl index) decl.openLabel? := by
  unfold lowerStatic StaticDecl.openLabel?
  cases decl.init with
  | none => exact tidy_pure ()
  | some value =>
    exact ((lowerExpr_leavesOpen value).andThen fun _ _ => tidy_emit rfl).markFrom decl.span

theorem lowerStatics_cons (decl : StaticDecl) (rest : List StaticDecl) (index : Nat)
    (s : LowerState) :
    lowerStatics (decl :: rest) index s =
      ((decl.fault? s).toList ++
          (lowerStatics rest (index + 1) (finalState (lowerStatic decl index s))).1,
        (lowerStatics rest (index + 1) (finalState (lowerStatic decl index s))).2) := by
  rw [lowerStatics, ← fault?_lowerStatic decl index, Lower.fault?]
  cases lowerStatic decl index s <;> rfl

/-- `lowerStatics` goes on from where those before it end. -/
theorem lowerStatics_append : ∀ (decls more : List StaticDecl) (index : Nat) (s : LowerState),
    lowerStatics (decls ++ more) index s =
      ((lowerStatics decls index s).1 ++
          (lowerStatics more (index + decls.length) (lowerStatics decls index s).2).1,
        (lowerStatics more (index + decls.length) (lowerStatics decls index s).2).2)
  | [], _, _, _ => rfl
  | decl :: rest, more, index, s => by
    rw [cons_append, lowerStatics_cons, lowerStatics_append rest, lowerStatics_cons,
      length_cons, Nat.add_assoc, Nat.add_comm 1, append_assoc]

/-- The state in which a static variable is lowered, after those with lower indices. -/
def stateBefore (decls : List StaticDecl) (s : LowerState) (k : Nat) : LowerState :=
  (lowerStatics (decls.take k) 0 s).2

/-- Every static variable is lowered in `stateBefore` it, and the first that leaves a label open
decides. -/
theorem lowerStatics_spec {p : Program} (decls : List StaticDecl) {s : LowerState}
    (hscope : SameGlobals p.declared.scope s.scope) : ∀ k ≤ decls.length,
    (lowerStatics (decls.take k) 0 s).1 =
        (decls.take k).zipIdx.filterMap (fun x => x.1.fault? (stateBefore decls s x.2)) ∧
      ∃ ops, LeavesBehind s (stateBefore decls s k)
        ((decls.take k).zipIdx.findSome? fun x => x.1.openLabel? (stateBefore decls s x.2)) ops
  | 0, _ => ⟨rfl, [], .refl s⟩
  | k + 1, hk => by
    obtain ⟨hfaults, ops, hbehind⟩ := lowerStatics_spec decls hscope k (Nat.le_of_lt hk)
    obtain ⟨-, ops', hbehind'⟩ := lowerStatic_leavesOpen decls[k] k (stateBefore decls s k)
      (hbehind.scope_eq ▸ hscope)
    have htake : decls.take (k + 1) = decls.take k ++ [decls[k]] := by
      rw [take_add_one, getElem?_eq_getElem hk]
      rfl
    have hlength : (decls.take k).length = k := length_take_of_le (Nat.le_of_lt hk)
    have hrun : lowerStatics (decls.take (k + 1)) 0 s =
        ((lowerStatics (decls.take k) 0 s).1 ++ (decls[k].fault? (stateBefore decls s k)).toList,
          finalState (lowerStatic decls[k] k (stateBefore decls s k))) := by
      rw [htake, lowerStatics_append, hlength, lowerStatics_cons, Nat.zero_add, lowerStatics,
        append_nil]
      rfl
    -- a static variable that fails leaves its state to the next one
    have hstate : stateBefore decls s (k + 1) =
        finalState (lowerStatic decls[k] k (stateBefore decls s k)) :=
      congrArg Prod.snd hrun
    have hlast {β : Type} (f : StaticDecl × Nat → Option β) :
        (([decls[k]] : List StaticDecl).zipIdx k).filterMap f = (f (decls[k], k)).toList ∧
          (([decls[k]] : List StaticDecl).zipIdx k).findSome? f = f (decls[k], k) := by
      cases hf : f (decls[k], k) <;> simp [hf]
    rw [hrun, hstate, htake, zipIdx_append, hlength, Nat.zero_add, filterMap_append,
      findSome?_append, hfaults, (hlast _).1, (hlast _).2]
    exact ⟨rfl, ops ++ ops', hbehind.trans hbehind'⟩

/-! ## The end of a draft -/

/-- The end of a function places its own label only. -/
theorem danglingTarget?_finishedOps {d : Draft}
    (h : ∀ op ∈ d.code, ∀ l ∈ op.targets, l ≠ Draft.returnTarget) :
    danglingTarget? (d.finishedOps d.ops) = danglingTarget? d.ops.toList := by
  have hbody : danglingTarget? (elideJumps (d.ops.toList ++
      [⟨.label Draft.returnTarget, none⟩, ⟨.return, none⟩])) = danglingTarget? d.ops.toList := by
    rw [danglingTarget?_elideJumps, danglingTarget?_append]
    · exact Option.or_none
    · exact fun op hop l hl hend => h op hop l hl (mem_singleton.mp hend)
    · simp [Operation.targets]
  unfold Draft.finishedOps
  dsimp only
  split
  · exact hbody
  · rw [← singleton_append, danglingTarget?_append, hbody]
    · rfl
    · simp [Operation.targets]
    · intro _ _ _ _ hopening
      cases hopening

/-- `finishDraft` fails on a draft with a label left open, and the fault is about the branch to it.
-/
theorem fault?_finishDraft {t : LowerState} {o : Option Label} {ops : List Op}
    (h : LeavesBehind (l.start id name) t o ops) :
    Lower.fault? finishDraft t = o.map fun target => .encoding (.invalidTarget name
      ("branch to label " ++ Text.decimalNat target) none) := by
  have hget : (get : Lower LowerState) t = .ok t t := rfl
  have hname : t.draft.name = name := h.name_eq
  have hops : t.draft.ops.toList = ops := h.ops_eq
  have hfinished : danglingTarget? (t.draft.finishedOps t.draft.ops) = danglingTarget? ops := by
    rw [danglingTarget?_finishedOps, hops]
    intro op hop target htarget heq
    rw [Draft.code, hops] at hop
    -- the labels of a new draft start after that of the end
    have hle : 1 ≤ target := (h.targets op hop target htarget).1
    cases heq
    cases hle
  have hdangling := h.dangling
  rw [Lower.fault?, finishDraft, bind_of_ok hget]
  cases hopen : danglingTarget? ops with
  | none =>
    rw [hopen] at hdangling hfinished
    rw [Draft.finish_of_none hfinished, Option.map_eq_none_iff.mp hdangling.symm]
    rfl
  | some x =>
    obtain ⟨op, target⟩ := x
    rw [hopen] at hdangling hfinished
    obtain ⟨_, rfl, heq⟩ := Option.map_eq_some_iff.mp hdangling.symm
    obtain ⟨hlocation, rfl⟩ := Prod.mk.inj heq
    rw [Draft.finish_of_some hfinished, ← hlocation, hname]
    rfl

/-! ## Functions -/

/-- A body that is lowered is finished. -/
theorem exists_finish_of_lowerBody {scope : Scope} {tokens : TokenTable} {s' : LowerState}
    (hscope : SameGlobals p.declared.scope scope)
    (h : lowerBody decl ⟨{ id := id, name := name }, scope, tokens⟩ = .ok () s') :
    ∃ r, s'.draft.finish = .ok r := by
  obtain ⟨ps, hfunction, hcode⟩ := lowerBody_code h
  have hinert : ∀ piece ∈ ps, piece.IsInert := fun piece hpiece =>
    isInert_of_accounted
      (hfunction.accounted (inner_declare _ p) (over_of_sameGlobals hscope) piece hpiece)
  refine exists_finish ?_
  rw [hcode]
  exact (hfunction.respects hinert).1

/-- `lowerFunction` fails where the parameters or the body do. -/
theorem fault?_lowerFunction (hscope : SameGlobals p.declared.scope l.scope) (id : FunctionId)
    (name : String) : Lower.fault? (lowerFunction decl) (l.start id name) =
      Lower.fault? (lowerBody decl) (l.start id name) := by
  cases hbody : lowerBody decl (l.start id name) with
  | ok a t =>
    obtain ⟨r, hfinish⟩ := exists_finish_of_lowerBody hscope hbody
    rw [Lower.fault?, Lower.fault?, lowerFunction_of_finish hbody hfinish, hbody]
  | error e t =>
    have hfunction : lowerFunction decl (l.start id name) = .error e t := bind_of_error hbody
    rw [Lower.fault?, Lower.fault?, hfunction, hbody]

/-! ## Programs -/

/-- Whether a fault is about a branch to a label that is not placed. -/
def Diagnostic.isInvalidTarget : Diagnostic → Bool
  | .encoding (.invalidTarget _ _ _) => true
  | _ => false

/-- No step of lowering reports a branch. -/
theorem lawful_isInvalidTarget :
    Lawful (fun _ _ => True) (fun e => e.isInvalidTarget = false) where
  refl _ := trivial
  trans _ _ := trivial
  draft _ _ _ := trivial
  push _ _ := trivial
  token _ _ := trivial
  enclosed _ _ := trivial
  symbol _ := rfl
  lowering _ := rfl
  tooLarge _ _ _ _ _ := rfl

theorem isInvalidTarget_of_fault? {α : Type} {step : Lower α}
    (h : Keeps (fun _ _ => True) (fun e => e.isInvalidTarget = false) step) {e : Diagnostic}
    (he : Lower.fault? step s = some e) : e.isInvalidTarget = false := by
  unfold Lower.fault? at he
  cases hs : step s with
  | ok a t =>
    rw [hs] at he
    cases he
  | error e' t =>
    rw [hs] at he
    cases he
    exact ((h s).2 e t hs).2

theorem faultOf?_outcomeOf (step : Lower Routine) (s : LowerState) :
    faultOf? (outcomeOf (step s)) = Lower.fault? step s := by
  unfold Lower.fault?
  cases step s <;> rfl

namespace Declarations

/-- The faults of the functions whose parameters or body cannot be lowered, in order. -/
def functionFaults (d : Declarations) : List Diagnostic :=
  d.functions.zipIdx.filterMap fun (decl, j) =>
    Lower.fault? (lowerBody decl) ((d.before j).start j decl.id.name)

/-- The state in which the first static variable is lowered. -/
def initializerStart (d : Declarations) (id : FunctionId) : LowerState :=
  let s := (d.before d.functions.length).start id initializerName
  { s with draft := s.draft.emit (.initStatics d.statics.length) }

/-- The faults of the static variables whose initial value cannot be lowered, in order. They are
lowered in the function that fills their slots. -/
def staticFaults (d : Declarations) : List Diagnostic :=
  match d.initializer with
  | none => []
  | some id => d.statics.zipIdx.filterMap fun (decl, k) =>
    decl.fault? (stateBefore d.statics (d.initializerStart id) k)

/-- The `Label` that the first of the static variables to do so leaves open. -/
def openTarget? (d : Declarations) : Option Label :=
  match d.initializer with
  | none => none
  | some id => d.statics.zipIdx.findSome? fun (decl, k) =>
    decl.openLabel? (stateBefore d.statics (d.initializerStart id) k)

section

variable (hscope : d.scope = p.declared.scope)
include hscope

theorem filterMap_outcomes : d.outcomes.filterMap faultOf? = d.functionFaults := by
  have houtcomes : d.outcomes = d.functions.zipIdx.map fun (decl, j) =>
      outcomeOf (lowerFunction decl ((d.before j).start j decl.id.name)) := by
    refine ext_getElem? fun j => ?_
    rw [outcomes, Lowering.getElem?_outcomes, getElem?_map, getElem?_zipIdx,
      Option.map_map]
    simp only [Nat.zero_add]
    rfl
  rw [houtcomes, filterMap_map, functionFaults]
  congr 1
  funext x
  obtain ⟨decl, j⟩ := x
  have hbefore : SameGlobals p.declared.scope (d.before j).scope :=
    hscope ▸ (Lowering.continues_addFunctions (d.functions.take j) { scope := d.scope } 0).scope
  exact (faultOf?_outcomeOf _ _).trans (fault?_lowerFunction hbefore j decl.id.name)

/-- The scope of a program is that of its functions and static variables. -/
theorem sameGlobals_initializerStart (id : FunctionId) :
    SameGlobals p.declared.scope (d.initializerStart id).scope :=
  hscope ▸ (Lowering.continues_addFunctions (d.functions.take d.functions.length)
    { scope := d.scope } 0).scope

/-- `addInitializer` reports the `staticFaults`, and a label that is left open. -/
theorem faults_addInitializer (hid : d.initializer = some id) :
    ((d.before d.functions.length).addInitializer id d.statics).faults =
      (d.before d.functions.length).faults ++ d.staticFaults ++
        (d.openTarget?.map fun l => Diagnostic.encoding (.invalidTarget initializerName
          ("branch to label " ++ Text.decimalNat l) none)).toList := by
  obtain ⟨hfaults, ops, hbehind⟩ := lowerStatics_spec d.statics
    (sameGlobals_initializerStart hscope id) d.statics.length (Nat.le_refl _)
  rw [take_length] at hfaults hbehind
  have hopening : LeavesBehind ((d.before d.functions.length).start id initializerName)
      (d.initializerStart id) none [⟨.initStatics d.statics.length, none⟩] := .emit rfl _
  have hfinish := fault?_finishDraft (hopening.trans hbehind)
  rw [stateBefore, take_length] at hfinish
  rw [Lowering.addInitializer]
  dsimp only
  rw [Lowering.faults_collect_eq, faultOf?_outcomeOf, Lower.fault?_bind fun _ _ => rfl]
  rw [staticFaults, openTarget?, hid]
  exact congrArg₂ (· ++ ·) (congrArg (_ ++ ·) hfaults) (congrArg Option.toList hfinish)

end

/-- What leaves a label open fails. -/
theorem exists_fault_of_openLabel? {decl : StaticDecl} {l : Label}
    (hscope : SameGlobals p.declared.scope s.scope) (h : decl.openLabel? s = some l) :
    ∃ e, decl.fault? s = some e := by
  obtain ⟨value, hvalue, hopen⟩ := Option.bind_eq_some_iff.mp h
  rw [StaticDecl.fault?, hvalue, Option.bind_some, Lower.fault?]
  cases hs : lowerExpr value s with
  | ok a t =>
    have hnone := (lowerExpr_leavesOpen value s hscope).1 a t hs
    cases hnone.symm.trans hopen
  | error e t => exact ⟨e, rfl⟩

/-- The static variable that leaves the label of `openTarget?` open is among those that fail. -/
theorem exists_fault_of_openTarget? (hscope : d.scope = p.declared.scope) {l : Label}
    (h : d.openTarget? = some l) :
    ∃ id decl k e, d.initializer = some id ∧ (decl, k) ∈ d.statics.zipIdx ∧
      decl.openLabel? (stateBefore d.statics (d.initializerStart id) k) = some l ∧
      decl.fault? (stateBefore d.statics (d.initializerStart id) k) = some e ∧
      e ∈ d.staticFaults := by
  unfold openTarget? at h
  cases hid : d.initializer with
  | none =>
    rw [hid] at h
    cases h
  | some id =>
    rw [hid] at h
    obtain ⟨⟨decl, k⟩, hmem, hopen⟩ := exists_of_findSome?_eq_some h
    have hk : k < d.statics.length := by
      obtain ⟨-, hlt, -⟩ := mem_zipIdx hmem
      omega
    have hstart := sameGlobals_initializerStart hscope id
    obtain ⟨-, _, hbehind⟩ := lowerStatics_spec d.statics hstart k (Nat.le_of_lt hk)
    obtain ⟨e, he⟩ := exists_fault_of_openLabel? (hbehind.scope_eq ▸ hstart) hopen
    refine ⟨id, decl, k, e, rfl, hmem, hopen, he, ?_⟩
    rw [staticFaults, hid]
    exact mem_filterMap.mpr ⟨(decl, k), hmem, he⟩

/-- Only a value `isGuarded` by a short-circuit operator leaves a label open. -/
theorem openTarget?_of_unguarded
    (h : ∀ decl ∈ d.statics, ∀ value ∈ decl.init, value.isGuarded = false) :
    d.openTarget? = none := by
  unfold openTarget?
  split
  · rfl
  · rw [findSome?_eq_none_iff]
    intro x hx
    have hdecl : x.1 ∈ d.statics := fst_mem_of_mem_zipIdx hx
    refine Option.bind_eq_none_iff.mpr fun value hvalue => ?_
    rw [openLabel?_of_unguarded value (h x.1 hdecl value hvalue)]

/-- The faults of functions and static variables are about no branch. -/
theorem isInvalidTarget_of_mem :
    ∀ e ∈ d.functionFaults ++ d.staticFaults, e.isInvalidTarget = false := by
  refine forall_mem_append.mpr ⟨fun e he => ?_, fun e he => ?_⟩
  · obtain ⟨⟨decl, j⟩, -, hfault⟩ := mem_filterMap.mp he
    have hbody := (lowerBody_keeps lawful_isInvalidTarget decl).inScope lawful_isInvalidTarget
      decl.id.name
    exact isInvalidTarget_of_fault? hbody hfault
  · unfold staticFaults at he
    split at he
    · cases he
    · obtain ⟨⟨decl, k⟩, -, hfault⟩ := mem_filterMap.mp he
      obtain ⟨value, -, hvalue⟩ := Option.bind_eq_some_iff.mp hfault
      exact isInvalidTarget_of_fault? (lowerExpr_keeps lawful_isInvalidTarget value) hvalue

end Declarations

/-- `Program.lowered` reports one fault for every function whose parameters or body cannot be
lowered, and then one for every static variable whose initial value cannot; none of these is about a
branch. One more fault follows where a static variable fails inside of the right operand of a
short-circuit operator: the operator is left without its end, and the first branch that leads
nowhere is reported, beside the fault of that static variable itself. So no other fault follows
where no initial value has such an operator. -/
theorem lowering_reports_failures (p : Program) (d : Declarations)
    (hscope : d.scope = p.declared.scope) :
    (lowerProgram d).faults = d.functionFaults ++ d.staticFaults ++
      (d.openTarget?.map fun l => Diagnostic.encoding (.invalidTarget initializerName
        ("branch to label " ++ Text.decimalNat l) none)).toList ∧
    (∀ e ∈ d.functionFaults ++ d.staticFaults, e.isInvalidTarget = false) ∧
    (∀ l, d.openTarget? = some l →
      ∃ id decl k e, d.initializer = some id ∧ (decl, k) ∈ d.statics.zipIdx ∧
        decl.openLabel? (stateBefore d.statics (d.initializerStart id) k) = some l ∧
        decl.fault? (stateBefore d.statics (d.initializerStart id) k) = some e ∧
        e ∈ d.staticFaults) ∧
    ((∀ decl ∈ d.statics, ∀ value ∈ decl.init, value.isGuarded = false) →
      d.openTarget? = none) := by
  have hfunctions : (d.before d.functions.length).faults = d.functionFaults := by
    rw [← Declarations.filterMap_outcomes hscope, Declarations.before, take_length]
    exact Lowering.faults_addFunctions_eq d.functions { scope := d.scope } 0
  have hprogram : lowerProgram d = match d.initializer with
      | none => d.before d.functions.length
      | some id => (d.before d.functions.length).addInitializer id d.statics := by
    rw [Declarations.before, take_length]
    rfl
  refine ⟨?_, Declarations.isInvalidTarget_of_mem,
    fun l => Declarations.exists_fault_of_openTarget? hscope, Declarations.openTarget?_of_unguarded⟩
  cases hid : d.initializer with
  | none =>
    rw [hprogram, hid, Declarations.staticFaults, Declarations.openTarget?, hid]
    simpa using hfunctions
  | some id =>
    rw [hprogram, hid, ← hfunctions]
    exact Declarations.faults_addInitializer hscope hid

/-- A name that no declaration gives. -/
def missing : Expr :=
  .ident ⟨"missing", {}⟩ .boolean {}

/-- A value whose right operand fails. -/
def failingRight (op : BinaryOp) : Expr :=
  .binary op (.literal (.bool true) .boolean {}) missing .boolean {}

/-- A static variable with an initial value. -/
def initialized (name : String) (value : Expr) : Item :=
  .static ⟨⟨name, {}⟩, .boolean, some value, {}⟩

/-- A function and two static variables fail beside the one that is left without its end first. -/
def mixedFailures : Program :=
  let function : FunctionDecl := {
    id := ⟨"f", {}⟩
    params := []
    returnType := .void
    body := some ⟨[.expr (failingRight .logicalAnd) {}], {}⟩
    isExport := true
    isSafe := false
    tags := []
    span := {} }
  ⟨[], [.function function, initialized "a" missing, initialized "b" (failingRight .logicalAnd),
    initialized "c" (.paren (failingRight .logicalOr) {})]⟩

theorem lowering_reports_failures_mixed :
    mixedFailures.declared.functionFaults = [.symbol (.unresolved "missing" {})] ∧
    mixedFailures.declared.staticFaults =
      List.replicate 3 (.symbol (.unresolved "missing" {})) ∧
    mixedFailures.declared.openTarget? = some 1 ∧
    (lowerProgram mixedFailures.declared).faults =
      List.replicate 4 (.symbol (.unresolved "missing" {})) ++
        [.encoding (.invalidTarget "_initialize" "branch to label 1" none)] := by
  have hfunctions : mixedFailures.declared.functionFaults =
      [.symbol (.unresolved "missing" {})] := by
    decide +kernel
  have hstatics : mixedFailures.declared.staticFaults =
      List.replicate 3 (.symbol (.unresolved "missing" {})) := by
    decide +kernel
  have hopen : mixedFailures.declared.openTarget? = some 1 := by
    decide +kernel
  obtain ⟨hfaults, -⟩ := lowering_reports_failures mixedFailures mixedFailures.declared rfl
  refine ⟨hfunctions, hstatics, hopen, ?_⟩
  rw [hfaults, hfunctions, hstatics, hopen]
  decide +kernel

/-- One static variable whose value fails inside of the right operand of `&&`. -/
def guardedFailure : Program :=
  ⟨[], [initialized "x" (failingRight .logicalAnd)]⟩

/-- One declaration fails, and two faults are reported. -/
theorem guarded_failure_is_reported_twice :
    guardedFailure.declared.functionFaults = [] ∧
    guardedFailure.declared.staticFaults = [.symbol (.unresolved "missing" {})] ∧
    (lowerProgram guardedFailure.declared).faults = [.symbol (.unresolved "missing" {}),
      .encoding (.invalidTarget "_initialize" "branch to label 1" none)] := by
  decide +kernel

end ContractScript
