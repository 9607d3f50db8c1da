import ContractScript.Proofs.LoweringFaults
import ContractScript.Proofs.StatementPoints

/-!
# The debug map

The points of a contract are ascending and complete: every statement has its place at the address of
the operation that it starts with, unless that operation was left out, which only happens to exits.
-/

namespace ContractScript

open List

variable {d : Draft} {r : Routine} {j k i : Nat} {p : Program} {decl : FunctionDecl} {body : Block}
  {s s' : LowerState} {isBare : Bool} {op : Operation} {span : Span} {tokens : TokenTable}
  {chunks : List Chunk} {script : Script}

open Lower

/-! ## Finished functions -/

/-- How many `Operation`s before an index stay where needless jumps are left out. -/
def keptBefore : List Operation → Nat → Nat
  | op :: rest, j + 1 => (if fallsThrough op rest then 0 else 1) + keptBefore rest j
  | _, _ => 0

/-- `elideJumps` moves an operation that is not `Needless` forward to its new index. -/
theorem getElem?_elideJumps {op : Op} : ∀ {ops : List Op} {j : Nat}, ops[j]? = some op →
    ¬ Needless (ops.map Op.operation) j →
    (elideJumps ops)[keptBefore (ops.map Op.operation) j]? = some op
  | first :: rest, 0, hj, hkept => by
    have hfirst : isFallthrough first.operation rest = false := by
      rw [isFallthrough_eq, Bool.eq_false_iff]
      exact fun hfalls => hkept (needless_zero_iff.mpr hfalls)
    rw [elideJumps, hfirst]
    exact hj
  | first :: rest, j + 1, hj, hkept => by
    have hrest : (elideJumps rest)[keptBefore (rest.map Op.operation) j]? = some op :=
      getElem?_elideJumps hj hkept
    rw [elideJumps, isFallthrough_eq, map_cons, keptBefore]
    split
    · rw [Nat.zero_add]
      exact hrest
    · rw [Nat.add_comm, getElem?_cons_succ]
      exact hrest

namespace Draft

/-- The operations of a `Draft`, with the return that they end with. -/
def endedOps (d : Draft) : List Op :=
  d.ops.toList ++ [⟨.label returnTarget, none⟩, ⟨.return, none⟩]

/-- The operation at an index is left out when the `Draft` is finished. -/
def LeavesOut (d : Draft) (j : Nat) : Prop :=
  Needless (d.endedOps.map Op.operation) j

/-- Where the operation at an index stands in the finished function. -/
def indexOf (d : Draft) (j : Nat) : Nat :=
  (openingCode d).length + keptBefore (d.endedOps.map Op.operation) j

end Draft

/-- A finished draft opens its slots and drops its needless jumps. -/
theorem ops_of_finish (h : d.finish = .ok r) :
    r.ops = (openingCode d).map (⟨·, none⟩) ++ elideJumps d.endedOps := by
  cases hdangling : danglingTarget? (d.finishedOps d.ops) with
  | some found =>
    rw [Draft.finish_of_some hdangling] at h
    cases h
  | none =>
    rw [Draft.finish_of_none hdangling] at h
    cases h
    unfold Draft.finishedOps openingCode
    dsimp only
    split <;> rfl

/-- Where an operation of a draft stands in the finished function: at `indexOf`. -/
theorem getElem?_of_finish (h : d.finish = .ok r) {op : Op} (hj : d.ops.toList[j]? = some op)
    (hkept : ¬ d.LeavesOut j) : r.ops[d.indexOf j]? = some op := by
  have hended : d.endedOps[j]? = some op := by
    rw [Draft.endedOps, getElem?_append_left (List.getElem?_eq_some_iff.mp hj).1, hj]
  rw [ops_of_finish h, Draft.indexOf, ← length_map (f := fun op => (⟨op, none⟩ : Op)),
    getElem?_append_right (Nat.le_add_right _ _), Nat.add_sub_cancel_left]
  exact getElem?_elideJumps hended hkept

/-! ## Functions of a program -/

/-- The routine with a number is what a `Draft` is finished to. -/
def FinishedAs (p : Program) (k : Nat) (d : Draft) : Prop :=
  ∃ r finished, p.lowered.routines[k]? = some r ∧ d.finish = .ok finished ∧ r.ops = finished.ops

/-- The body of a function is lowered from a state, in which its parameters are declared, to a state
whose draft is finished. -/
structure BodyRun (p : Program) (k : Nat) (decl : FunctionDecl) (body : Block)
    (s s' : LowerState) : Prop where
  start : ∃ scope tokens, SameGlobals p.declared.scope scope ∧
    defineParams decl.params ⟨{ id := k, name := decl.id.name }, scope.enter decl.id.name, tokens⟩ =
      .ok () s
  body : lowerBlock body s = .ok () s'
  finished : FinishedAs p k s'.draft

/-- The initial values of the static variables are lowered from a state, in which their slots are
open, to a state whose draft is finished. -/
structure StaticsRun (p : Program) (s s' : LowerState) : Prop where
  start : ∃ l : Lowering, SameGlobals p.declared.scope l.scope ∧
    s = l.opened p.functions.length p.statics.length
  statics : lowerStatics p.statics 0 s = ([], s')
  finished : FinishedAs p p.functions.length s'.draft

/-- Without faults, every function with a body has a `BodyRun`. -/
theorem exists_bodyRun (h : p.lowered.faults = []) (hk : p.functions[k]? = some decl)
    (hbody : decl.body = some body) : ∃ s s', BodyRun p k decl body s s' := by
  obtain ⟨⟨_, hall⟩, hcount⟩ := routinesCode_lowered h
  have hlt : k < p.lowered.routines.length := by
    have := (List.getElem?_eq_some_iff.mp hk).1
    omega
  have hr := getElem?_eq_getElem hlt
  generalize p.lowered.routines[k] = r at hr
  have hid : r.id = k := (hall.get hr).1
  subst hid
  obtain ⟨scope, tokens, s₂, hsame, hlower⟩ :=
    exists_lowerFunction (mem_of_getElem? hr) hk
  obtain ⟨finished, hfinish, hinside, heq⟩ := lowerFunction_eq_ok hlower
  obtain ⟨s₁, hlowered, rfl⟩ := exists_of_bracket hinside
  obtain ⟨_, s, hparams, hblock⟩ := exists_of_bind hlowered
  rw [hbody] at hblock
  have hops : r.ops = finished.ops := by rw [heq]
  exact ⟨s, s₁, ⟨scope, tokens, hsame, hparams⟩, hblock, r, finished, hr, hfinish, hops⟩

/-- Without faults, static variables have a `StaticsRun`. -/
theorem exists_staticsRun (h : p.lowered.faults = []) (hstatics : p.statics ≠ []) :
    ∃ s s', StaticsRun p s s' := by
  obtain ⟨hfollows, hcount⟩ := follows_loweredFunctions (faults_loweredFunctions h)
  have hlast := lowered_of_statics hstatics
  rw [hlast] at h
  obtain ⟨s', finished, hlowered, hfinish, -, heq⟩ := Lowering.addInitializer_eq h
  refine ⟨_, s', ⟨_, hfollows.scope, rfl⟩, hlowered, { finished with isExport := true }, finished,
    ?_, hfinish, rfl⟩
  rw [hlast, heq]
  show (p.loweredFunctions.routines ++ [_])[_]? = _
  rw [← hcount, getElem?_append_right (Nat.le_refl _), Nat.sub_self]
  rfl

/-- A body is lowered over the global scope. -/
theorem BodyRun.over (h : BodyRun p k decl body s s') : p.declared.scope.Over s.scope := by
  obtain ⟨scope, tokens, hsame, hparams⟩ := h.start
  have hover := (over_of_sameGlobals hsame).enter decl.id.name
  exact ((piecewise_accounted (inner_declare _ p)).params
    (fun _ _ _ _ h => ⟨h.push rfl, forall_mem_nil _⟩) (defineParams_code hparams).1 hover).1

theorem StaticsRun.over (h : StaticsRun p s s') : p.declared.scope.Over s.scope := by
  obtain ⟨l, hsame, rfl⟩ := h.start
  exact over_of_sameGlobals hsame

/-- Without faults, each static variable is lowered in the state that those before it leave. -/
theorem exists_lowerStatic {decls : List StaticDecl} (h : lowerStatics decls 0 s = ([], s'))
    {decl : StaticDecl} (hi : decls[i]? = some decl) :
    ∃ t, lowerStatic decl i (stateBefore decls s i) = .ok () t ∧
      (lowerStatics (decls.drop (i + 1)) (i + 1) t).2 = s' := by
  obtain ⟨hlt, hget⟩ := List.getElem?_eq_some_iff.mp hi
  have hlength : 0 + (decls.take i).length = i := by
    rw [Nat.zero_add, length_take_of_le (Nat.le_of_lt hlt)]
  rw [← take_append_drop i decls, drop_eq_getElem_cons hlt, hget, lowerStatics_append,
    hlength, lowerStatics_cons] at h
  -- no fault in all of them is no fault in the one at this position
  obtain ⟨hfaults, hstate⟩ := Prod.mk.inj h
  have hnone := (append_eq_nil_iff.mp (append_eq_nil_iff.mp hfaults).2).1
  rw [← fault?_lowerStatic decl i, Lower.fault?] at hnone
  dsimp only at hstate
  rw [stateBefore]
  cases hstatic : lowerStatic decl i (lowerStatics (decls.take i) 0 s).2 with
  | error e t =>
    rw [hstatic] at hnone
    cases hnone
  | ok _ t =>
    rw [hstatic] at hstate
    exact ⟨t, rfl, hstate⟩

/-- The value of a static variable starts with an operation that is `Pointed` at its declaration. -/
theorem StaticsRun.exists_pointed (h : StaticsRun p s s') {decl : StaticDecl} {value : Expr}
    (hi : p.statics[i]? = some decl) (hinit : decl.init = some value) :
    ∃ op, Pointed false s'.draft (stateBefore p.statics s i).draft.ops.size op decl.span := by
  have hover : p.declared.scope.Over (stateBefore p.statics s i).scope :=
    (lowerStatics_keeps (stmtLaws_over _).toFrameLaws (p.statics.take i) 0 s).1 h.over
  obtain ⟨t, hstatic, hrest⟩ := exists_lowerStatic h.statics hi
  have hl := stmtLaws_extends.toFrameLaws
  have hextends := (lowerStatics_keeps hl (p.statics.drop (i + 1)) (i + 1) t).1
  rw [hrest] at hextends
  rw [lowerStatic, hinit] at hstatic
  have hpointed : ∃ op, Pointed false t.draft
      (stateBefore p.statics s i).draft.ops.size op decl.span :=
    markFrom_pointed hstatic fun s₁ hs₁ =>
      lowerExpr_bind_beginsKept (keeps_emit hl.toExprLaws _) hs₁ hover
  obtain ⟨op, hop⟩ := hpointed
  exact ⟨op, hop.extend hextends⟩

/-! ## What a debugger shows -/

/-- The operation at an index of a `Draft` is left out only if it is all that a statement has.
Otherwise it is carried to the script, and its place is the point at its address. -/
structure Shown (isBare : Bool) (d : Draft) (j : Nat) (span : Span) (placed : List (Nat × Cell))
    (points : List (Nat × Span)) : Prop where
  leftOut : d.LeavesOut j → isBare = true
  point : ¬ d.LeavesOut j → ∃ a cell, placed[d.indexOf j]? = some (a, cell) ∧
    d.ops.toList[j]? = some cell.op ∧ cell.op.location = some span ∧ (a, span) ∈ points

/-- A cell that is no marker takes bytes. -/
theorem width_pos {cells : List Cell} (h : Sized cells) {cell : Cell} (hcell : cell ∈ cells)
    (hmarker : cell.op.operation.isMarker = false) : 0 < cell.width := by
  refine Nat.pos_of_ne_zero fun hzero => ?_
  have hsize : cell.op.operation.size cell.form = .ok cell.width := h cell hcell
  rw [(size_eq_zero_iff hsize).mp hzero] at hmarker
  cases hmarker

/-- Only the first operation of an exit without a value is left out. -/
theorem Pointed.leftOut (h : Pointed isBare d j op span) (hleft : d.LeavesOut j) :
    isBare = true := by
  have hcode : (d.endedOps.map Op.operation)[j]? = some op := by
    rw [getElem?_map, Draft.endedOps,
      getElem?_append_left (List.getElem?_eq_some_iff.mp h.op_eq).1, h.op_eq]
    rfl
  have hkept := hleft.isKept_eq_false hcode
  cases isBare with
  | true => rfl
  | false =>
    rw [h.isKept rfl] at hkept
    cases hkept

/-- What is `Pointed` in a draft is `Shown` in the script. -/
theorem Pointed.shown (hencodes : Encodes tokens chunks script) {c : Chunk}
    (hk : chunks[k]? = some c) {finished : Routine} (hfinish : d.finish = .ok finished)
    (hops : c.ops = finished.ops) (h : Pointed isBare d j op span) :
    Shown isBare d j span ((addressesFrom (startOf chunks k) c.cells).zip c.cells)
      (methodAt chunks k c).points where
  leftOut := h.leftOut
  point hkept := by
    -- the operation is kept when the draft is finished, and then when branches are shortened
    have hop := getElem?_of_finish hfinish h.op_eq hkept
    rw [← hops, Chunk.ops, getElem?_map] at hop
    obtain ⟨cell, hcell, heq⟩ := Option.map_eq_some_iff.mp hop
    have haddress := getElem?_addressesFrom (a := startOf chunks k) hcell
    have hsized : Sized c.cells := fun cell' hcell' =>
      hencodes.fits.1 cell' (mem_flatMap.mpr ⟨c, mem_of_getElem? hk, hcell'⟩)
    -- no later operation is at its address
    have hwidth : 0 < cell.width :=
      width_pos hsized (mem_of_getElem? hcell) (by rw [heq]; exact h.isMarker)
    have hspan : cell.op.location = some span := by rw [heq]
    refine ⟨_, cell, getElem?_zip_eq_some.mpr ⟨haddress, hcell⟩, ?_, hspan, ?_⟩
    · rw [h.op_eq, heq]
    · exact mem_sequencePoints_of_width haddress hcell hwidth hspan

/-- The functions of a program are in the script, with their points. -/
theorem FinishedAs.exists_shown (h : FinishedAs p k d) (hencodes : Encodes tokens chunks script)
    (hchunks : chunks.map Chunk.ops = p.lowered.routines.map Routine.ops) :
    ∃ placed m, (layoutOf chunks).placed? chunks k = some placed ∧ script.methods[k]? = some m ∧
      ∀ {isBare j op span}, Pointed isBare d j op span →
        Shown isBare d j span placed m.points := by
  obtain ⟨r, finished, hr, hfinish, hops⟩ := h
  have hk : (chunks.map Chunk.ops)[k]? = (p.lowered.routines.map Routine.ops)[k]? := by
    rw [hchunks]
  rw [getElem?_map, getElem?_map, hr] at hk
  obtain ⟨c, hc, hcops⟩ := Option.map_eq_some_iff.mp hk
  refine ⟨_, methodAt chunks k c, ?_, ?_,
    fun hpointed => hpointed.shown hencodes hc hfinish (hcops.trans hops)⟩
  · rw [placed?_layoutOf hencodes.fits.1, hc]
    rfl
  · rw [hencodes.method, hc]
    rfl

/-- A contract is encoded from the routines of its program. -/
theorem exists_chunks {options : CompileOptions} {contract : Contract}
    (h : compile p options = .ok contract) :
    p.lowered.faults = [] ∧ ∃ chunks, chunks.map Chunk.ops = p.lowered.routines.map Routine.ops ∧
      encode p.lowered.tokens chunks = .ok ⟨contract.script, contract.methods⟩ := by
  obtain ⟨script, hcompiled⟩ := compiled_of_compile h
  obtain ⟨chunks, hshortens, hencode⟩ := exists_shortens hcompiled.built
  refine ⟨hcompiled.lowered, chunks, map_ops_of_shortens_routines hshortens, ?_⟩
  rw [hencode, hcompiled.script_eq, hcompiled.methods_eq]

/-- In every script of `encode`, the points of each method are ascending, and they are the places of
the last operations at their addresses that have one. In every contract of `compile`, each statement
that does something itself has its own place as the point at the address of the first operation that
it was lowered to (`Shown`), unless that operation was left out, and so has the condition of each
branch and loop. Only exits without a value are left out. -/
theorem debug_map_is_ordered_and_complete :
    (∀ tokens chunks script, encode tokens chunks = .ok script →
      ∃ l, layout chunks = .ok l ∧ script.methods.length = chunks.length ∧
      ∀ (k : Nat) m, script.methods[k]? = some m →
        (m.points.map Prod.fst).Pairwise (· < ·) ∧
        ∃ placed, l.placed? chunks k = some placed ∧
          ∀ a span, (a, span) ∈ m.points ↔ PlacedLast placed a span) ∧
    ∀ p options contract, compile p options = .ok contract →
      ∃ chunks l, chunks.map Chunk.ops = p.lowered.routines.map Routine.ops ∧
      encode p.lowered.tokens chunks = .ok ⟨contract.script, contract.methods⟩ ∧
      layout chunks = .ok l ∧
      (∀ (k : Nat) decl body, p.functions[k]? = some decl → decl.body = some body →
        ∃ s s' placed m, BodyRun p k decl body s s' ∧ l.placed? chunks k = some placed ∧
        contract.methods[k]? = some m ∧
        ∀ path stmt offset span, (Stmt.block body).Contains path stmt →
          stmt.point? = some (offset, span) →
          ∃ t, Visits path (.block body) s stmt t ∧
            Shown stmt.isBareExit s'.draft (t.draft.ops.size + offset) span placed m.points) ∧
      ∀ (i : Nat) decl value, p.statics[i]? = some decl → decl.init = some value →
        ∃ s s' placed m, StaticsRun p s s' ∧
        l.placed? chunks p.functions.length = some placed ∧
        contract.methods[p.functions.length]? = some m ∧
        Shown false s'.draft (stateBefore p.statics s i).draft.ops.size decl.span placed
          m.points := by
  refine ⟨fun tokens chunks script hencode => ?_, fun p options contract hcompile => ?_⟩
  · have hencodes := encodes_of_encode hencode
    exact ⟨layoutOf chunks, layout_eq_ok_iff.mpr ⟨hencodes.fits, rfl⟩,
      length_eq_of_getElem? hencodes.method, fun k m hm => hencodes.points hm⟩
  · obtain ⟨hlowered, chunks, hchunks, hencode⟩ := exists_chunks hcompile
    have hencodes := encodes_of_encode hencode
    refine ⟨chunks, layoutOf chunks, hchunks, hencode, layout_eq_ok_iff.mpr ⟨hencodes.fits, rfl⟩,
      fun k decl body hk hbody => ?_, fun i decl value hi hinit => ?_⟩
    · obtain ⟨s, s', hrun⟩ := exists_bodyRun hlowered hk hbody
      obtain ⟨placed, m, hplaced, hm, hshown⟩ := hrun.finished.exists_shown hencodes hchunks
      refine ⟨s, s', placed, m, hrun, hplaced, hm, fun path stmt offset span hin hpoint => ?_⟩
      have hblock : lowerStmt (.block body) s = .ok () s' := hrun.body
      obtain ⟨t, op, hvisits, hpointed⟩ := exists_pointed hblock hrun.over hin hpoint
      exact ⟨t, hvisits, hshown hpointed⟩
    · have hstatics : p.statics ≠ [] := ne_nil_of_mem (mem_of_getElem? hi)
      obtain ⟨s, s', hrun⟩ := exists_staticsRun hlowered hstatics
      obtain ⟨placed, m, hplaced, hm, hshown⟩ := hrun.finished.exists_shown hencodes hchunks
      obtain ⟨op, hpointed⟩ := hrun.exists_pointed hi hinit
      exact ⟨s, s', placed, m, hrun, hplaced, hm, hshown hpointed⟩

/-! ## A program with a loop -/

/-- A line of a document, from its first column on. -/
def wholeLine (line : Nat) : Span := ⟨0, line, 1, line, 9⟩

/-- Lines three to six: a loop over a static variable that is left at once. -/
def leavingBody : Block :=
  let total : Expr := .ident ⟨"total", {}⟩ .boolean (wholeLine 3)
  ⟨[.while total (.block ⟨[.break (wholeLine 4)], wholeLine 4⟩) {},
    .return (some total) (wholeLine 6)], {}⟩

/-- A static variable with a value in the first line, and the loop over it. -/
def leavingProgram : Program :=
  let leaving : FunctionDecl := {
    id := ⟨"leaving", {}⟩, params := [], returnType := .boolean, body := some leavingBody
    isExport := true, isSafe := false, tags := [], span := {} }
  ⟨[], [.static ⟨⟨"total", {}⟩, .boolean, some (.literal (.bool true) .boolean {}), wholeLine 1⟩,
    .function leaving]⟩

theorem debug_map_is_ordered_and_complete_leaving :
    ∃ contract m, compile leavingProgram {} = .ok contract ∧ contract.methods[0]? = some m ∧
      (m.points.map Prod.fst).Pairwise (· < ·) ∧ (∃ a, (a, wholeLine 3) ∈ m.points) ∧
      (∃ a, (a, wholeLine 6) ∈ m.points) ∧
      ∃ m', contract.methods[1]? = some m' ∧ ∃ a, (a, wholeLine 1) ∈ m'.points := by
  obtain ⟨hscripts, hcontracts⟩ := debug_map_is_ordered_and_complete
  have hcompile : ∃ contract, compile leavingProgram {} = .ok contract :=
    exists_compile (List.isEmpty_iff.mp (by decide +kernel))
      (List.isEmpty_iff.mp (by decide +kernel)) (List.isEmpty_iff.mp (by decide +kernel))
      (by decide +kernel)
  obtain ⟨contract, hcompile⟩ := hcompile
  obtain ⟨chunks, l, -, hencode, hlayout, hfunctions, hstatics⟩ :=
    hcontracts leavingProgram {} contract hcompile
  obtain ⟨s, s', placed, m, -, -, hm, hstatements⟩ := hfunctions 0 _ leavingBody rfl rfl
  obtain ⟨_, -, -, hmethods⟩ := hscripts _ _ _ hencode
  -- what has a value is never left out
  have hpoint {d : Draft} {j : Nat} {span : Span} {placed : List (Nat × Cell)}
      {points : List (Nat × Span)} (h : Shown false d j span placed points) :
      ∃ a, (a, span) ∈ points := by
    obtain ⟨a, cell, -, -, -, hmem⟩ := h.point fun hleft => by cases h.leftOut hleft
    exact ⟨a, hmem⟩
  obtain ⟨t, -, hcondition⟩ := hstatements [0] _ 1 (wholeLine 3)
    (.inside (@Stmt.Part.block [] _ _ _) .here) rfl
  obtain ⟨t', -, hreturn⟩ := hstatements [1] _ 0 (wholeLine 6)
    (.inside (@Stmt.Part.block [_] _ _ _) .here) rfl
  obtain ⟨_, _, _, m', -, -, hm', hstatic⟩ := hstatics 0 _ _ rfl rfl
  exact ⟨contract, m, hcompile, hm, (hmethods 0 m hm).1, hpoint hcondition, hpoint hreturn, m', hm',
    hpoint hstatic⟩

end ContractScript
