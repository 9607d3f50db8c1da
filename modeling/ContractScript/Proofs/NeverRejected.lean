import ContractScript.Compile
import ContractScript.Proofs.BinderSteps
import ContractScript.Proofs.LowerSteps
import ContractScript.Proofs.ShortBranches

/-!
# The check accepts what is encoded

The check reads a script again without its operations. It can fail only where a branch leads to
the end of its function, and a finished function ends with its return operation. So no finished
function is rejected, and a program that does not compile fails for another reason.
-/

namespace ContractScript

open List

variable {tokens : TokenTable} {routines : List Routine} {chunks : List Chunk} {e : EncodingError}
  {faults faults' : List Diagnostic} {d : Declarations} {l : Lowering}

/-! ## Finished functions -/

/-- `elideJumps` keeps the last operation last unless it is a jump. -/
theorem exists_elideJumps_append (last : Op) (h : isFallthrough last.operation [] = false) :
    ∀ ops : List Op, ∃ kept, elideJumps (ops ++ [last]) = kept ++ [last]
  | [] => ⟨[], by rw [nil_append, elideJumps, h]; rfl⟩
  | op :: ops => by
    obtain ⟨kept, hkept⟩ := exists_elideJumps_append last h ops
    rw [cons_append, elideJumps, hkept]
    split
    · exact ⟨kept, rfl⟩
    · exact ⟨op :: kept, rfl⟩

/-- A label stands before the last operation if that one places none. -/
theorem lastPlace?_append_lt {l : Label} {last : Op} (h : last.operation.placedLabel? = none) :
    ∀ {ops : List Op} {j : Nat}, lastPlace? l (ops ++ [last]) = some j → j < ops.length
  | [], j, hj => by
    rw [nil_append, lastPlace?, lastPlace?, h] at hj
    cases hj
  | op :: ops, j, hj => by
    rw [cons_append, lastPlace?] at hj
    split at hj
    · next k hk =>
      cases hj
      exact Nat.succ_lt_succ (lastPlace?_append_lt h hk)
    · split at hj
      · cases hj
        exact Nat.succ_pos _
      · cases hj

/-- Code that ends with an operation that is no marker leaves it after each of its labels. -/
theorem covered_append {last : Op} (h : last.operation.isMarker = false) (ops : List Op) :
    Covered (ops ++ [last]) := by
  intro op _ l _ j hj
  have hplaced : last.operation.placedLabel? = none := by
    cases hl : last.operation <;> first | rfl | (rw [hl] at h; cases h)
  have hlt := lastPlace?_append_lt hplaced hj
  have htake : (ops ++ [last]).take j = ops.take j :=
    take_append_of_le_length (Nat.le_of_lt hlt)
  have hle : codeCount (ops.take j) ≤ codeCount ops := (take_sublist j ops).countP_le
  have hlast : codeCount (ops ++ [last]) = codeCount ops + 1 := by
    rw [codeCount, countP_append]
    exact congrArg (codeCount ops + ·) (codeCount_cons_code h [])
  rw [htake, hlast]
  exact Nat.lt_succ_of_le hle

/-- After each label of a finished function an instruction is left: its return. So it is `Covered`.
-/
theorem covered_of_finish {d : Draft} {r : Routine} (h : d.finish = .ok r) : Covered r.ops := by
  obtain ⟨kept, hkept⟩ := exists_elideJumps_append ⟨.return, none⟩ rfl
    (d.place Draft.returnTarget).ops.toList
  have hops : ((d.place Draft.returnTarget).emit .return).ops.toList =
      (d.place Draft.returnTarget).ops.toList ++ [⟨.return, none⟩] := Array.toList_push
  unfold Draft.finish at h
  rw [hops, hkept] at h
  dsimp only at h
  split at h
  · cases h
  · cases h
    dsimp only
    split
    · exact covered_append rfl kept
    · exact covered_append rfl (_ :: kept)

/-- `check` accepts `Covered` functions, whatever branches are short. -/
theorem check_of_covered {script : Script} (hcovered : ∀ r ∈ routines, Covered r.ops)
    (hshortens : Shortens tokens (routines.map Chunk.ofRoutine) chunks)
    (hencode : encode tokens chunks = .ok script) : check script tokens.size = .ok () := by
  rw [check_eq_ok_iff (encodes_of_encode hencode) (shortReach_of_shortens hshortens)]
  rw [← forall_mem_map (P := Covered), map_ops_of_shortens_routines hshortens,
    forall_mem_map]
  exact hcovered

/-! ## Faults of encoding -/

/-- Whether a fault is that of the check. -/
def EncodingError.isRejection : EncodingError → Bool
  | .rejected _ _ => true
  | _ => false

theorem Fault.isRejection_toError (function : String) (span : Option Span) (fault : Fault) :
    (fault.toError function span).isRejection = false := by
  cases fault <;> rfl

theorem isRejection_placeCells {function : String} {e : EncodingError} :
    ∀ {a : Nat} {cells : List Cell}, (placeCells function a cells).fault = some e →
      e.isRejection = false
  | a, [], h => nomatch h
  | a, c :: cs, h => by
    rw [placeCells] at h
    split at h
    · cases h
      exact Fault.isRejection_toError _ _ _
    · exact isRejection_placeCells h

theorem isRejection_placeChunks {e : EncodingError} :
    ∀ {a : Nat} {chunks : List Chunk}, e ∈ (placeChunks a chunks).filterMap (fun f => f.2.fault) →
      e.isRejection = false
  | a, [], h => nomatch h
  | a, c :: cs, h => by
    obtain ⟨f, hf, hfault⟩ := mem_filterMap.mp h
    rcases mem_cons.mp hf with rfl | hf
    · exact isRejection_placeCells hfault
    · exact isRejection_placeChunks (mem_filterMap.mpr ⟨f, hf, hfault⟩)

/-- `layoutEach` reports sizes and labels only. -/
theorem isRejection_layoutEach (h : e ∈ (layoutEach chunks).2) : e.isRejection = false := by
  rcases mem_append.mp h with h | h
  · exact isRejection_placeChunks h
  · split at h
    · cases mem_singleton.mp h
      rfl
    · cases h

theorem isRejection_encodeCells {t : Targets} {function : String} {e : EncodingError} :
    ∀ {addresses : List Nat} {cells : List Cell},
      encodeCells t function addresses cells = .error e → e.isRejection = false
  | [], _, h => nomatch h
  | _ :: _, [], h => nomatch h
  | a :: addresses, c :: cs, h => by
    rw [encodeCells] at h
    split at h
    · cases h
      exact Fault.isRejection_toError _ _ _
    · split at h
      · next hrest =>
        cases h
        exact isRejection_encodeCells hrest
      · cases h

theorem isRejection_encodeChunk {starts : List Nat} {count : Nat} {c : Chunk} {start : Nat}
    {p : Placement} (h : encodeChunk starts count c start p = .error e) :
    e.isRejection = false := by
  unfold encodeChunk at h
  split at h
  · next hcells =>
    cases h
    exact isRejection_encodeCells hcells
  · cases h

/-- `encodeEach` reports faults of its own. -/
theorem isRejection_encodeEach {faults : List EncodingError}
    (h : encodeEach tokens chunks = .error faults) (he : e ∈ faults) : e.isRejection = false := by
  unfold encodeEach at h
  dsimp only at h
  split at h
  · cases h
  · cases h
    rcases mem_append.mp he with he | he
    · exact isRejection_layoutEach he
    · -- a failed outcome is that of encoding some function
      obtain ⟨outcome, houtcome, hfailed⟩ := mem_filterMap.mp he
      obtain ⟨⟨c, start, p⟩, -, hchunk⟩ := mem_map.mp houtcome
      cases outcome with
      | ok code => cases hfailed
      | error fault =>
        cases hfailed
        exact isRejection_encodeChunk hchunk

/-- `buildScript` fails on `Covered` functions only where their encoding fails. -/
theorem encodeEach_of_buildScript {optimize : Bool} {faults : List EncodingError}
    (hcovered : ∀ r ∈ routines, Covered r.ops)
    (h : buildScript tokens routines optimize = .error faults) :
    encodeEach tokens (routines.map Chunk.ofRoutine) = .error faults := by
  have hnone : Shortens tokens (routines.map Chunk.ofRoutine) (routines.map Chunk.ofRoutine) :=
    .none
  cases hencode : encodeEach tokens (routines.map Chunk.ofRoutine) with
  | error faults' =>
    unfold buildScript at h
    dsimp only at h
    rw [hencode] at h
    exact h
  | ok long =>
    -- then a script is built, in both cases
    have hlong := encodeEach_eq_ok_iff.mp hencode
    have hbuilt : buildScript tokens routines false = .ok long :=
      buildScript_long_iff.mpr ⟨hlong, check_of_covered hcovered hnone hlong⟩
    cases optimize with
    | false =>
      rw [hbuilt] at h
      cases h
    | true =>
      obtain ⟨chunks, hshorten⟩ := exists_shorten hlong
      have hshortens := shortens_of_shorten hnone hshorten
      obtain ⟨short, hshort⟩ := exists_encode_of_narrows (narrows_of_shortens hshortens) hlong
      have hbuilt' : buildScript tokens routines true = .ok short :=
        buildScript_short_iff.mpr
          ⟨long, chunks, hlong, hshorten, hshort, check_of_covered hcovered hshortens hshort⟩
      rw [hbuilt'] at h
      cases h

/-! ## Faults of the stages before -/

/-- Whether a fault is that of the check. -/
def Diagnostic.isRejection : Diagnostic → Bool
  | .encoding e => e.isRejection
  | _ => false

/-- None of the faults is that of the check. -/
def NoRejection (faults : List Diagnostic) : Prop :=
  ∀ d ∈ faults, d.isRejection = false

theorem noRejection_append (h : NoRejection faults) (h' : NoRejection faults') :
    NoRejection (faults ++ faults') :=
  fun d hd => (mem_append.mp hd).elim (h d) (h' d)

theorem noRejection_singleton {d : Diagnostic} (h : d.isRejection = false) : NoRejection [d] :=
  fun _ hd => mem_singleton.mp hd ▸ h

/-- `bindProgram` reports tags and names. -/
theorem noRejection_bindProgram (p : Program) : NoRejection (bindProgram p).2 := by
  have hlawful : Binder.Lawful fun b => NoRejection b.faults :=
    ⟨fun _ hb => noRejection_append hb (noRejection_singleton rfl),
      fun _ hb => noRejection_append hb (noRejection_singleton rfl), fun _ _ hb => hb,
      fun _ hb => hb, fun _ _ _ hb => hb⟩
  obtain ⟨b, hb, heq⟩ := hlawful.bindProgram (forall_mem_nil _) p
  rw [heq]
  exact hb

namespace Declarations

theorem noRejection_define (h : NoRejection d.faults) (name : String) (span : Span)
    (definition : Definition) : NoRejection (d.define name span definition).faults := by
  unfold define
  split
  · exact h
  · exact noRejection_append h (noRejection_singleton rfl)

theorem noRejection_addItem (h : NoRejection d.faults) (item : Item) :
    NoRejection (d.addItem item).faults := by
  unfold addItem
  split
  · split
    · exact noRejection_define (by exact h) _ _ _
    · exact h
  · next decl =>
    unfold addConst
    split
    · exact noRejection_define h _ _ _
    · exact noRejection_append h (noRejection_singleton rfl)
  · exact noRejection_define (by exact h) _ _ _
  · exact h
  · exact h
  · exact noRejection_append h (noRejection_singleton rfl)

end Declarations

/-- `declare` reports names. -/
theorem noRejection_declare (registry : Registry) (p : Program) :
    NoRejection (declare registry p).faults := by
  have hitems : NoRejection (p.items.foldl Declarations.addItem
      { scope := Scope.root "global" registry }).faults :=
    List.foldlRecOn (motive := fun d : Declarations => NoRejection d.faults) p.items _
      (forall_mem_nil _) fun _ hd item _ => Declarations.noRejection_addItem hd item
  unfold declare Declarations.addInitializer
  split
  · exact hitems
  · exact Declarations.noRejection_define (by exact hitems) _ _ _

/-! ## Lowering -/

open Lower in
/-- No step of lowering ends with a fault of the check. -/
theorem lawful_noRejection : Lawful (fun _ _ => True) (fun d => d.isRejection = false) where
  refl _ := trivial
  trans _ _ := trivial
  draft _ _ _ := trivial
  push _ _ := trivial
  token _ _ := trivial
  enclosed _ _ := trivial
  symbol _ := rfl
  lowering _ := rfl
  tooLarge _ _ _ _ _ := rfl

/-- Functions that can be encoded, and faults that are no rejection. -/
structure Lowering.Sound (l : Lowering) : Prop where
  covered : ∀ r ∈ l.routines, Covered r.ops
  faults : NoRejection l.faults

theorem noRejection_lowerStatics (statics : List StaticDecl) (index : Nat) (s : LowerState) :
    NoRejection (lowerStatics statics index s).1 :=
  (lowerStatics_keeps lawful_noRejection.stmtLaws.toFrameLaws statics index s).2

namespace Lowering

/-- `collect` keeps a run `Sound`. -/
theorem Sound.collect (h : l.Sound) {result : EStateM.Result Diagnostic LowerState Routine}
    (hok : ∀ r s, result = .ok r s → Covered r.ops)
    (herror : ∀ e s, result = .error e s → e.isRejection = false) : (l.collect result).Sound := by
  cases result with
  | ok r s =>
    refine ⟨fun r' hr' => ?_, h.faults⟩
    rcases mem_append.mp hr' with hr' | hr'
    · exact h.covered r' hr'
    · exact mem_singleton.mp hr' ▸ hok r s rfl
  | error e s =>
    exact ⟨h.covered, noRejection_append h.faults (noRejection_singleton (herror e s rfl))⟩

theorem Sound.addFunctions : ∀ {l : Lowering} (_ : l.Sound) (id : FunctionId)
    (decls : List FunctionDecl), (l.addFunctions id decls).Sound
  | _, h, _, [] => h
  | l, h, id, decl :: rest => by
    refine Sound.addFunctions (h.collect ?_ ?_) (id + 1) rest
    · intro r s hr
      obtain ⟨routine, hfinish, -, rfl⟩ := lowerFunction_eq_ok hr
      exact (covered_of_finish hfinish : Covered routine.ops)
    · have hkeeps := lowerFunction_keeps lawful_noRejection (fun _ _ _ => rfl) decl
      exact fun e s he => ((hkeeps _).2 e s he).2

theorem Sound.addInitializer (h : l.Sound) (id : FunctionId) (statics : List StaticDecl) :
    (l.addInitializer id statics).Sound := by
  have hfaults : ∀ s, ({ l with faults := l.faults ++ (lowerStatics statics 0 s).1 } :
      Lowering).Sound := fun s =>
    ⟨h.covered, noRejection_append h.faults (noRejection_lowerStatics statics 0 s)⟩
  refine (hfaults _).collect ?_ ?_
  · intro r s hr
    obtain ⟨routine, s', hfinish, hlast⟩ := Lower.exists_of_bind hr
    cases hlast
    exact (covered_of_finish (finishDraft_eq_ok hfinish).1 : Covered routine.ops)
  · intro e s he
    -- the faults of the statics are collected apart from that of finishing
    have hfinished : Lower.Keeps (fun _ _ => True) (fun d => d.isRejection = false)
        (do return { ← finishDraft with isExport := true } : Lower Routine) :=
      (finishDraft_keeps lawful_noRejection fun _ _ _ => rfl).bind lawful_noRejection fun _ =>
        Lower.keeps_pure lawful_noRejection _
    exact (hfinished _).2 e s he |>.2

end Lowering

/-- `lowerProgram` makes functions that can be encoded. -/
theorem sound_lowerProgram (d : Declarations) : (lowerProgram d).Sound := by
  have hstart : ({ scope := d.scope } : Lowering).Sound :=
    ⟨forall_mem_nil _, forall_mem_nil _⟩
  have hfunctions := hstart.addFunctions 0 d.functions
  unfold lowerProgram
  dsimp only
  split
  · exact hfunctions
  · exact hfunctions.addInitializer _ _

/-! ## Programs -/

theorem checkpoint_eq_error (h : checkpoint faults = .error faults') : faults' = faults := by
  unfold checkpoint Log.checkpoint at h
  split at h
  · cases h
  · cases h
    rfl

/-- `compile` fails before the check does. -/
theorem noRejection_compile {p : Program} {options : CompileOptions}
    (h : compile p options = .error faults) : NoRejection faults := by
  unfold compile at h
  -- one stage after another: the first one with faults is the last
  rcases bind_eq_error.mp h with hbinding | ⟨_, -, h⟩
  · rw [checkpoint_eq_error hbinding]
    exact noRejection_bindProgram p
  rcases bind_eq_error.mp h with hdeclarations | ⟨_, -, h⟩
  · rw [checkpoint_eq_error hdeclarations]
    exact noRejection_declare _ p
  have hsound := sound_lowerProgram (declare (bindProgram p).1 p)
  rcases bind_eq_error.mp h with hlowering | ⟨_, -, h⟩
  · rw [checkpoint_eq_error hlowering]
    exact hsound.faults
  split at h
  · next faults' hbuild =>
    cases h
    have hencode := encodeEach_of_buildScript hsound.covered hbuild
    refine forall_mem_map.mpr fun e he => ?_
    exact isRejection_encodeEach hencode he
  · cases h

/-- `check` accepts every script of finished functions, with and without short branches, and no
program fails to compile because of it. -/
theorem check_accepts :
    (∀ (tokens : TokenTable) (routines : List Routine) (chunks : List Chunk) (script : Script),
      (∀ r ∈ routines, ∃ (d : Draft) (finished : Routine),
        d.finish = .ok finished ∧ r.ops = finished.ops) →
      Shortens tokens (routines.map Chunk.ofRoutine) chunks →
      encode tokens chunks = .ok script → check script tokens.size = .ok ()) ∧
    ∀ (p : Program) (options : CompileOptions) (faults : List Diagnostic),
      compile p options = .error faults →
      ∀ address problem, Diagnostic.encoding (.rejected address problem) ∉ faults := by
  refine ⟨fun tokens routines chunks script hfinished hshortens hencode => ?_, ?_⟩
  · refine check_of_covered (fun r hr => ?_) hshortens hencode
    obtain ⟨d, finished, hfinish, hops⟩ := hfinished r hr
    rw [hops]
    exact covered_of_finish hfinish
  · intro p options faults h address problem hmem
    have hnone := noRejection_compile h _ hmem
    cases hnone

/-- A loop that runs as long as its argument is true. -/
def waiting : Draft where
  id := 0
  name := "waiting"
  ops := #[⟨.label 1, none⟩, ⟨.load .argument 0, none⟩, ⟨.jump .ifFalse 2, none⟩,
    ⟨.jump .always 1, none⟩, ⟨.label 2, none⟩]
  params := #[⟨"busy", .boolean⟩]
  labelCount := 3

/-- The loop with its return, and its slot opened. -/
def waitingRoutine : Routine where
  id := 0
  name := "waiting"
  ops := [⟨.initSlots 0 1, none⟩, ⟨.label 1, none⟩, ⟨.load .argument 0, none⟩,
    ⟨.jump .ifFalse 2, none⟩, ⟨.jump .always 1, none⟩, ⟨.label 2, none⟩, ⟨.label 0, none⟩,
    ⟨.return, none⟩]
  params := [⟨"busy", .boolean⟩]

theorem check_accepts_waiting :
    (waiting.finish = .ok waitingRoutine ∧
      ∃ script, encode {} [Chunk.allShort waitingRoutine] = .ok script ∧ check script 0 = .ok ()) ∧
    ∃ faults, compile ⟨[], [.other "ClassDeclaration" {}]⟩ {} = .error faults ∧
      ∀ address problem, Diagnostic.encoding (.rejected address problem) ∉ faults := by
  have hfinish : waiting.finish = .ok waitingRoutine := rfl
  have hround : shortenRound {} ([waitingRoutine].map Chunk.ofRoutine) =
      .ok [Chunk.allShort waitingRoutine] := rfl
  obtain ⟨script, hencode⟩ : ∃ script, encode {} [Chunk.allShort waitingRoutine] = .ok script :=
    ⟨_, rfl⟩
  have hfinished : ∀ r ∈ [waitingRoutine], ∃ (d : Draft) (finished : Routine),
      d.finish = .ok finished ∧ r.ops = finished.ops := fun r hr =>
    ⟨waiting, waitingRoutine, hfinish, congrArg Routine.ops (mem_singleton.mp hr)⟩
  have hcompile : compile ⟨[], [.other "ClassDeclaration" {}]⟩ {} =
      .error [.lowering (.unsupported "ClassDeclaration" {})] := rfl
  refine ⟨⟨hfinish, script, hencode, ?_⟩, _, hcompile, check_accepts.2 _ _ _ hcompile⟩
  exact check_accepts.1 {} [waitingRoutine] _ script hfinished (.round .none hround) hencode

end ContractScript
