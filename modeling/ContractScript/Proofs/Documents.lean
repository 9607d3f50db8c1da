import ContractScript.Proofs.Acceptance
import ContractScript.Proofs.DocumentNumbers
import ContractScript.Proofs.Origins
import ContractScript.Proofs.SequencePoints

/-!
# Documents that describe a script

The manifest and the debug information of a contract speak of its script by addresses. The methods
of the script stand one after another and fill it, so each of these addresses is that of the
function whose name stands beside it.
-/

namespace ContractScript

open List

variable {methods : List Method} {c : Chunk} {a b : Nat} {point : Nat × Span} {m : Method}
  {routines : List Routine} {optimize : Bool} {bytes : List UInt8} {p : Program}
  {options : CompileOptions} {contract : Contract}

/-! ## Methods in a row -/

/-- Methods between ascending bounds are `Consecutive`. -/
theorem consecutive_of_bounds (bound : Nat → Nat)
    (h : ∀ (k : Nat) m, methods[k]? = some m →
      m.start = bound k ∧ m.stop = bound (k + 1) ∧ bound k < bound (k + 1)) :
    Consecutive (bound 0) methods (bound methods.length) := by
  induction methods generalizing bound with
  | nil => rfl
  | cons m methods ih =>
    obtain ⟨hstart, hstop, hlt⟩ := h 0 m rfl
    refine ⟨hstart, by rw [hstart, hstop]; exact hlt, ?_⟩
    rw [hstop]
    exact ih (fun k => bound (k + 1)) fun k m' hk => h (k + 1) m' hk

/-- The cells of a function end with its return. -/
def Chunk.EndsWithReturn (c : Chunk) : Prop :=
  ∃ cells last, c.cells = cells ++ [last] ∧ last.op.operation = .return

/-- Every place of a function that ends with its return has bytes after it. -/
theorem Chunk.EndsWithReturn.totalWidth_take_lt (h : c.EndsWithReturn) {j : Nat}
    (hj : j < c.cells.length) : totalWidth (c.cells.take j) < totalWidth c.cells := by
  obtain ⟨cells, last, hcells, hreturn⟩ := h
  have hwidth : last.width = 1 := Cell.width_of_size (by rw [Cell.size, hreturn]; rfl)
  rw [hcells, length_append, length_singleton] at hj
  have hle := totalWidth_take_le cells (Nat.le_of_lt_succ hj)
  rw [take_length] at hle
  rw [hcells, take_append_of_le_length (Nat.le_of_lt_succ hj), totalWidth_append]
  simp only [totalWidth, hwidth]
  omega

theorem Chunk.EndsWithReturn.length_pos (h : c.EndsWithReturn) : 0 < c.cells.length := by
  obtain ⟨cells, last, hcells, -⟩ := h
  simp [hcells]

section Encoded

variable {tokens : TokenTable} {chunks : List Chunk} {script : Script}

/-- A function starts where the one before it stops. -/
theorem startOf_succ {k : Nat} (hk : chunks[k]? = some c) :
    startOf chunks (k + 1) = startOf chunks k + totalWidth c.cells := by
  rw [startOf, startOf, addressAt_placeOf, addressAt_placeOf, take_add_one, hk, allCells,
    allCells, flatMap_append, totalWidth_append]
  simp

/-- Encoded functions are `Consecutive`, if each has something to run. -/
theorem Encodes.consecutive (h : Encodes tokens chunks script)
    (hreturns : ∀ c ∈ chunks, c.EndsWithReturn) :
    Consecutive 0 script.methods script.bytes.length := by
  have hlength := length_eq_of_getElem? h.method
  have hlast : startOf chunks script.methods.length = script.bytes.length := by
    rw [startOf, addressAt_placeOf, hlength, take_length, h.length]
  have hrow : Consecutive (startOf chunks 0) script.methods
      (startOf chunks script.methods.length) := by
    refine consecutive_of_bounds (startOf chunks) fun k m hm => ?_
    rw [h.method, Option.map_eq_some_iff] at hm
    obtain ⟨c, hk, rfl⟩ := hm
    have hends := hreturns c (mem_of_getElem? hk)
    have hpos := hends.totalWidth_take_lt hends.length_pos
    rw [startOf_succ hk]
    refine ⟨rfl, rfl, ?_⟩
    simp only [take_zero, totalWidth] at hpos
    omega
  rw [hlast] at hrow
  exact hrow

/-! ## Places of the source -/

/-- Every place stands at the address of a cell. -/
theorem exists_of_mem_sequencePoints {cells : List Cell}
    (h : point ∈ sequencePoints (addressesFrom a cells) cells) :
    ∃ j < cells.length, point.1 = a + totalWidth (cells.take j) := by
  obtain ⟨cell, hmem⟩ := (mem_sequencePoints_iff.mp h).mem
  obtain ⟨j, hj⟩ := getElem?_of_mem hmem
  obtain ⟨haddress, hcell⟩ := getElem?_zip_eq_some.mp hj
  have hplaced := getElem?_addressesFrom (a := a) hcell
  rw [haddress] at hplaced
  exact ⟨j, (List.getElem?_eq_some_iff.mp hcell).1, Option.some.inj hplaced⟩

/-- The points of a method are within its range. -/
theorem mem_points_bounds (h : Encodes tokens chunks script)
    (hreturns : ∀ c ∈ chunks, c.EndsWithReturn) (hm : m ∈ script.methods)
    (hpoint : point ∈ m.points) : m.start ≤ point.1 ∧ point.1 < m.stop := by
  obtain ⟨k, hk⟩ := getElem?_of_mem hm
  rw [h.method, Option.map_eq_some_iff] at hk
  obtain ⟨c, hk, rfl⟩ := hk
  obtain ⟨j, hj, hplace⟩ := exists_of_mem_sequencePoints hpoint
  have hlt := (hreturns c (mem_of_getElem? hk)).totalWidth_take_lt hj
  rw [hplace]
  show startOf chunks k ≤ _ ∧ _ < startOf chunks k + totalWidth c.cells
  omega

end Encoded

/-! ## Scripts of routines -/

variable {tokens : TokenTable} {script : Script}

/-- What the methods of a `Script` have in common with the routines that it was built from. -/
structure Built (routines : List Routine) (tokens : TokenTable) (script : Script) : Prop where
  consecutive : Consecutive 0 script.methods script.bytes.length
  names : script.methods.map (·.name) = routines.map (·.name)
  points : ∀ m ∈ script.methods, ∀ point ∈ m.points, m.start ≤ point.1 ∧ point.1 < m.stop
  length_le : script.bytes.length ≤ maxScriptSize
  checked : check script tokens.size = .ok ()

/-- `buildScript` encodes and checks the routines, with branches as short as they are. -/
theorem exists_checked (h : buildScript tokens routines optimize = .ok script) :
    ∃ chunks, Shortens tokens (routines.map Chunk.ofRoutine) chunks ∧
      encode tokens chunks = .ok script ∧ check script tokens.size = .ok () := by
  cases optimize with
  | false =>
    obtain ⟨hencode, hcheck⟩ := buildScript_long_iff.mp h
    exact ⟨_, .none, hencode, hcheck⟩
  | true =>
    obtain ⟨_, chunks, -, hshorten, hencode, hcheck⟩ := buildScript_short_iff.mp h
    exact ⟨chunks, shortens_of_shorten .none hshorten, hencode, hcheck⟩

/-- Short branches or not, the methods of a script are the routines in order. -/
theorem built_of_buildScript (h : buildScript tokens routines optimize = .ok script)
    (hreturns : ∀ r ∈ routines, ∃ ops, ∃ last : Op, r.ops = ops ++ [last] ∧
      last.operation = .return) : Built routines tokens script := by
  obtain ⟨chunks, hshortens, hencode, hcheck⟩ := exists_checked h
  have hencodes := encodes_of_encode hencode
  have hnarrows := narrows_of_shortens hshortens
  have hends : ∀ c ∈ chunks, c.EndsWithReturn := by
    intro c hc
    have hops : c.ops ∈ routines.map Routine.ops := by
      rw [← map_ops_of_shortens_routines hshortens]
      exact mem_map_of_mem hc
    obtain ⟨r, hr, hrops⟩ := mem_map.mp hops
    obtain ⟨ops, last, hsplit, hreturn⟩ := hreturns r hr
    have hcells : c.cells.map Cell.op = ops ++ [last] := hrops.symm.trans hsplit
    obtain ⟨cells, lastCells, hcells', -, hlast⟩ := map_eq_append_iff.mp hcells
    obtain ⟨cell, rfl, rfl⟩ := map_eq_singleton_iff.mp hlast
    exact ⟨cells, cell, hcells', hreturn⟩
  have hnames : script.methods.map (·.name) = chunks.map (·.name) := by
    refine ext_getElem? fun k => ?_
    rw [getElem?_map, getElem?_map, hencodes.method, Option.map_map]
    rfl
  refine ⟨hencodes.consecutive hends, ?_, fun m hm point => mem_points_bounds hencodes hends hm,
    hencodes.length ▸ hencodes.fits.2, hcheck⟩
  rw [hnames]
  have hsame : (routines.map Chunk.ofRoutine).map (·.name) = chunks.map (·.name) := by
    refine forall₂_eq_eq_eq ▸ forall₂_map_left_iff.mpr (forall₂_map_right_iff.mpr ?_)
    exact hnarrows.imp fun _ _ hn => hn.name_eq.symm
  rw [← hsame, map_map]
  rfl

theorem Splits.start_mem {is : List Located} (h : Splits bytes a is b) (hlt : a < b) :
    a ∈ is.map (·.address) := by
  cases h with
  | nil => exact absurd hlt (Nat.lt_irrefl _)
  | cons hdecode _ =>
    rw [map_cons, (decodeAt_eq_ok_iff.mp hdecode).1]
    exact mem_cons_self

/-- A script whose methods split into instructions does so as a whole, and each method starts with
one of them. -/
theorem Consecutive.exists_splits {P : Located → Prop}
    (hall : ∀ m ∈ methods, ∃ is, Splits bytes m.start is m.stop ∧ ∀ i ∈ is, P i)
    (h : Consecutive a methods b) :
    ∃ is, Splits bytes a is b ∧ (∀ i ∈ is, P i) ∧ ∀ m ∈ methods, m.start ∈ is.map (·.address) := by
  induction methods generalizing a with
  | nil =>
    cases h
    exact ⟨[], .nil, by simp, by simp⟩
  | cons m methods ih =>
    obtain ⟨rfl, hlt, h⟩ := h
    obtain ⟨is, hsplits, his⟩ := hall m mem_cons_self
    obtain ⟨js, hsplits', hjs, hstarts⟩ :=
      ih (fun m' hm' => hall m' (mem_cons_of_mem m hm')) h
    refine ⟨is ++ js, hsplits.append hsplits', forall_mem_append.mpr ⟨his, hjs⟩, ?_⟩
    rw [map_append]
    intro m' hm'
    rcases mem_cons.mp hm' with rfl | hm'
    · exact mem_append_left _ (hsplits.start_mem hlt)
    · exact mem_append_right _ (hstarts m' hm')

/-- `decode` reads the script of `Built` routines as a whole. -/
theorem Built.exists_decode (h : Built routines tokens script) :
    ∃ is, decode script.bytes = .ok is ∧
      (∀ m ∈ script.methods, m.start ∈ is.map (·.address)) ∧
      ∀ i ∈ is, i.opcode = .callT → ofLeBytes i.operand < tokens.size := by
  have hcheck := h.checked
  rw [check, bind_eq_ok] at hcheck
  obtain ⟨_, hmethods, -⟩ := hcheck
  have hall : ∀ m ∈ script.methods, ∃ is, Splits script.bytes m.start is m.stop ∧
      ∀ i ∈ is, i.opcode = .callT → ofLeBytes i.operand < tokens.size := by
    intro m hm
    have hle := Nat.le_of_lt (h.consecutive.start_lt_stop m hm)
    obtain ⟨is, hsplits, hsound⟩ :=
      (checkMethod_eq_ok_iff_splits hle).mp (forM_eq_ok_iff.mp hmethods m hm)
    exact ⟨is, hsplits, fun i hi => (hsound i hi).token⟩
  obtain ⟨is, hsplits, htokens, hstarts⟩ := h.consecutive.exists_splits hall
  exact ⟨is, hsplits.decode, hstarts, htokens⟩

/-! ## Interfaces -/

/-- What callers are to be told of a `Program`, given where the functions start: the exported ones
in order, and then the one that fills the static slots, if there are any. -/
def Program.interface (p : Program) (start : String → Nat) : List MethodEntry :=
  (p.functions.filter (·.isExport)).map (fun decl =>
    ⟨decl.id.name, slotsOf decl.params, ParamType.ofTy decl.returnType, start decl.id.name,
      decl.isMarkedSafe⟩) ++
  if p.statics = [] then [] else [⟨initializerName, [], .void, start initializerName, false⟩]

/-- Whether callers are told of a `Routine`, and what. -/
def Routine.entry (start : String → Nat) (r : Routine) : Bool × MethodEntry :=
  (r.isExport, ⟨r.name, r.params, r.returnType, start r.name, r.isSafe⟩)

/-- What callers are told of the routines of a program, in order. -/
theorem map_entry (h : p.lowered.faults = []) (start : String → Nat) :
    p.lowered.routines.map (Routine.entry start) =
      p.functions.map (fun decl => (decl.isExport, ⟨decl.id.name, slotsOf decl.params,
        ParamType.ofTy decl.returnType, start decl.id.name, decl.isMarkedSafe⟩)) ++
      if p.statics = [] then []
        else [(true, ⟨initializerName, [], .void, start initializerName, false⟩)] := by
  refine map_lowered h _ (length_map _) fun r horigin => ?_
  cases horigin with
  | function hdecl _ hcode hr _ =>
    have hlt := (List.getElem?_eq_some_iff.mp hdecl).1
    rw [getElem?_append_left (by rwa [length_map]), getElem?_map, hdecl, hr]
    simp [Routine.entry, hcode.params_eq]
  | initializer _ hid _ hcode hr _ =>
    rw [hid, getElem?_append_right (Nat.le_of_eq (length_map _)), length_map,
      Nat.sub_self, hr]
    simp [Routine.entry, piecewise_params.statics hcode]

/-- Routines and methods with the same names go together by name. -/
theorem name_of_mem_zip (h : methods.map (·.name) = routines.map (·.name)) {r : Routine}
    (hpair : (r, m) ∈ routines.zip methods) : m.name = r.name := by
  obtain ⟨k, hk⟩ := getElem?_of_mem hpair
  obtain ⟨hr, hm⟩ := getElem?_zip_eq_some.mp hk
  have hnames := congrArg (·[k]?) h
  simpa [hr, hm] using hnames

theorem length_of_names (h : methods.map (·.name) = routines.map (·.name)) :
    methods.length = routines.length := by
  simpa using congrArg List.length h

/-- `Assembly.entries` tells of each exported routine where its method starts. -/
theorem entries_eq {a : Assembly} {start : String → Nat}
    (hnames : a.script.methods.map (·.name) = a.routines.map (·.name))
    (hstart : ∀ m ∈ a.script.methods, start m.name = m.start) :
    a.entries = ((a.routines.map (Routine.entry start)).filter (·.1)).map (·.2) := by
  conv => rhs; rw [← map_fst_zip (Nat.le_of_eq (length_of_names hnames).symm)]
  rw [Assembly.entries, map_map, filter_map, map_map]
  refine map_congr_left fun ⟨r, m⟩ hpair => ?_
  have hzip := mem_of_mem_filter hpair
  show (⟨r.name, r.params, r.returnType, m.start, r.isSafe⟩ : MethodEntry) = _
  rw [← hstart m (of_mem_zip hzip).2, name_of_mem_zip hnames hzip]
  rfl

/-- Methods with names of their own start where their names say. -/
theorem exists_start (h : (methods.map (·.name)).Nodup) :
    ∃ start : String → Nat, ∀ m ∈ methods, start m.name = m.start := by
  induction methods with
  | nil => exact ⟨fun _ => 0, by simp⟩
  | cons m methods ih =>
    rw [map_cons, nodup_cons] at h
    obtain ⟨start, hstart⟩ := ih h.2
    refine ⟨fun name => if name = m.name then m.start else start name, fun m' hm' => ?_⟩
    rcases mem_cons.mp hm' with rfl | hm'
    · simp
    · have hne : m'.name ≠ m.name := fun heq => h.1 (heq ▸ mem_map_of_mem hm')
      simp [hne, hstart m' hm']

/-! ## Programs -/

theorem Compiled.isBuilt {script : Script} (h : Compiled p options contract script) :
    Built p.lowered.routines p.lowered.tokens script := by
  refine built_of_buildScript h.built fun r hr => ?_
  obtain ⟨k, hk⟩ := getElem?_of_mem hr
  exact (origin_of_lowered h.lowered hk).2.exists_return

/-- The methods of a contract are its functions and the initializer, by name. -/
theorem Compiled.names_eq {script : Script} (h : Compiled p options contract script) :
    script.methods.map (·.name) =
      p.functions.map (·.id.name) ++ if p.statics = [] then [] else [initializerName] := by
  have hentries := congrArg (List.map (·.2.name)) (map_entry h.lowered fun _ => 0)
  rw [map_append, map_map, map_map] at hentries
  rw [h.isBuilt.names]
  refine hentries.trans (congrArg _ ?_)
  split <;> rfl

/-- The interface of a program has an entry for each exported function. -/
theorem interface_of_entries (h : p.lowered.faults = []) (start : String → Nat) :
    ((p.lowered.routines.map (Routine.entry start)).filter (·.1)).map (·.2) =
      p.interface start := by
  rw [map_entry h, filter_append, map_append, filter_map, map_map,
    Program.interface]
  congr 1
  by_cases hstatics : p.statics = []
  · simp [hstatics]
  · simp [hstatics]

/-- `Program.interface` names functions of the program only. -/
theorem names_interface (p : Program) (start : String → Nat) :
    ((p.interface start).map (·.name)).Sublist
      (p.functions.map (·.id.name) ++ if p.statics = [] then [] else [initializerName]) := by
  rw [Program.interface, map_append, map_map]
  refine List.Sublist.append ((filter_sublist).map _) ?_
  split
  · exact List.Sublist.refl _
  · exact List.Sublist.refl _

/-- `debugInfo` has the methods of the script in order, and no place of a method is out of its
range. -/
theorem debugInfo_methods {a : Assembly} {tokens : TokenTable}
    (h : Built a.routines tokens a.script) :
    a.debugInfo.methods.map (fun m => (m.name, m.start, m.last + 1)) =
        a.script.methods.map (fun m => (m.name, m.start, m.stop)) ∧
      ∀ m ∈ a.debugInfo.methods, ∀ point ∈ m.points,
        m.start ≤ point.address ∧ point.address ≤ m.last := by
  constructor
  · conv => rhs; rw [← map_snd_zip (Nat.le_of_eq (length_of_names h.names)), map_map]
    rw [a.debugInfo_eq.2, map_map]
    refine map_congr_left fun ⟨r, m⟩ hpair => ?_
    have hlt := h.consecutive.start_lt_stop m (of_mem_zip hpair).2
    show (r.name, m.start, m.stop - 1 + 1) = (m.name, m.start, m.stop)
    rw [name_of_mem_zip h.names hpair, Nat.sub_add_cancel (Nat.lt_of_le_of_lt (Nat.zero_le _) hlt)]
  · intro d hd point hpoint
    rw [a.debugInfo_eq.2] at hd
    obtain ⟨⟨r, m⟩, hpair, rfl⟩ := mem_map.mp hd
    obtain ⟨⟨address, span⟩, hplace, rfl⟩ := mem_map.mp hpoint
    obtain ⟨hle, hlt⟩ := h.points m (of_mem_zip hpair).2 _ hplace
    exact ⟨hle, Nat.le_sub_one_of_lt hlt⟩

/-- The documents of a program that `compile` accepts agree with its script. The methods are
`Consecutive` and fill it. The `Program.interface` has the exported functions in order, and the one
that fills the static slots if there are any, as they were declared; no two have one name, and each
is said to start where the method of that name does, which is the address of an instruction. Debug
information, if asked for, has the same methods with the same ranges, and all places of the source
are inside of them. Tokens that the script refers to are in the table. -/
theorem documents_describe_script (p : Program) (options : CompileOptions) (contract : Contract)
    (h : compile p options = .ok contract) :
    Consecutive 0 contract.methods contract.script.length ∧
    contract.methods.map (·.name) =
      p.functions.map (·.id.name) ++ (if p.statics = [] then [] else [initializerName]) ∧
    (contract.methods.map (·.name)).Nodup ∧
    (∃ start, contract.manifest.methods = p.interface start ∧
      ∀ m ∈ contract.methods, start m.name = m.start) ∧
    (contract.manifest.methods.map (·.name)).Nodup ∧
    (∃ is, decode contract.script = .ok is ∧
      (∀ entry ∈ contract.manifest.methods, entry.offset < 4294967296 ∧
        entry.offset ∈ is.map (·.address) ∧
        ∃ m ∈ contract.methods, m.name = entry.name ∧ m.start = entry.offset) ∧
      ∀ i ∈ is, i.opcode = .callT → ofLeBytes i.operand < contract.tokens.length) ∧
    (options.debugInfo = false → contract.debug = none) ∧
    (options.debugInfo = true → ∃ debug, contract.debug = some debug ∧
      debug.methods.map (fun m => (m.name, m.start, m.last + 1)) =
        contract.methods.map (fun m => (m.name, m.start, m.stop)) ∧
      ∀ m ∈ debug.methods, ∀ point ∈ m.points,
        m.start ≤ point.address ∧ point.address ≤ m.last) := by
  obtain ⟨script, a, hcompiled, hroutines, rfl, hmanifest, hdebug⟩ := documents_of_compile h
  have hbuilt := hcompiled.isBuilt
  rw [← hroutines] at hbuilt
  have hnames := hcompiled.names_eq
  have hnodup : (a.script.methods.map (·.name)).Nodup := by
    rw [hnames]
    exact nodup_names hcompiled.declared
  obtain ⟨start, hstart⟩ := exists_start hnodup
  have hentries : contract.manifest.methods = p.interface start := by
    rw [hmanifest, ← interface_of_entries hcompiled.lowered, ← hroutines]
    exact entries_eq hbuilt.names hstart
  rw [hcompiled.methods_eq, hcompiled.script_eq, hcompiled.tokens_eq, hentries]
  refine ⟨hbuilt.consecutive, hnames, hnodup, ⟨start, rfl, hstart⟩, ?_, ?_, ?_, ?_⟩
  · exact (names_interface p start).nodup (nodup_names hcompiled.declared)
  · obtain ⟨is, hdecode, hstarts, htokens⟩ := hbuilt.exists_decode
    refine ⟨is, hdecode, fun entry hentry => ?_, htokens⟩
    -- the name of an entry is that of a method
    have hname : entry.name ∈ a.script.methods.map (·.name) := by
      rw [hnames]
      exact (names_interface p start).subset (mem_map_of_mem hentry)
    have hoffset : entry.offset = start entry.name := by
      rcases mem_append.mp hentry with hfunction | hlast
      · obtain ⟨decl, -, rfl⟩ := mem_map.mp hfunction
        rfl
      · split at hlast
        · cases hlast
        · rw [mem_singleton.mp hlast]
    obtain ⟨m, hm, hmname⟩ := mem_map.mp hname
    have heq : m.start = entry.offset := by rw [hoffset, ← hmname, hstart m hm]
    refine ⟨?_, heq ▸ hstarts m hm, m, hm, hmname, heq⟩
    have hlt := hbuilt.consecutive.start_lt_stop m hm
    have hle := hbuilt.consecutive.stop_le.2 m hm
    have hsize : a.script.bytes.length ≤ 2147483647 := hbuilt.length_le
    omega
  · intro hoff
    rw [hdebug, hoff]
    rfl
  · intro hon
    rw [hdebug, hon]
    exact ⟨a.debugInfo, rfl, debugInfo_methods hbuilt⟩

/-- A `Program` with a static variable, a function for callers and one that only that function
calls. -/
def offering : Program :=
  let n : Expr := .ident ⟨"n", {}⟩ .integer {}
  ⟨[], [.function { returning "main" (.call (.ident ⟨"twice", {}⟩ .any {}) [n] .integer {}) with
      isSafe := true },
    .static ⟨⟨"total", {}⟩, .integer, none, {}⟩,
    .function { returning "twice" (.binary .add n n .integer {}) with isExport := false }]⟩

theorem documents_describe_script_offering : ∃ contract debug,
    compile offering { optimize := true } = .ok contract ∧
      Consecutive 0 contract.methods contract.script.length ∧
      contract.methods.map (·.name) = ["main", "twice", "_initialize"] ∧
      contract.manifest.methods.map (fun m => (m.name, m.params, m.returnType, m.isSafe)) =
        [("main", [⟨"n", .integer⟩], .integer, true), ("_initialize", [], .void, false)] ∧
      contract.debug = some debug ∧
      debug.methods.map (fun m => (m.name, m.start, m.last + 1)) =
        contract.methods.map (fun m => (m.name, m.start, m.stop)) := by
  have hok : (compile offering { optimize := true }).toOption.isSome = true := by decide +kernel
  obtain ⟨contract, hcontract⟩ : ∃ contract,
      compile offering { optimize := true } = .ok contract := by
    cases hcompile : compile offering { optimize := true } with
    | ok contract => exact ⟨contract, rfl⟩
    | error faults =>
      rw [hcompile] at hok
      cases hok
  obtain ⟨hrow, hnames, -, ⟨start, hinterface, -⟩, -, -, -, hdebug⟩ :=
    documents_describe_script offering _ contract hcontract
  obtain ⟨debug, hsome, hranges, -⟩ := hdebug rfl
  refine ⟨contract, debug, hcontract, hrow, hnames, ?_, hsome, hranges⟩
  rw [hinterface]
  rfl

end ContractScript
