import ContractScript.Lowering.State
import ContractScript.Proofs.Outcomes

/-!
# Trees of scopes

Scopes are opened inside of each other in any order, and names are defined in any of them at any
time. The scopes form a tree, and each of them sees what lies on the way from it to the root
(`ScopeTree.view`). Calls go on as long as there are ids for new scopes (`ScopeTree.step`).
-/

namespace ContractScript

open List

variable {older : List ScopeNode} {n m : Nat} {t : ScopeTree} {name : String}

/-- A scope inside of the root: its names, and the number of the scope around it. -/
structure ScopeNode where
  frame : Frame
  parent : Nat

/-- Scopes over the names of the host. The root has number zero, and the others are numbered in the
order in which they were opened. -/
structure ScopeTree where
  builtins : Registry
  rootFrame : Frame
  /-- The scopes inside of the root, the newest first. -/
  nodes : List ScopeNode := []
  nextId : ScopeId

namespace ScopeTree

/-! ## What a scope sees -/

/-- The `Frame`s from the scope of a number outwards, without the root. -/
def framesFrom : List ScopeNode → Nat → List Frame
  | [], _ => []
  | node :: older, n =>
    if n = older.length + 1 then node.frame :: framesFrom older node.parent
    else framesFrom older n

/-- The number of scopes. -/
def size (t : ScopeTree) : Nat := t.nodes.length + 1

/-- A `Scope` of a tree, as a chain of frames. -/
def view (t : ScopeTree) (n : Nat) : Scope :=
  ⟨t.builtins, t.rootFrame, framesFrom t.nodes n, t.nextId⟩

/-- The names of a scope. -/
def frame (t : ScopeTree) (n : Nat) : Frame := (t.view n).frame

/-- The tree of a root only. -/
def root (name : String) (builtins : Registry) : ScopeTree :=
  let s := Scope.root name builtins
  ⟨s.builtins, s.rootFrame, [], s.nextId⟩

/-- Open a scope inside of another. -/
def child (t : ScopeTree) (n : Nat) (name : String) : ScopeTree :=
  let s := (t.view n).enter name
  { t with nodes := ⟨s.frame, n⟩ :: t.nodes, nextId := s.nextId }

/-- Change the names of one scope among others. -/
def setNode (n : Nat) (f : Frame) : List ScopeNode → List ScopeNode
  | [] => []
  | node :: older =>
    if n = older.length + 1 then { node with frame := f } :: older else node :: setNode n f older

/-- Change the names of a scope. -/
def setFrame (t : ScopeTree) (n : Nat) (f : Frame) : ScopeTree :=
  if n = 0 then { t with rootFrame := f } else { t with nodes := setNode n f t.nodes }

/-- Define a name in a scope as what `make` yields: the new symbol or an error, and the tree and the
state after the call. -/
def define {σ : Type} (t : ScopeTree) (n : Nat) (name : String) (span : Span)
    (make : σ → Definition × σ) (state : σ) : Except SymbolError Symbol × ScopeTree × σ :=
  let (result, s, state) := (t.view n).define name span make state
  (result, t.setFrame n s.frame, state)

/-- A call on the scope of a number. What `make` does to a state shows whether it was run. -/
inductive Call (σ : Type) where
  | child (n : Nat) (name : String)
  | define (n : Nat) (name : String) (span : Span) (make : σ → Definition × σ)

/-- One call. There is no call on a scope that is not there. The counter of ids is a checked one: a
call that would make it start again from zero does not come to an end. -/
def step {σ : Type} (ts : ScopeTree × σ) : Call σ → Option (ScopeTree × σ)
  | .child n name =>
    if n < ts.1.size then
      if ts.1.nextId + 1 = 0 then none else some (ts.1.child n name, ts.2)
    else some ts
  | .define n name span make =>
    some (if n < ts.1.size then (ts.1.define n name span make ts.2).2 else ts)

section

variable (node : ScopeNode)

theorem framesFrom_cons_self (older : List ScopeNode) :
    framesFrom (node :: older) (older.length + 1) = node.frame :: framesFrom older node.parent := by
  rw [framesFrom, if_pos rfl]

theorem framesFrom_cons_of_le (h : n ≤ older.length) :
    framesFrom (node :: older) n = framesFrom older n := by
  rw [framesFrom, if_neg (by omega)]

end

theorem framesFrom_zero : ∀ nodes : List ScopeNode, framesFrom nodes 0 = []
  | [] => rfl
  | node :: older => (framesFrom_cons_of_le node (Nat.zero_le _)).trans (framesFrom_zero older)

theorem frame_zero (t : ScopeTree) : t.frame 0 = t.rootFrame := by
  rw [frame, view, framesFrom_zero]
  rfl

theorem framesFrom_eq_nil_iff : ∀ {nodes : List ScopeNode} {n : Nat}, n ≤ nodes.length →
    (framesFrom nodes n = [] ↔ n = 0)
  | [], n, h => ⟨fun _ => Nat.le_zero.mp h, fun _ => rfl⟩
  | node :: older, n, h => by
    by_cases hn : n = older.length + 1
    · subst hn
      rw [framesFrom_cons_self]
      exact ⟨nofun, nofun⟩
    · have hle : n ≤ older.length := by
        rw [length_cons] at h
        omega
      rw [framesFrom_cons_of_le node hle]
      exact framesFrom_eq_nil_iff hle

/-! ## Changes of one scope -/

theorem length_setNode (n : Nat) (f : Frame) : ∀ nodes : List ScopeNode,
    (setNode n f nodes).length = nodes.length
  | [] => rfl
  | node :: older => by
    rw [setNode]
    split
    · rfl
    · rw [length_cons, length_cons, length_setNode n f older]

/-- The changed scope sees the change, and behind it what it saw before. -/
theorem framesFrom_setNode_self {n : Nat} (f : Frame) : ∀ {nodes : List ScopeNode},
    n ≤ nodes.length → n ≠ 0 → framesFrom (setNode n f nodes) n = f :: (framesFrom nodes n).tail
  | [], h, h0 => absurd (Nat.le_zero.mp h) h0
  | node :: older, h, h0 => by
    rw [setNode]
    by_cases hn : n = older.length + 1
    · rw [if_pos hn, framesFrom, framesFrom, if_pos hn, if_pos hn, tail_cons]
    · have hle : n ≤ older.length := by
        rw [length_cons] at h
        omega
      rw [if_neg hn, framesFrom, framesFrom, length_setNode, if_neg hn, if_neg hn]
      exact framesFrom_setNode_self f hle h0

section

variable (t)

@[simp] theorem size_setFrame (n : Nat) (f : Frame) : (t.setFrame n f).size = t.size := by
  unfold setFrame size
  split
  · rfl
  · exact congrArg (· + 1) (length_setNode n f t.nodes)

end

theorem head?_framesFrom_setNode {n m : Nat} (f : Frame) (h : m ≠ n) :
    ∀ nodes : List ScopeNode,
      (framesFrom (setNode n f nodes) m).head? = (framesFrom nodes m).head?
  | [] => rfl
  | node :: older => by
    rw [setNode]
    by_cases hm : m = older.length + 1
    · rw [if_neg (fun hn => h (hm.trans hn.symm)), framesFrom, framesFrom, length_setNode,
        if_pos hm, if_pos hm, head?_cons, head?_cons]
    · split
      · rw [framesFrom, framesFrom, if_neg hm, if_neg hm]
      · rw [framesFrom, framesFrom, length_setNode, if_neg hm, if_neg hm]
        exact head?_framesFrom_setNode f h older

/-- `setFrame` changes the names of one scope only. -/
theorem frame_setFrame (h : n < t.size) (f : Frame) (hm : m < t.size) :
    (t.setFrame n f).frame m = if m = n then f else t.frame m := by
  have hle : n ≤ t.nodes.length := Nat.lt_succ_iff.mp h
  by_cases hn : n = 0
  · subst hn
    split
    · next hm0 =>
      rw [hm0, frame_zero]
      rfl
    · next hm0 =>
      have hne : framesFrom t.nodes m ≠ [] := fun hnil =>
        hm0 ((framesFrom_eq_nil_iff (Nat.lt_succ_iff.mp hm)).mp hnil)
      obtain ⟨g, outer, hframes⟩ := exists_cons_of_ne_nil hne
      simp [setFrame, frame, view, Scope.frame, hframes]
  · split
    · next hmn =>
      rw [hmn, setFrame, if_neg hn, frame, view, framesFrom_setNode_self f hle hn]
      rfl
    · next hmn =>
      rw [setFrame, if_neg hn, frame, frame, view, view, Scope.frame, Scope.frame,
        head?_framesFrom_setNode f hmn]

theorem setNode_self {n : Nat} {f : Frame} : ∀ {nodes : List ScopeNode}, n ≠ 0 →
    (framesFrom nodes n).head? = some f → setNode n f nodes = nodes
  | [], _, _ => rfl
  | node :: older, h0, h => by
    rw [setNode]
    by_cases hn : n = older.length + 1
    · rw [framesFrom, if_pos hn] at h
      cases h
      rw [if_pos hn]
    · rw [framesFrom, if_neg hn] at h
      rw [if_neg hn, setNode_self h0 h]

/-- `setFrame` with the names that a scope has changes nothing. -/
theorem setFrame_frame (h : n < t.size) : t.setFrame n (t.frame n) = t := by
  by_cases hn : n = 0
  · subst hn
    rw [frame_zero]
    rfl
  · have hne : framesFrom t.nodes n ≠ [] := fun hnil =>
      hn ((framesFrom_eq_nil_iff (Nat.lt_succ_iff.mp h)).mp hnil)
    obtain ⟨f, outer, hframes⟩ := exists_cons_of_ne_nil hne
    have hframe : t.frame n = f := by
      rw [frame, view, hframes]
      rfl
    rw [setFrame, if_neg hn, hframe, setNode_self hn (hframes ▸ rfl)]

/-! ## New scopes -/

theorem size_child (t : ScopeTree) (n : Nat) (name : String) : (t.child n name).size = t.size + 1 :=
  rfl

/-- The new scope sees what `enter` gives. -/
theorem view_child_self (t : ScopeTree) (n : Nat) (name : String) :
    (t.child n name).view t.size = (t.view n).enter name := by
  rw [view]
  show Scope.mk _ _ (framesFrom (_ :: t.nodes) (t.nodes.length + 1)) _ = _
  rw [framesFrom_cons_self]
  rfl

/-- `child` changes nothing that the other scopes see. -/
theorem view_child (h : m < t.size) (n : Nat) (name : String) :
    (t.child n name).view m = { t.view m with nextId := t.nextId + 1 } := by
  rw [view]
  show Scope.mk _ _ (framesFrom (_ :: t.nodes) m) _ = _
  rw [framesFrom_cons_of_le _ (Nat.lt_succ_iff.mp h)]
  rfl

theorem frame_child (h : m < t.size) (n : Nat) (name : String) :
    (t.child n name).frame m = t.frame m := by
  rw [frame, view_child h]
  rfl

theorem frame_child_self (t : ScopeTree) (n : Nat) (name : String) :
    (t.child n name).frame t.size = ⟨t.nextId, name, []⟩ := by
  rw [frame, view_child_self]
  rfl

/-! ## Names -/

/-- A name that a scope cannot take: its own, or in the root one of the host. -/
def Taken (t : ScopeTree) (n : Nat) (name : String) : Prop :=
  (∃ symbol ∈ (t.frame n).symbols, symbol.name = name) ∨
    n = 0 ∧ ∃ symbol ∈ t.builtins.symbols, symbol.name = name

theorem isSome_findSymbol_iff {symbols : List Symbol} :
    (findSymbol symbols name).isSome ↔ ∃ symbol ∈ symbols, symbol.name = name := by
  rw [findSymbol, find?_isSome]
  simp only [beq_iff_eq]

/-- `isTaken` says what `Taken` says. -/
theorem isTaken_view_iff (h : n < t.size) (name : String) :
    (t.view n).isTaken name = true ↔ t.Taken n name := by
  have hroot : (t.view n).inner.isEmpty = true ↔ n = 0 := by
    rw [List.isEmpty_iff]
    exact framesFrom_eq_nil_iff (Nat.lt_succ_iff.mp h)
  rw [Scope.isTaken, Bool.or_eq_true, Bool.and_eq_true, hroot, isSome_findSymbol_iff,
    Registry.lookup, isSome_findSymbol_iff]
  rfl

/-- A name that is `Taken` is an error. Neither the tree nor the state changes. -/
theorem define_of_taken {σ : Type} (h : n < t.size) (htaken : t.Taken n name) (span : Span)
    (make : σ → Definition × σ) (state : σ) :
    t.define n name span make state = (.error (.duplicate name span), t, state) := by
  rw [define, Scope.define, if_pos ((isTaken_view_iff h name).mpr htaken)]
  exact congrArg (fun t' => (_, t', state)) (setFrame_frame h)

/-- A tree after a `Symbol` was added to one of its scopes. -/
def extend (t : ScopeTree) (n : Nat) (symbol : Symbol) : ScopeTree :=
  t.setFrame n { t.frame n with symbols := (t.frame n).symbols ++ [symbol] }

theorem frame_push (s : Scope) (symbol : Symbol) :
    (s.push symbol).frame = { s.frame with symbols := s.frame.symbols ++ [symbol] } := by
  unfold Scope.push Scope.frame
  cases s.inner <;> rfl

/-- The `Symbol` that a definition adds to a scope. -/
def defined (t : ScopeTree) (n : Nat) (name : String) (span : Span) (d : Definition) : Symbol :=
  ⟨name, (t.frame n).id, span, d⟩

/-- `define` yields its symbol, the tree with it, and the state after `make`. -/
theorem define_of_not_taken {σ : Type} (h : n < t.size) (hfree : ¬t.Taken n name) (span : Span)
    (make : σ → Definition × σ) (state : σ) :
    t.define n name span make state = (.ok (t.defined n name span (make state).1),
      t.extend n (t.defined n name span (make state).1), (make state).2) := by
  have hnot : ¬(t.view n).isTaken name = true := fun htaken =>
    hfree ((isTaken_view_iff h name).mp htaken)
  rw [define, Scope.define, if_neg hnot]
  dsimp only
  rw [frame_push]
  rfl

/-- Scopes are numbered by their ids, each holds every name once, and its symbols carry its id. -/
structure Sound (t : ScopeTree) : Prop where
  nextId_eq : t.nextId.toNat = t.size + 1
  id_eq : ∀ n < t.size, (t.frame n).id.toNat = n + 1
  owned : ∀ n < t.size, ∀ symbol ∈ (t.frame n).symbols, symbol.scope = (t.frame n).id
  nodup : ∀ n < t.size, ((t.frame n).symbols.map Named.name).Nodup

/-- The counter of ids goes on as long as it does not start again from zero. -/
theorem toNat_succ {id : ScopeId} (h : id + 1 ≠ 0) : (id + 1).toNat = id.toNat + 1 := by
  have hlt := id.toNat_lt
  rw [ne_eq, ← UInt32.toNat_inj, UInt32.toNat_add] at h
  rw [UInt32.toNat_add]
  change ¬(id.toNat + 1) % 2 ^ 32 = 0 at h
  change (id.toNat + 1) % 2 ^ 32 = _
  omega

/-- The scopes after `child` are the old ones and the one that was opened. -/
theorem forall_frame_child (P : Nat → Frame → Prop) (n : Nat) (name : String)
    (hold : ∀ m < t.size, P m (t.frame m)) (hnew : P t.size ⟨t.nextId, name, []⟩) :
    ∀ m < (t.child n name).size, P m ((t.child n name).frame m) := by
  intro m hm
  by_cases hlt : m < t.size
  · rw [frame_child hlt]
    exact hold m hlt
  · have heq : m = t.size := by
      rw [size_child] at hm
      omega
    rw [heq, frame_child_self]
    exact hnew

/-- `child` keeps a tree `Sound`, if there is an id after the new one. -/
theorem Sound.child (h : t.Sound) (hids : t.nextId + 1 ≠ 0) (n : Nat) (name : String) :
    (t.child n name).Sound := by
  refine ⟨?_, ?_, ?_, ?_⟩
  · show (t.nextId + 1).toNat = t.size + 1 + 1
    rw [toNat_succ hids, h.nextId_eq]
  · exact forall_frame_child (fun m f => f.id.toNat = m + 1) n name h.id_eq h.nextId_eq
  · exact forall_frame_child (fun _ f => ∀ symbol ∈ f.symbols, symbol.scope = f.id) n name h.owned
      (forall_mem_nil _)
  · exact forall_frame_child (fun _ f => (f.symbols.map Named.name).Nodup) n name h.nodup nodup_nil

/-- The scopes after `extend` are the old ones, but for the symbol that one of them got. -/
theorem forall_frame_extend (P : Nat → Frame → Prop) (hn : n < t.size) {symbol : Symbol}
    (hold : ∀ m < t.size, P m (t.frame m))
    (hnew : P n { t.frame n with symbols := (t.frame n).symbols ++ [symbol] }) :
    ∀ m < (t.extend n symbol).size, P m ((t.extend n symbol).frame m) := by
  intro m hm
  rw [extend, size_setFrame] at hm
  rw [extend, frame_setFrame hn _ hm]
  split
  · next hmn => exact hmn ▸ hnew
  · exact hold m hm

/-- `extend` keeps a tree `Sound`. -/
theorem Sound.extend (h : t.Sound) (hn : n < t.size) {symbol : Symbol}
    (hfree : ¬t.Taken n symbol.name) (hscope : symbol.scope = (t.frame n).id) :
    (t.extend n symbol).Sound := by
  have hnext : (t.extend n symbol).nextId = t.nextId := by
    rw [ScopeTree.extend, setFrame]
    split <;> rfl
  refine ⟨?_, ?_, ?_, ?_⟩
  · rw [hnext, ScopeTree.extend, size_setFrame]
    exact h.nextId_eq
  · exact forall_frame_extend (fun m f => f.id.toNat = m + 1) hn h.id_eq (h.id_eq n hn)
  · refine forall_frame_extend (fun _ f => ∀ symbol ∈ f.symbols, symbol.scope = f.id) hn h.owned ?_
    exact forall_mem_append.mpr ⟨h.owned n hn, forall_mem_singleton.mpr hscope⟩
  · refine forall_frame_extend (fun _ f => (f.symbols.map Named.name).Nodup) hn h.nodup ?_
    rw [map_append, nodup_append]
    refine ⟨h.nodup n hn, nodup_cons.mpr ⟨not_mem_nil, nodup_nil⟩,
      fun name hname name' hname' heq => ?_⟩
    -- a name that the scope holds already is not free
    obtain ⟨other, hother, rfl⟩ := mem_map.mp hname
    rw [map_singleton, mem_singleton] at hname'
    exact hfree (.inl ⟨other, hother, heq.trans hname'⟩)

/-- Each call keeps a tree `Sound`. -/
theorem Sound.step {σ : Type} {ts ts' : ScopeTree × σ} (h : ts.1.Sound) {call : Call σ}
    (hstep : step ts call = some ts') : ts'.1.Sound := by
  cases call with
  | child n name =>
    rw [ScopeTree.step] at hstep
    split at hstep
    · split at hstep
      · cases hstep
      · next hids =>
        cases hstep
        exact h.child hids n name
    · cases hstep
      exact h
  | define n name span make =>
    cases hstep
    split
    · next hn =>
      by_cases htaken : ts.1.Taken n name
      · rw [define_of_taken hn htaken]
        exact h
      · rw [define_of_not_taken hn htaken]
        exact h.extend hn htaken rfl
    · exact h

/-- Calls keep a tree `Sound`. -/
theorem Sound.foldlM {σ : Type} : ∀ {calls : List (Call σ)} {ts ts' : ScopeTree × σ},
    ts.1.Sound → calls.foldlM ScopeTree.step ts = some ts' → ts'.1.Sound
  | [], ts, ts', h, hcalls => by
    cases hcalls
    exact h
  | call :: calls, ts, ts', h, hcalls => by
    rw [foldlM_cons] at hcalls
    obtain ⟨ts₁, hstep, hcalls⟩ := Option.bind_eq_some_iff.mp hcalls
    exact (h.step hstep).foldlM hcalls

end ScopeTree

end ContractScript
