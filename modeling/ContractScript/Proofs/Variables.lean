import ContractScript.Proofs.Execution
import ContractScript.Proofs.Outcomes

/-!
# Variables and their slots

While a function is lowered, a scope says which slot each name stands for. `Agree` relates a scope,
the variables by name and the slots of the machine: every variable that is in scope has a slot of
its own that holds its value. `Describes` says what the global names of a scope mean.
-/

namespace ContractScript

open List

variable {V : Type}

/-! ## Agreement -/

/-- The slot of a `Symbol` that is a variable. -/
def slotOf? (symbol : Symbol) : Option (SlotKind × Nat) :=
  match symbol.definition with
  | .slot kind index _ => some (kind, index)
  | _ => none

/-- The slots of the variables in `Frame`s. -/
def slotsIn (frames : List Frame) : List (SlotKind × Nat) :=
  frames.flatMap fun f => f.symbols.filterMap slotOf?

/-- The slot of a `Symbol` holds the value of a variable of its name. It is no static slot. -/
def Holds (vars : Vars V) (symbol : Symbol) (b : String × V) : Prop :=
  symbol.name = b.1 ∧ ∃ kind index isMutable, symbol.definition = .slot kind index isMutable ∧
    kind ≠ .static ∧ (vars kind)[index]? = some b.2

/-- The slots of all symbols in `Frame`s hold the values of the variables, frame by frame. -/
abbrev FramesHold (vars : Vars V) (frames : List Frame) (bss : List (Bindings V)) : Prop :=
  List.Forall₂ (fun f bs => List.Forall₂ (Holds vars) f.symbols bs) frames bss

/-- The numbers of slots that a function works with. -/
structure Extent where
  locals : Nat
  statics : Nat

/-- The variables in scope have the values that their slots hold. -/
structure Agree (extent : Extent) (frames : List Frame) (σ : Store V) (vars : Vars V) : Prop where
  frames : FramesHold vars frames σ.frames
  statics : σ.statics = vars .static
  locals_length : (vars .local).length = extent.locals
  statics_length : (vars .static).length = extent.statics

/-- A symbol stands for what a name means globally, if it is a variable or a constant. The static
variables are numbered below `count`. -/
def Stands (I : Interpretation V) (count : Nat) (symbol : Symbol) (global : Option (Global V)) :
    Prop :=
  (∀ kind index isMutable, symbol.definition = .slot kind index isMutable →
    kind = .static ∧ index < count ∧ global = some (.static index)) ∧
  ∀ c, symbol.definition = .constant c → global = some (.constant (I.constant c))

theorem Stands.mono {I : Interpretation V} {count count' : Nat} {symbol : Symbol}
    {global : Option (Global V)} (h : Stands I count symbol global) (hle : count ≤ count') :
    Stands I count' symbol global := by
  refine ⟨fun kind index isMutable hdef => ?_, h.2⟩
  obtain ⟨hkind, hindex, hglobal⟩ := h.1 kind index isMutable hdef
  exact ⟨hkind, Nat.lt_of_lt_of_le hindex hle, hglobal⟩

/-- The global names of a `Scope` stand for what they mean. -/
def Describes (I : Interpretation V) (g : Globals V) (count : Nat) (scope : Scope) : Prop :=
  ∀ name symbol,
    (findSymbol scope.rootFrame.symbols name <|> scope.builtins.lookup name) = some symbol →
    Stands I count symbol (g name)

/-- What is declared in functions does not matter to global names. -/
theorem Describes.of_eq {I : Interpretation V} {g : Globals V} {count : Nat} {scope scope' : Scope}
    (h : Describes I g count scope) (hroot : scope'.rootFrame = scope.rootFrame)
    (hbuiltins : scope'.builtins = scope.builtins) : Describes I g count scope' := by
  unfold Describes at h ⊢
  rw [hroot, hbuiltins]
  exact h

/-! ## Names -/

section Frame

variable {vars : Vars V} {symbols : List Symbol} {bs : Bindings V} {name : String} {symbol : Symbol}
  {kind : SlotKind} {index : Nat}

theorem exists_of_rel {α β : Type} {R : α → β → Prop} {x : Option α} {y : Option β} {a : α}
    (h : Option.Rel R x y) (hx : x = some a) : ∃ b, y = some b ∧ R a b := by
  subst hx
  cases h with
  | some hab => exact ⟨_, rfl, hab⟩

theorem eq_none_of_rel {α β : Type} {R : α → β → Prop} {x : Option α} {y : Option β}
    (h : Option.Rel R x y) (hx : x = none) : y = none := by
  subst hx
  cases h
  rfl

/-- A name is found among the symbols exactly if it is found among the variables. -/
theorem lookup_rel (h : List.Forall₂ (Holds vars) symbols bs) (name : String) :
    Option.Rel (fun symbol v => Holds vars symbol (name, v)) (findSymbol symbols name)
      (bs.lookup name) := by
  induction h with
  | nil => exact .none
  | @cons symbol b _ _ hb _ ih =>
    rw [findSymbol, find?_cons, lookup_cons]
    by_cases hname : symbol.name = name
    · rw [beq_iff_eq.mpr hname, beq_iff_eq.mpr (hname.symm.trans hb.1)]
      exact .some ⟨hname, hb.2⟩
    · have hb' : (name == b.1) = false := beq_eq_false_iff_ne.mpr fun h => hname (hb.1.trans h.symm)
      rw [beq_eq_false_iff_ne.mpr hname, hb']
      exact ih

/-- `assignIn` changes no names that are not there. -/
theorem assignIn_eq_none (v : V) (h : bs.lookup name = none) : assignIn name v bs = none := by
  induction bs with
  | nil => rfl
  | cons b bs ih =>
    rw [lookup_cons] at h
    split at h
    · cases h
    · next hname =>
      rw [assignIn, if_neg fun heq => beq_eq_false_iff_ne.mp hname heq.symm, ih h]
      rfl

/-- Writing a slot of no symbol changes no variable. -/
theorem holds_set_of_not_mem (v : V) (h : List.Forall₂ (Holds vars) symbols bs)
    (hslot : (kind, index) ∉ symbols.filterMap slotOf?) :
    List.Forall₂ (Holds (vars.set kind index v)) symbols bs := by
  induction h with
  | nil => exact .nil
  | @cons symbol b symbols _ hb _ ih =>
    obtain ⟨hname, k, i, isMutable, hdef, hk, hvalue⟩ := hb
    have hslots : (symbol :: symbols).filterMap slotOf? = (k, i) :: symbols.filterMap slotOf? :=
      filterMap_cons_some (by rw [slotOf?, hdef])
    rw [hslots, mem_cons, not_or] at hslot
    refine .cons ⟨hname, k, i, isMutable, hdef, hk, ?_⟩ (ih hslot.2)
    rw [Vars.getElem?_set_ne (Ne.symm hslot.1)]
    exact hvalue

/-- Writing the slot of a symbol assigns to the variable of its name. -/
theorem holds_assignIn {isMutable : Bool} (v : V) (h : List.Forall₂ (Holds vars) symbols bs)
    (hdistinct : (symbols.filterMap slotOf?).Nodup)
    (hfind : findSymbol symbols name = some symbol)
    (hdef : symbol.definition = .slot kind index isMutable) : ∃ bs', assignIn name v bs = some bs' ∧
      List.Forall₂ (Holds (vars.set kind index v)) symbols bs' := by
  induction h with
  | nil => cases hfind
  | @cons symbol' b symbols bs hb hbs ih =>
    obtain ⟨hname', k, i, m, hdef', hk, hvalue⟩ := hb
    have hslots : (symbol' :: symbols).filterMap slotOf? = (k, i) :: symbols.filterMap slotOf? :=
      filterMap_cons_some (by rw [slotOf?, hdef'])
    rw [hslots, nodup_cons] at hdistinct
    rw [findSymbol, find?_cons] at hfind
    rw [assignIn]
    by_cases hname : symbol'.name = name
    · -- this is the variable; the others have other slots
      rw [beq_iff_eq.mpr hname] at hfind
      cases hfind
      cases hdef.symm.trans hdef'
      rw [if_pos (hname'.symm.trans hname)]
      refine ⟨_, rfl, .cons ⟨hname, kind, index, isMutable, hdef, hk, ?_⟩ ?_⟩
      · exact Vars.getElem?_set_self (List.getElem?_eq_some_iff.mp hvalue).1 v
      · exact holds_set_of_not_mem v hbs hdistinct.1
    · rw [beq_eq_false_iff_ne.mpr hname] at hfind
      rw [if_neg fun h => hname (hname'.trans h)]
      obtain ⟨bs', hassign, hbs'⟩ := ih hdistinct.2 hfind
      refine ⟨b :: bs', by rw [hassign]; rfl, .cons ⟨hname', k, i, m, hdef', hk, ?_⟩ hbs'⟩
      -- the slot that is written is that of a later symbol
      have hmem : (kind, index) ∈ symbols.filterMap slotOf? :=
        mem_filterMap.mpr ⟨symbol, mem_of_find?_eq_some hfind, by rw [slotOf?, hdef]⟩
      have hne : (k, i) ≠ (kind, index) := fun heq => hdistinct.1 (heq ▸ hmem)
      rw [Vars.getElem?_set_ne hne]
      exact hvalue

end Frame

section Frames

variable {vars : Vars V} {frames : List Frame} {bss : List (Bindings V)} {name : String}
  {symbol : Symbol} {kind : SlotKind} {index : Nat}

/-- The `Symbol` of a name in frames, from the inside out. -/
def findIn (frames : List Frame) (name : String) : Option Symbol :=
  frames.findSome? fun f => findSymbol f.symbols name

/-- `findIn` finds a name exactly if it is found among the variables. -/
theorem findIn_rel (h : FramesHold vars frames bss) (name : String) :
    Option.Rel (fun symbol v => Holds vars symbol (name, v)) (findIn frames name)
      (bss.findSome? (·.lookup name)) := by
  induction h with
  | nil => exact .none
  | @cons f bs _ _ hf _ ih =>
    have hrel := lookup_rel hf name
    rw [findIn, findSome?_cons, findSome?_cons]
    generalize findSymbol f.symbols name = x, bs.lookup name = y at hrel
    cases hrel with
    | some hholds => exact .some hholds
    | none => exact ih

theorem assignFrames_eq_none (v : V) (h : bss.findSome? (·.lookup name) = none) :
    assignFrames name v bss = none := by
  induction bss with
  | nil => rfl
  | cons bs bss ih =>
    rw [findSome?_cons] at h
    split at h
    · cases h
    · next hbs =>
      rw [assignFrames, assignIn_eq_none v hbs, ih h]
      rfl

/-- No variable of a frame has a static slot. -/
theorem static_not_mem_slotsIn (h : FramesHold vars frames bss) (index : Nat) :
    (.static, index) ∉ slotsIn frames := by
  intro hmem
  obtain ⟨f, hf, hslot⟩ := mem_flatMap.mp hmem
  obtain ⟨symbol, hsymbol, hslot⟩ := mem_filterMap.mp hslot
  obtain ⟨bs, -, hbs⟩ := exists_of_mem_left h hf
  obtain ⟨b, -, -, kind, i, isMutable, hdef, hkind, -⟩ := exists_of_mem_left hbs hsymbol
  rw [slotOf?, hdef] at hslot
  cases hslot
  exact hkind rfl

/-- Writing a slot of no symbol keeps `FramesHold`. -/
theorem frames_set_of_not_mem (v : V) (h : FramesHold vars frames bss)
    (hslot : (kind, index) ∉ slotsIn frames) : FramesHold (vars.set kind index v) frames bss := by
  induction h with
  | nil => exact .nil
  | cons hf _ ih =>
    rw [slotsIn, flatMap_cons, mem_append, not_or] at hslot
    exact .cons (holds_set_of_not_mem v hf hslot.1) (ih hslot.2)

theorem slot_mem_of_findIn {slot : SlotKind × Nat} (hfind : findIn frames name = some symbol)
    (hslot : slotOf? symbol = some slot) : slot ∈ slotsIn frames := by
  obtain ⟨f, hf, hsymbol⟩ := exists_of_findSome?_eq_some hfind
  refine mem_flatMap.mpr ⟨f, hf, mem_filterMap.mpr ⟨symbol, ?_, hslot⟩⟩
  exact mem_of_find?_eq_some hsymbol

/-- `assignFrames` follows a write to the slot of a name. -/
theorem frames_assign {isMutable : Bool} (v : V) (h : FramesHold vars frames bss)
    (hdistinct : (slotsIn frames).Nodup) (hfind : findIn frames name = some symbol)
    (hdef : symbol.definition = .slot kind index isMutable) :
    ∃ bss', assignFrames name v bss = some bss' ∧
      FramesHold (vars.set kind index v) frames bss' := by
  have hslot : slotOf? symbol = some (kind, index) := by rw [slotOf?, hdef]
  induction h with
  | nil => cases hfind
  | @cons f bs frames bss hf hrest ih =>
    rw [slotsIn, flatMap_cons, nodup_append] at hdistinct
    obtain ⟨hinner, houter, hdisjoint⟩ := hdistinct
    rw [findIn, findSome?_cons] at hfind
    rw [assignFrames]
    cases hsymbol : findSymbol f.symbols name with
    | some symbol' =>
      -- the innermost frame has the name, and none of the outer ones has its slot
      rw [hsymbol] at hfind
      cases hfind
      obtain ⟨bs', hassign, hbs'⟩ := holds_assignIn v hf hinner hsymbol hdef
      have hmem : (kind, index) ∈ f.symbols.filterMap slotOf? :=
        mem_filterMap.mpr ⟨symbol, mem_of_find?_eq_some hsymbol, hslot⟩
      rw [hassign]
      refine ⟨_, rfl, .cons hbs' (frames_set_of_not_mem v hrest fun hout => ?_)⟩
      exact hdisjoint _ hmem _ hout rfl
    | none =>
      rw [hsymbol] at hfind
      obtain ⟨bss', hassign, hbss'⟩ := ih houter hfind
      have hnone := assignIn_eq_none v (eq_none_of_rel (lookup_rel hf name) hsymbol)
      have hmem := slot_mem_of_findIn hfind hslot
      rw [hnone, hassign]
      refine ⟨bs :: bss', rfl, .cons (holds_set_of_not_mem v hf fun hin => ?_) hbss'⟩
      exact hdisjoint _ hin _ hmem rfl

end Frames

/-! ## The variables in scope -/

theorem Scope.lookup_eq (scope : Scope) (name : String) :
    scope.lookup name = (findIn scope.inner name <|>
      (findSymbol scope.rootFrame.symbols name <|> scope.builtins.lookup name)) := rfl

namespace Agree

variable {I : Interpretation V} {g : Globals V} {extent : Extent} {scope : Scope}
  {frames : List Frame} {σ : Store V} {vars : Vars V} {name : String} {symbol : Symbol}
  {kind : SlotKind} {index : Nat} {isMutable : Bool}

section

variable (h : Agree extent scope.inner σ vars)
include h

/-- A name that stands for a slot has the value that the slot holds (`get?`). -/
theorem load (hg : Describes I g extent.statics scope) (hlookup : scope.lookup name = some symbol)
    (hdef : symbol.definition = .slot kind index isMutable) :
    ∃ v, σ.get? g name = some v ∧ (vars kind)[index]? = some v := by
  rw [Scope.lookup_eq] at hlookup
  unfold Store.get?
  cases hfind : findIn scope.inner name with
  | some symbol' =>
    -- a variable of the function
    rw [hfind] at hlookup
    cases hlookup
    obtain ⟨v, hv, -, k, i, m, hdef', -, hvalue⟩ := exists_of_rel (findIn_rel h.frames name) hfind
    cases hdef.symm.trans hdef'
    rw [hv]
    exact ⟨v, rfl, hvalue⟩
  | none =>
    -- a static variable
    rw [hfind] at hlookup
    obtain ⟨rfl, hindex, hglobal⟩ := (hg name symbol hlookup).1 kind index isMutable hdef
    rw [eq_none_of_rel (findIn_rel h.frames name) hfind, hglobal]
    rw [← h.statics_length] at hindex
    refine ⟨(vars .static)[index], ?_, getElem?_eq_getElem hindex⟩
    dsimp only
    rw [h.statics]
    exact getElem?_eq_getElem hindex

/-- A name that stands for a constant has its value. -/
theorem constant (hg : Describes I g extent.statics scope)
    (hlookup : scope.lookup name = some symbol) {c : Constant}
    (hdef : symbol.definition = .constant c) : σ.get? g name = some (I.constant c) := by
  rw [Scope.lookup_eq] at hlookup
  unfold Store.get?
  cases hfind : findIn scope.inner name with
  | some symbol' =>
    rw [hfind] at hlookup
    cases hlookup
    obtain ⟨v, -, -, k, i, m, hdef', -, -⟩ := exists_of_rel (findIn_rel h.frames name) hfind
    cases hdef.symm.trans hdef'
  | none =>
    rw [hfind] at hlookup
    rw [eq_none_of_rel (findIn_rel h.frames name) hfind, (hg name symbol hlookup).2 c hdef]

/-- Writing the slot that a name stands for assigns to the name (`assign?`). -/
theorem store (hg : Describes I g extent.statics scope) (hdistinct : (slotsIn scope.inner).Nodup)
    (hlookup : scope.lookup name = some symbol)
    (hdef : symbol.definition = .slot kind index isMutable) (v : V) :
    ∃ σ', σ.assign? g name v = some σ' ∧ index < (vars kind).length ∧
      Agree extent scope.inner σ' (vars.set kind index v) := by
  rw [Scope.lookup_eq] at hlookup
  unfold Store.assign?
  have hlocals := (vars.length_set kind .local index v).trans h.locals_length
  have hstatics := (vars.length_set kind .static index v).trans h.statics_length
  cases hfind : findIn scope.inner name with
  | some symbol' =>
    rw [hfind] at hlookup
    cases hlookup
    obtain ⟨frames', hassign, hframes'⟩ := frames_assign v h.frames hdistinct hfind hdef
    obtain ⟨w, -, -, k, i, m, hdef', hk, hvalue⟩ := exists_of_rel (findIn_rel h.frames name) hfind
    cases hdef.symm.trans hdef'
    rw [hassign]
    -- its slot is no static one, so the static variables stay as they are
    refine ⟨_, rfl, (List.getElem?_eq_some_iff.mp hvalue).1, hframes', ?_, hlocals, hstatics⟩
    rw [Vars.set, if_neg (Ne.symm hk)]
    exact h.statics
  | none =>
    rw [hfind] at hlookup
    obtain ⟨rfl, hindex, hglobal⟩ := (hg name symbol hlookup).1 kind index isMutable hdef
    have hnone := assignFrames_eq_none v (eq_none_of_rel (findIn_rel h.frames name) hfind)
    rw [← h.statics_length] at hindex
    rw [hnone, hglobal]
    dsimp only
    rw [h.statics, if_pos hindex]
    refine ⟨_, rfl, hindex, ?_, ?_, hlocals, hstatics⟩
    · exact frames_set_of_not_mem v h.frames (static_not_mem_slotsIn h.frames index)
    · rw [Vars.set, if_pos rfl]

end

/-- Declaring a variable gives it a slot that no variable in scope has. -/
theorem declare {f : Frame} {outer : List Frame} (h : Agree extent (f :: outer) σ vars)
    (hfree : findSymbol f.symbols name = none) (hslot : (.local, index) ∉ slotsIn (f :: outer))
    (hindex : index < extent.locals) (hname : symbol.name = name)
    (hdef : symbol.definition = .slot .local index isMutable) (v : V) :
    ∃ σ', σ.declare? name v = some σ' ∧
      Agree extent ({ f with symbols := f.symbols ++ [symbol] } :: outer) σ'
        (vars.set .local index v) := by
  obtain ⟨bss, statics⟩ := σ
  have hframes := frames_set_of_not_mem v h.frames hslot
  cases hlist : bss with
  | nil =>
    rw [hlist] at hframes
    cases hframes
  | cons bs bss' =>
    rw [hlist] at hframes
    obtain ⟨hf, houter⟩ := forall₂_cons.mp hframes
    have hlookup := eq_none_of_rel (lookup_rel hf _) hfree
    unfold Store.declare?
    dsimp only
    rw [hlookup]
    refine ⟨_, rfl, .cons ?_ houter, ?_, ?_, ?_⟩
    · refine rel_append hf (.cons ⟨hname, .local, index, isMutable, hdef, ?_, ?_⟩ .nil)
      · exact nofun
      · exact Vars.getElem?_set_self (h.locals_length.symm ▸ hindex) v
    · exact h.statics
    · exact (vars.length_set .local .local index v).trans h.locals_length
    · exact (vars.length_set .local .static index v).trans h.statics_length

theorem enter (h : Agree extent frames σ vars) (id : ScopeId) (name : String) :
    Agree extent (⟨id, name, []⟩ :: frames) σ.enter vars :=
  ⟨.cons .nil h.frames, h.statics, h.locals_length, h.statics_length⟩

/-- The innermost variables go, and their slots no longer matter. -/
theorem leave (h : Agree extent frames σ vars) : Agree extent frames.tail σ.leave vars := by
  refine ⟨?_, h.statics, h.locals_length, h.statics_length⟩
  have htail := forall₂_drop 1 h.frames
  rwa [drop_one, drop_one] at htail

end Agree

end ContractScript
