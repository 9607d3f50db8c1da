import ContractScript.Proofs.GlobalNames
import ContractScript.Proofs.LowerSteps

/-!
# Code and scopes that are alike

Two runs of lowering over token tables of different pasts write operations that are the same but for
the indices of tokens (`Draft.Alike`), and finish them in the same way (`Draft.Alike.finish`). They
read scopes in which every name has the same meaning, whoever owns it (`Scope.Alike`).
-/

namespace ContractScript

open List

variable {op op' : Operation} {d d' : Draft} {ops ops' : List Op} {symbols : List Symbol}
  {symbol symbol' : Symbol}

/-! ## Operations that are alike -/

/-- Whether an `Operation` names an entry of the token table. -/
def Operation.namesToken : Operation → Bool
  | .callToken _ => true
  | _ => false

/-- The same `Operation`, or the calls of two tokens that are linked. -/
inductive Operation.Alike (link : Nat → Nat → Prop) : Operation → Operation → Prop
  | same {op : Operation} (h : op.namesToken = false) : Alike link op op
  | token {i j : Nat} (h : link i j) : Alike link (.callToken i) (.callToken j)

structure Op.Alike (link : Nat → Nat → Prop) (op op' : Op) : Prop where
  operation : op.operation.Alike link op'.operation
  location_eq : op.location = op'.location

/-- `Draft`s that are the same but for the tokens that their operations name. -/
def Draft.Alike (link : Nat → Nat → Prop) (d d' : Draft) : Prop :=
  ∃ ops, d' = { d with ops := ops } ∧ List.Forall₂ (Op.Alike link) d.ops.toList ops.toList

/-- `Routine`s that are the same but for the tokens that their operations name. -/
def Routine.Alike (link : Nat → Nat → Prop) (r r' : Routine) : Prop :=
  ∃ ops, r' = { r with ops := ops } ∧ List.Forall₂ (Op.Alike link) r.ops ops

section Operations

variable {link link' : Nat → Nat → Prop}

section

variable (h : ∀ i j, link i j → link' i j)
include h

/-- `Operation.Alike` over a weaker link. -/
theorem Operation.Alike.mono (hop : op.Alike link op') : op.Alike link' op' := by
  cases hop with
  | same hsame => exact .same hsame
  | token hlink => exact .token (h _ _ hlink)

theorem Op.Alike.mono {op op' : Op} (hop : op.Alike link op') : op.Alike link' op' :=
  ⟨hop.operation.mono h, hop.location_eq⟩

theorem Draft.Alike.mono (hd : d.Alike link d') : d.Alike link' d' := by
  obtain ⟨ops, rfl, hops⟩ := hd
  exact ⟨ops, rfl, hops.imp fun _ _ hop => hop.mono h⟩

theorem Routine.Alike.mono {r r' : Routine} (hr : r.Alike link r') : r.Alike link' r' := by
  obtain ⟨ops, rfl, hops⟩ := hr
  exact ⟨ops, rfl, hops.imp fun _ _ hop => hop.mono h⟩

end

/-- Appending operations that are alike keeps `Draft.Alike`. -/
theorem Draft.Alike.emitAt (h : d.Alike link d') (hop : op.Alike link op')
    (location : Option Span) : Draft.Alike link { d with ops := d.ops.push ⟨op, location⟩ }
      { d' with ops := d'.ops.push ⟨op', location⟩ } := by
  obtain ⟨ops, rfl, hops⟩ := h
  refine ⟨ops.push ⟨op', location⟩, rfl, ?_⟩
  rw [Array.toList_push, Array.toList_push]
  exact rel_append hops (.cons ⟨hop, rfl⟩ .nil)

/-- `Draft.nest` keeps `Draft.Alike`. -/
theorem Draft.Alike.nest (h : d.Alike link d') (f : Nesting → Nesting) :
    (d.nest f).Alike link (d'.nest f) := by
  obtain ⟨ops, rfl, hops⟩ := h
  exact ⟨ops, rfl, hops⟩

/-- `Draft.mark` keeps `Draft.Alike`. -/
theorem Draft.Alike.mark (h : d.Alike link d') (start : Nat) (span : Span) :
    (d.mark start span).Alike link (d'.mark start span) := by
  obtain ⟨ops, rfl, hops⟩ := h
  refine ⟨_, rfl, ?_⟩
  rw [Draft.mark, Array.toList_modify, Array.toList_modify]
  rw [forall₂_iff_getElem?] at hops ⊢
  refine ⟨by rw [length_modify, length_modify, hops.1], fun k op op' hop hop' => ?_⟩
  rw [getElem?_modify] at hop hop'
  obtain ⟨before, hbefore, rfl⟩ := Option.map_eq_some_iff.mp hop
  obtain ⟨before', hbefore', rfl⟩ := Option.map_eq_some_iff.mp hop'
  have halike := hops.2 k before before' hbefore hbefore'
  split
  · exact ⟨halike.operation, by rw [halike.location_eq]⟩
  · exact halike

/-! ## Finished drafts -/

section

variable (h : op.Alike link op')
include h

theorem Operation.Alike.isMarker_eq : op.isMarker = op'.isMarker := by
  cases h <;> rfl

theorem Operation.Alike.targets_eq : op.targets = op'.targets := by
  cases h <;> rfl

theorem Operation.Alike.beq_label_eq (l : Label) : (op == .label l) = (op' == .label l) := by
  cases h <;> rfl

/-- `isFallthrough` looks at labels and markers only. -/
theorem isFallthrough_alike {rest rest' : List Op}
    (hrest : List.Forall₂ (Op.Alike link) rest rest') :
    isFallthrough op rest = isFallthrough op' rest' := by
  have hany : ∀ l, (rest.takeWhile (·.operation.isMarker)).any (·.operation == .label l) =
      (rest'.takeWhile (·.operation.isMarker)).any (·.operation == .label l) := by
    intro l
    induction hrest with
    | nil => rfl
    | cons hop _ ih =>
      rw [takeWhile_cons, takeWhile_cons, hop.operation.isMarker_eq]
      split
      · rw [any_cons, any_cons, ih, hop.operation.beq_label_eq l]
      · rfl
  cases h with
  | same =>
    unfold isFallthrough
    split
    · exact hany _
    · rfl
  | token => rfl

end

section

variable (h : List.Forall₂ (Op.Alike link) ops ops')
include h

/-- `elideJumps` drops the same jumps on both sides. -/
theorem elideJumps_alike : List.Forall₂ (Op.Alike link) (elideJumps ops) (elideJumps ops') := by
  induction h with
  | nil => exact .nil
  | cons hop hrest ih =>
    rw [elideJumps, elideJumps, isFallthrough_alike hop.operation hrest]
    split
    · exact ih
    · exact .cons hop ih

/-- `placedLabels` does not depend on tokens. -/
theorem placedLabels_eq : placedLabels ops = placedLabels ops' := by
  unfold placedLabels
  induction h with
  | nil => rfl
  | @cons op op' _ _ hop _ ih =>
    obtain ⟨operation, location⟩ := op
    obtain ⟨operation', location'⟩ := op'
    have halike : operation.Alike link operation' := hop.operation
    rw [filterMap_cons, filterMap_cons, ih]
    cases halike <;> rfl

/-- `danglingTarget?` finds one label in both lists, or none in either. -/
theorem danglingTarget?_alike :
    (danglingTarget? ops).map (fun found => (found.1.location, found.2)) =
      (danglingTarget? ops').map fun found => (found.1.location, found.2) := by
  unfold danglingTarget?
  rw [placedLabels_eq h]
  generalize placedLabels ops' = placed
  dsimp only
  induction h with
  | nil => rfl
  | cons hop _ ih =>
    rw [findSome?_cons, findSome?_cons, hop.operation.targets_eq]
    cases List.find? (fun l => !placed.contains l) _ with
    | none => exact ih
    | some l => exact congrArg (fun location => some (location, l)) hop.location_eq

end

/-- The operations of a finished `Draft` whose body is given. -/
def Draft.finishedOps (d : Draft) (ops : Array Op) : List Op :=
  let body := elideJumps (ops.toList ++ [⟨.label returnTarget, none⟩, ⟨.return, none⟩])
  if d.params.isEmpty && d.locals.isEmpty then body
  else ⟨.initSlots d.locals.size d.params.size, none⟩ :: body

/-- `Draft.finish` where every target is placed. -/
theorem Draft.finish_of_none (h : danglingTarget? (d.finishedOps d.ops) = none) : d.finish = .ok {
      id := d.id
      name := d.name
      ops := d.finishedOps d.ops
      params := d.params.toList
      locals := d.locals.toList } := by
  unfold finishedOps at h ⊢
  simp_all [finish, place, emit]

/-- `Draft.finish` where a target is not placed. -/
theorem Draft.finish_of_some {op : Op} {l : Label}
    (h : danglingTarget? (d.finishedOps d.ops) = some (op, l)) : d.finish =
      .error (.invalidTarget d.name ("branch to label " ++ Text.decimalNat l) op.location) := by
  unfold finishedOps at h
  simp_all [finish, place, emit]

/-- `Draft.finish` fails with one fault on both sides, or gives `Routine.Alike` results. -/
theorem Draft.Alike.finish (h : d.Alike link d') :
    (∃ e, d.finish = .error e ∧ d'.finish = .error e) ∨
      ∃ r r', d.finish = .ok r ∧ d'.finish = .ok r' ∧ r.Alike link r' := by
  obtain ⟨ops, rfl, hops⟩ := h
  have hreturn := elideJumps_alike (rel_append hops
    (.cons ⟨.same rfl, rfl⟩ (.cons ⟨.same rfl, rfl⟩ .nil) :
      List.Forall₂ (Op.Alike link) [⟨.label returnTarget, none⟩, ⟨.return, none⟩] _))
  -- the operation that opens the slots is the same
  have hall : List.Forall₂ (Op.Alike link) (d.finishedOps d.ops)
      (Draft.finishedOps { d with ops := ops } ops) := by
    unfold Draft.finishedOps
    dsimp only
    split
    · exact hreturn
    · exact .cons ⟨.same rfl, rfl⟩ hreturn
  have hdangling := danglingTarget?_alike hall
  cases hfound : danglingTarget? (d.finishedOps d.ops) with
  | none =>
    rw [hfound, Option.map_none, eq_comm, Option.map_eq_none_iff] at hdangling
    exact .inr ⟨_, _, Draft.finish_of_none hfound, Draft.finish_of_none hdangling, _, rfl, hall⟩
  | some found =>
    rw [hfound, Option.map_some, eq_comm, Option.map_eq_some_iff] at hdangling
    obtain ⟨found', hfound', heq⟩ := hdangling
    obtain ⟨hlocation, hlabel⟩ := Prod.mk.inj heq
    refine .inl ⟨_, Draft.finish_of_some hfound, ?_⟩
    rw [Draft.finish_of_some hfound', hlocation, hlabel]

end Operations

/-! ## Operations without tokens -/

/-- `operatorOps?` names no token. -/
theorem namesToken_operatorOps? {op : BinaryOp} {ty : Ty} {ops : List Operation}
    (h : operatorOps? op ty = some ops) : ∀ o ∈ ops, o.namesToken = false := by
  unfold operatorOps? at h
  split at h
  · obtain ⟨o, -, rfl⟩ := Option.map_eq_some_iff.mp h
    simp [Operation.namesToken]
  · split at h
    · split at h
      · cases h
        simp [Operation.namesToken]
      · cases h
    · cases h
      simp [Operation.namesToken]
    · cases h
      simp [Operation.namesToken]
    · cases h

theorem namesToken_push (value : Constant) : value.push.namesToken = false := by
  cases value <;> rfl

theorem namesToken_unaryOps (op : UnaryOp) : ∀ o ∈ op.ops, o.namesToken = false := by
  cases op <;> simp [UnaryOp.ops, Operation.namesToken]

theorem namesToken_exit (exit : Exit) : exit.operation.namesToken = false := by
  cases exit <;> rfl

/-! ## Names that stand for the same -/

mutual

/-- The `Operation`s of the host that uses of a name, or of its members, write. -/
def Definition.hostOps : Definition → List Operation
  | .host call => call.ops
  | .object members => memberOps members
  | _ => []

def memberOps : List Symbol → List Operation
  | [] => []
  | ⟨_, _, _, d⟩ :: rest => d.hostOps ++ memberOps rest

end

/-- `memberOps` are the `hostOps` of all members. -/
theorem mem_memberOps {op : Operation} : ∀ {members : List Symbol},
    op ∈ memberOps members ↔ ∃ symbol ∈ members, op ∈ symbol.definition.hostOps
  | [] => by simp [memberOps]
  | ⟨_, _, _, d⟩ :: rest => by simp [memberOps, mem_memberOps]

/-- `Symbol`s of one name and meaning. Their owners may differ. -/
structure Symbol.Alike (plain : Operation → Prop) (symbol symbol' : Symbol) : Prop where
  name_eq : symbol.name = symbol'.name
  definition_eq : symbol.definition = symbol'.definition
  plain : ∀ op ∈ symbol.definition.hostOps, plain op

/-- Tables in which every name stands for the same. -/
def SymbolsAlike (plain : Operation → Prop) (symbols symbols' : List Symbol) : Prop :=
  ∀ name, Option.Rel (Symbol.Alike plain) (findSymbol symbols name) (findSymbol symbols' name)

/-- Scopes in which every name stands for the same, frame by frame. -/
structure Scope.Alike (plain : Operation → Prop) (s s' : Scope) : Prop where
  inner : List.Forall₂ (fun f f' => SymbolsAlike plain f.symbols f'.symbols) s.inner s'.inner
  root : SymbolsAlike plain s.rootFrame.symbols s'.rootFrame.symbols
  builtins : SymbolsAlike plain s.builtins.symbols s'.builtins.symbols

section Scopes

variable {plain : Operation → Prop}

/-- `Option.or` of related options. -/
theorem rel_or {α : Type} {R : α → α → Prop} {a a' b b' : Option α} (ha : Option.Rel R a a')
    (hb : Option.Rel R b b') : Option.Rel R (a.or b) (a'.or b') := by
  cases ha with
  | some h => exact .some h
  | none => exact hb

theorem isSome_eq_of_rel {α : Type} {R : α → α → Prop} {a a' : Option α}
    (h : Option.Rel R a a') : a.isSome = a'.isSome := by
  cases h <;> rfl

theorem symbolsAlike_nil : SymbolsAlike plain [] [] := fun _ => .none

/-- A table is `SymbolsAlike` to itself if all its operations are plain. -/
theorem symbolsAlike_refl (h : ∀ symbol ∈ symbols, ∀ op ∈ symbol.definition.hostOps, plain op) :
    SymbolsAlike plain symbols symbols := by
  intro name
  cases hfound : findSymbol symbols name with
  | none => exact .none
  | some symbol => exact .some ⟨rfl, rfl, h symbol (mem_of_find?_eq_some hfound)⟩

/-- `SymbolsAlike` with one symbol more on both sides. -/
theorem SymbolsAlike.concat {symbols' : List Symbol} (h : SymbolsAlike plain symbols symbols')
    (hsymbol : Symbol.Alike plain symbol symbol') :
    SymbolsAlike plain (symbols ++ [symbol]) (symbols' ++ [symbol']) := by
  intro name
  rw [findSymbol_append, findSymbol_append]
  refine rel_or (h name) ?_
  rw [findSymbol, findSymbol, find?_singleton, find?_singleton, hsymbol.name_eq]
  split
  · exact .some hsymbol
  · exact .none

/-- The nearest of the frames that hold a name gives it a `Symbol.Alike` meaning. -/
theorem findSome?_alike {frames frames' : List Frame}
    (h : List.Forall₂ (fun f f' => SymbolsAlike plain f.symbols f'.symbols) frames frames')
    (name : String) :
    Option.Rel (Symbol.Alike plain) (frames.findSome? fun f => findSymbol f.symbols name)
      (frames'.findSome? fun f => findSymbol f.symbols name) := by
  have hcons : ∀ (f : Frame) (rest : List Frame),
      ((f :: rest).findSome? fun f => findSymbol f.symbols name) =
        (findSymbol f.symbols name).or (rest.findSome? fun f => findSymbol f.symbols name) := by
    intro f rest
    rw [findSome?_cons]
    cases findSymbol f.symbols name <;> rfl
  induction h with
  | nil => exact .none
  | cons hframe _ ih =>
    rw [hcons, hcons]
    exact rel_or (hframe name) ih

namespace Scope.Alike

variable {s s' : Scope} (h : s.Alike plain s')

include h

/-- `Scope.lookup` finds symbols that are alike, or none. -/
theorem lookup (name : String) :
    Option.Rel (Symbol.Alike plain) (s.lookup name) (s'.lookup name) := by
  have hall := rel_or (findSome?_alike h.inner name) (rel_or (h.root name) (h.builtins name))
  simpa [Scope.lookup, Registry.lookup] using hall

/-- `Scope.isTaken` is the same on both sides. -/
theorem isTaken_eq (name : String) : s.isTaken name = s'.isTaken name := by
  obtain ⟨builtins, rootFrame, inner, nextId⟩ := s
  obtain ⟨builtins', rootFrame', inner', nextId'⟩ := s'
  obtain ⟨hinner, hroot, hbuiltins⟩ := h
  have hhost := isSome_eq_of_rel (hbuiltins name)
  unfold Scope.isTaken Registry.lookup
  cases hinner with
  | nil =>
    have hown := isSome_eq_of_rel (hroot name)
    exact congrArg₂ (fun own host => own || true && host) hown hhost
  | cons hframe _ =>
    have hown := isSome_eq_of_rel (hframe name)
    exact congrArg₂ (fun own host => own || false && host) hown hhost

theorem enter (name : String) : (s.enter name).Alike plain (s'.enter name) :=
  ⟨.cons symbolsAlike_nil h.inner, h.root, h.builtins⟩

/-- `Scope.leave` keeps `Scope.Alike`. -/
theorem leave : s.leave.Alike plain s'.leave := by
  obtain ⟨builtins, rootFrame, inner, nextId⟩ := s
  obtain ⟨builtins', rootFrame', inner', nextId'⟩ := s'
  obtain ⟨hinner, hroot, hbuiltins⟩ := h
  cases hinner with
  | nil => exact ⟨.nil, hroot, hbuiltins⟩
  | cons _ houter => exact ⟨houter, hroot, hbuiltins⟩

/-- `Scope.push` of symbols that are alike keeps `Scope.Alike`. -/
theorem push (hsymbol : Symbol.Alike plain symbol symbol') :
    (s.push symbol).Alike plain (s'.push symbol') := by
  obtain ⟨builtins, rootFrame, inner, nextId⟩ := s
  obtain ⟨builtins', rootFrame', inner', nextId'⟩ := s'
  obtain ⟨hinner, hroot, hbuiltins⟩ := h
  unfold Scope.push
  cases hinner with
  | nil => exact ⟨.nil, hroot.concat hsymbol, hbuiltins⟩
  | cons hframe houter => exact ⟨.cons (hframe.concat hsymbol) houter, hroot, hbuiltins⟩

end Scope.Alike

end Scopes

end ContractScript
