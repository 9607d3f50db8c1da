import ContractScript.Proofs.Provenance

/-!
# The depth of the stack

Walks through the pieces of a construct that see no values, only how many there are (`nexts`,
`Reaches`). Every way that control may take is a walk: both ways of a condition, and an exception at
every operation. The pieces for a symbol are one step, which takes the arguments and leaves the
value, if there is one. The handler of an open try statement (`Guard`) starts with the exception
above the values that were there when it was opened.

The floor is part of the walk, so that a walk which never gets stuck has never reached below it.
-/

namespace ContractScript

open List

variable {l : Label} {rest : List Piece} {n depth after argCount : Nat} {x : Point}
  {guards : List Guard} {piece : Piece} {effects : List Effect} {kind : JumpKind}
  {ctx ctx' : Context} {symbol : Symbol} {op : BinaryOp} {ty : Ty} {e : Expr}

/-! ## Effects -/

/-- How many values are taken from the stack, and how many are left in their place. -/
structure Effect where
  pops : Nat
  pushes : Nat
deriving Repr, DecidableEq

/-- What an `Opcode` that only works on values does to the stack. -/
def Opcode.effect? : Opcode → Option Effect
  | .dup => some ⟨1, 2⟩
  | .drop => some ⟨1, 0⟩
  | .not | .negate | .invert | .isNull | .size => some ⟨1, 1⟩
  | .add | .sub | .mul | .div | .mod | .pow | .shl | .shr | .and | .or | .xor | .lt | .le | .gt
  | .ge | .numEqual | .numNotEqual | .equal | .notEqual | .cat => some ⟨2, 1⟩
  | _ => none

/-- What an `Operation` that only works on values and slots does to the stack. -/
def Operation.effect? : Operation → Option Effect
  | .simple opcode => opcode.effect?
  | .pushInt _ | .pushData _ | .pushBool _ | .pushNull | .load _ _ => some ⟨0, 1⟩
  | .convert _ | .isType _ => some ⟨1, 1⟩
  | .store _ _ => some ⟨1, 0⟩
  | .label _ | .anchor | .initSlots _ _ | .initStatics _ => some ⟨0, 0⟩
  | .jump _ _ | .try _ _ | .endTry _ | .call _ | .callToken _ | .service _ | .return => none

/-- What the `Operation`s for an event do to the stack, one by one. Packing takes as many values as
the number above them says. -/
def notifyEffects? : List Operation → Option (List Effect)
  | [.pushInt count, .simple .pack, .pushData _, .service .runtimeNotify] =>
    some [⟨0, 1⟩, ⟨count.toNat + 1, 1⟩, ⟨0, 1⟩, ⟨2, 0⟩]
  | _ => none

/-- What the `Operation`s for a definition do to the stack. Those of the host are taken as one. -/
def Definition.effects? (d : Definition) (ops : List Operation) : Option (List Effect) :=
  match d with
  | .event _ _ => notifyEffects? ops
  | _ => d.paramCount?.map fun count => [⟨count, d.returns.toNat⟩]

/-- What a `Piece` that control goes through does to the stack. -/
def Piece.effects? : Piece → Option (List Effect)
  | .op operation => operation.effect?.map fun effect => [effect]
  | .use symbol _ _ ops => symbol.definition.effects? ops
  | .leave _ _ => none

/-- The depth after effects in order, none of which reaches below the floor. -/
def depthAfter (floor : Nat) : List Effect → Nat → Option Nat
  | [], depth => some depth
  | effect :: rest, depth =>
    if floor + effect.pops ≤ depth then
      depthAfter floor rest (depth - effect.pops + effect.pushes)
    else none

/-- How many values a jump decides by. -/
def JumpKind.pops : JumpKind → Nat
  | .always => 0
  | .ifTrue | .ifFalse => 1
  | _ => 2

/-! ## Walks -/

/-- Where control is bound for: a `Label`, or out of the function. -/
inductive Target where
  | label (l : Label)
  | out (hasValue : Bool)
deriving Repr, DecidableEq

/-- The part of a try statement that control is in. A finalizer knows what control is bound for
afterwards, unless an exception is on its way. -/
inductive GuardPhase where
  | body
  | handler
  | finalizer (target : Option Target)
deriving Repr, DecidableEq

/-- An open try statement, with the depth of the stack when it was opened. -/
structure Guard where
  handler : Option Label
  finalizer : Option Label
  depth : Nat
  phase : GuardPhase
deriving Repr, DecidableEq

/-- Where control is. -/
inductive Place where
  /-- Before what is left of the code. -/
  | code (rest : List Piece)
  /-- At a label outside of the code. -/
  | left (target : Label)
  | returned (hasValue : Bool)
  /-- An exception has left the code. -/
  | raised

structure Point where
  place : Place
  depth : Nat
  guards : List Guard

/-- Whether a walk ends at a `Point`. -/
def Point.isOver (x : Point) : Bool :=
  match x.place with
  | .code (_ :: _) => false
  | _ => true

/-- The code after a `Label`. -/
def codeAfter (l : Label) : List Piece → Option (List Piece)
  | [] => none
  | .op (.label l') :: rest => if l' = l then some rest else codeAfter l rest
  | _ :: rest => codeAfter l rest

section Steps

variable (floor : Nat) (code : List Piece)

/-- Control goes to where it is bound for. -/
def goTo (depth : Nat) (guards : List Guard) : Target → Point
  | .label l =>
    match codeAfter l code with
    | some rest => ⟨.code rest, depth, guards⟩
    | none => ⟨.left l, depth, guards⟩
  | .out hasValue => ⟨.returned hasValue, depth, guards⟩

/-- An exception goes to the handler or the finalizer of the innermost try statement that still
has one for it. -/
def raise : List Guard → Point
  | [] => ⟨.raised, 0, []⟩
  | guard :: guards =>
    match guard.phase, guard.handler, guard.finalizer with
    | .body, some l, _ =>
      goTo code (guard.depth + 1) ({ guard with phase := .handler } :: guards) (.label l)
    | .body, none, some l | .handler, _, some l =>
      goTo code guard.depth ({ guard with phase := .finalizer none } :: guards) (.label l)
    | _, _, _ => raise guards

/-- The innermost try statement is left through its finalizer, which itself cannot be left so. A
try statement that was opened before the walk is left at once. -/
def leaveTry (depth : Nat) (target : Target) : List Guard → Option Point
  | [] => some (goTo code depth [] target)
  | guard :: guards =>
    match guard.phase, guard.finalizer with
    | .finalizer _, _ => none
    | _, some l =>
      some (goTo code depth ({ guard with phase := .finalizer (some target) } :: guards) (.label l))
    | _, none => some (goTo code depth guards target)

/-- The `Point`s after a piece that sends control somewhere else. -/
def transfer (depth : Nat) (guards : List Guard) (rest : List Piece) : Piece → Option (List Point)
  | .op (.jump .always l) => some [goTo code depth guards (.label l)]
  | .op (.jump kind l) =>
    if floor + kind.pops ≤ depth then
      some [goTo code (depth - kind.pops) guards (.label l),
        ⟨.code rest, depth - kind.pops, guards⟩]
    else none
  | .op (.try handler finalizer) =>
    some [⟨.code rest, depth, ⟨handler, finalizer, depth, .body⟩ :: guards⟩]
  | .op (.endTry l) => (leaveTry code depth (.label l) guards).map fun x => [x]
  | .op (.simple .endFinally) =>
    match guards with
    | ⟨_, _, _, .finalizer (some target)⟩ :: outer => some [goTo code depth outer target]
    | ⟨_, _, _, .finalizer none⟩ :: outer => some [raise code outer]
    | _ => none
  -- what is left is to raise the exception
  | .op (.simple .throw) => if floor + 1 ≤ depth then some [] else none
  | .leave hasValue (.endTry _) =>
    (leaveTry code depth (.out hasValue) guards).map fun x => [x]
  | .leave hasValue (.jump .always _) => some [goTo code depth guards (.out hasValue)]
  | _ => none

/-- The `Point`s after a piece that raises no exception. -/
def advance (depth : Nat) (guards : List Guard) (rest : List Piece) (piece : Piece) :
    Option (List Point) :=
  match piece.effects? with
  | some effects => (depthAfter floor effects depth).map fun after => [⟨.code rest, after, guards⟩]
  | none => transfer floor code depth guards rest piece

/-- The `Point`s that a walk may go on to. It is stuck where there is no answer. -/
def nexts (x : Point) : Option (List Point) :=
  match x.place with
  | .code (piece :: rest) =>
    (advance floor code x.depth x.guards rest piece).map (raise code x.guards :: ·)
  | _ => some []

/-- A walk leads from a `Point` to another one. -/
inductive Reaches (x : Point) : Point → Prop where
  | refl : Reaches x x
  | step {y z : Point} {ys : List Point} : Reaches x y → nexts floor code y = some ys → z ∈ ys →
    Reaches x z

end Steps

/-! ### Labels -/

variable {code : List Piece}

theorem mem_labelsIn_ownCode (h : .op (.label l) :: rest <:+ code) :
    l ∈ labelsIn (ownCode code) := by
  obtain ⟨before, rfl⟩ := h
  simp [Piece.ownOps, labelsIn_append, Operation.placedLabel?]

/-- `codeAfter` finds the place of a label. -/
theorem codeAfter_eq_some (hnodup : (labelsIn (ownCode code)).Nodup)
    (h : .op (.label l) :: rest <:+ code) : codeAfter l code = some rest := by
  induction code with
  | nil => exact absurd (suffix_nil.mp h) nofun
  | cons piece code ih =>
    rw [ownCode_cons, labelsIn_append] at hnodup
    rcases suffix_cons_iff.mp h with heq | htail
    · cases heq
      exact if_pos rfl
    · have hrest := ih (nodup_append.mp hnodup).2.1 htail
      have hmem := mem_labelsIn_ownCode htail
      unfold codeAfter
      split
      · next heq => cases heq
      · next l' _ heq =>
        cases heq
        rw [if_neg, hrest]
        rintro rfl
        exact (nodup_append.mp hnodup).2.2 _ (by simp [Piece.ownOps, Operation.placedLabel?])
          _ hmem rfl
      · next heq =>
        cases heq
        exact hrest

/-- `codeAfter` finds no place of a label that is not there. -/
theorem codeAfter_eq_none (h : l ∉ labelsIn (ownCode code)) : codeAfter l code = none := by
  induction code with
  | nil => rfl
  | cons piece code ih =>
    rw [ownCode_cons, labelsIn_append, mem_append, not_or] at h
    unfold codeAfter
    split
    · rfl
    · next l' _ heq =>
      cases heq
      rw [if_neg, ih h.2]
      rintro rfl
      exact h.1 (by simp [Piece.ownOps, Operation.placedLabel?])
    · next heq =>
      cases heq
      exact ih h.2

theorem goTo_label (hnodup : (labelsIn (ownCode code)).Nodup)
    (h : .op (.label l) :: rest <:+ code) (depth : Nat) (guards : List Guard) :
    goTo code depth guards (.label l) = ⟨.code rest, depth, guards⟩ := by
  rw [goTo, codeAfter_eq_some hnodup h]

theorem goTo_label_left (h : l ∉ labelsIn (ownCode code)) (depth : Nat) (guards : List Guard) :
    goTo code depth guards (.label l) = ⟨.left l, depth, guards⟩ := by
  rw [goTo, codeAfter_eq_none h]

/-! ## Safety -/

/-- For so many steps no walk gets stuck, and each one that ends does so as it should. -/
def Safe (floor : Nat) (code : List Piece) (Ends : Point → Prop) : Nat → Point → Prop
  | 0, _ => True
  | n + 1, x => (x.isOver = true → Ends x) ∧
    ∃ ys, nexts floor code x = some ys ∧ ∀ y ∈ ys, Safe floor code Ends n y

section Safety

variable {floor : Nat} {code : List Piece} {Ends : Point → Prop}

/-- What is `Safe` is so for less steps. -/
theorem Safe.mono {m : Nat} (h : Safe floor code Ends n x) (hle : m ≤ n) :
    Safe floor code Ends m x := by
  induction n generalizing m x with
  | zero =>
    cases Nat.le_zero.mp hle
    exact h
  | succ n ih =>
    cases m with
    | zero => trivial
    | succ m =>
      obtain ⟨hends, ys, hnexts, hys⟩ := h
      exact ⟨hends, ys, hnexts, fun y hy => ih (hys y hy) (Nat.le_of_succ_le_succ hle)⟩

/-- What is `Safe` for any number of steps is so along a whole walk. -/
theorem Safe.of_reaches {y : Point} (h : ∀ n, Safe floor code Ends n x)
    (hy : Reaches floor code x y) : ∀ n, Safe floor code Ends n y := by
  induction hy with
  | refl => exact h
  | step _ hnexts hz ih =>
    intro n
    obtain ⟨-, ys, hys, hsafe⟩ := ih (n + 1)
    cases hnexts.symm.trans hys
    exact hsafe _ hz

/-- The end of a walk. -/
theorem Safe.over (hover : x.isOver = true) (h : Ends x) : Safe floor code Ends n x := by
  cases n with
  | zero => trivial
  | succ n =>
    refine ⟨fun _ => h, [], ?_, forall_mem_nil _⟩
    unfold nexts
    unfold Point.isOver at hover
    split
    · next hplace =>
      rw [hplace] at hover
      cases hover
    · rfl

/-- One step, after which the point has to be `Safe` for less steps. -/
theorem Safe.step {n depth : Nat} {guards : List Guard} {piece : Piece} {rest : List Piece}
    {ys : List Point} (hadvance : advance floor code depth guards rest piece = some ys)
    (hraise : Safe floor code Ends n (raise code guards))
    (hys : ∀ y ∈ ys, ∀ m < n, Safe floor code Ends m y) :
    Safe floor code Ends n ⟨.code (piece :: rest), depth, guards⟩ := by
  cases n with
  | zero => trivial
  | succ n =>
    refine ⟨nofun, raise code guards :: ys, ?_, ?_⟩
    · simp only [nexts, hadvance, Option.map_some]
    · intro y hy
      rcases mem_cons.mp hy with rfl | hmem
      · exact hraise.mono (Nat.le_succ n)
      · exact hys y hmem n (Nat.lt_succ_self n)

/-- What a step of a `Safe` point leads to is so for less steps. -/
theorem Safe.next {ys : List Point}
    (h : Safe floor code Ends n ⟨.code (piece :: rest), depth, guards⟩)
    (hadvance : advance floor code depth guards rest piece = some ys) :
    ∀ y ∈ ys, ∀ m < n, Safe floor code Ends m y := by
  intro y hy m hm
  cases n with
  | zero => exact absurd hm (Nat.not_lt_zero m)
  | succ n =>
    obtain ⟨-, zs, hnexts, hzs⟩ := h
    simp only [nexts, hadvance, Option.map_some, Option.some.injEq] at hnexts
    subst hnexts
    exact (hzs y (mem_cons_of_mem _ hy)).mono (Nat.le_of_lt_succ hm)

theorem advance_work (heffects : piece.effects? = some effects)
    (hafter : depthAfter floor effects depth = some after) :
    advance floor code depth guards rest piece = some [⟨.code rest, after, guards⟩] := by
  simp only [advance, heffects, hafter, Option.map_some]

/-- A jump that is decided by the value on top is taken or not. -/
theorem advance_branch (hkind : kind.pops = 1) (hdepth : floor ≤ depth) :
    advance floor code (depth + 1) guards rest (.op (.jump kind l)) =
      some [goTo code depth guards (.label l), ⟨.code rest, depth, guards⟩] := by
  cases kind <;> cases hkind <;>
    simp [advance, Piece.effects?, Operation.effect?, transfer, JumpKind.pops, hdepth]

/-- A piece that only works on values is `Safe` if what follows it is. -/
theorem Safe.work (heffects : piece.effects? = some effects)
    (hafter : depthAfter floor effects depth = some after)
    (hraise : Safe floor code Ends n (raise code guards))
    (h : Safe floor code Ends n ⟨.code rest, after, guards⟩) :
    Safe floor code Ends n ⟨.code (piece :: rest), depth, guards⟩ := by
  refine .step (advance_work heffects hafter) hraise fun y hy m hm => ?_
  cases mem_singleton.mp hy
  exact h.mono (Nat.le_of_lt hm)

/-- A jump is `Safe` if the place of its label is. -/
theorem Safe.jump (hraise : Safe floor code Ends n (raise code guards))
    (h : ∀ m < n, Safe floor code Ends m (goTo code depth guards (.label l))) :
    Safe floor code Ends n ⟨.code (.op (.jump .always l) :: rest), depth, guards⟩ := by
  have hadvance : advance floor code depth guards rest (.op (.jump .always l)) =
      some [goTo code depth guards (.label l)] := rfl
  refine .step hadvance hraise fun y hy => ?_
  cases mem_singleton.mp hy
  exact h

/-- A jump that is decided by the value on top. -/
theorem Safe.branch (hkind : kind.pops = 1) (hdepth : floor ≤ depth)
    (hraise : Safe floor code Ends n (raise code guards))
    (htaken : Safe floor code Ends n (goTo code depth guards (.label l)))
    (hnot : Safe floor code Ends n ⟨.code rest, depth, guards⟩) :
    Safe floor code Ends n ⟨.code (.op (.jump kind l) :: rest), depth + 1, guards⟩ := by
  refine .step (advance_branch hkind hdepth) hraise fun y hy m hm => ?_
  rcases mem_cons.mp hy with rfl | hmem
  · exact htaken.mono (Nat.le_of_lt hm)
  · cases mem_singleton.mp hmem
    exact hnot.mono (Nat.le_of_lt hm)

theorem Safe.label (hdepth : floor ≤ depth) (hraise : Safe floor code Ends n (raise code guards))
    (h : Safe floor code Ends n ⟨.code rest, depth, guards⟩) :
    Safe floor code Ends n ⟨.code (.op (.label l) :: rest), depth, guards⟩ :=
  .work rfl (if_pos hdepth) hraise h

/-! ## Code that leaves values -/

/-- How many values are left of a number of values by `Operation`s that only work on those. -/
def heightAfter : List Operation → Nat → Option Nat
  | [], height => some height
  | op :: rest, height =>
    match op.effect? with
    | some effect =>
      if effect.pops ≤ height then heightAfter rest (height - effect.pops + effect.pushes) else none
    | none => none

/-- The first of the operations finds the values that it takes (`heightAfter`). -/
theorem exists_of_heightAfter {x height height' : Nat} {op : Operation} {ops : List Operation}
    (h : heightAfter (op :: ops) height = some height') (hx : floor ≤ x) :
    ∃ effects after, (Piece.op op).effects? = some effects ∧
      depthAfter floor effects (x + height) = some (x + after) ∧
        heightAfter ops after = some height' := by
  unfold heightAfter at h
  split at h
  · next effect heffect =>
    split at h
    · next hpops =>
      refine ⟨[effect], _, by rw [Piece.effects?, heffect, Option.map_some], ?_, h⟩
      simp only [depthAfter]
      rw [if_pos (by omega)]
      congr 1
      omega
    · cases h
  · cases h

theorem Safe.ops {n x height height' : Nat} {guards : List Guard} {ops : List Operation}
    {rest : List Piece} (hheight : heightAfter ops height = some height') (hx : floor ≤ x)
    (hraise : Safe floor code Ends n (raise code guards))
    (h : Safe floor code Ends n ⟨.code rest, x + height', guards⟩) :
    Safe floor code Ends n ⟨.code (plain ops ++ rest), x + height, guards⟩ := by
  induction ops generalizing height with
  | nil =>
    cases hheight
    exact h
  | cons op ops ih =>
    obtain ⟨effects, after, heffects, hafter, hrest⟩ := exists_of_heightAfter hheight hx
    exact .work heffects hafter hraise (ih hrest)

/-- The use of a definition takes its arguments and may leave a value (`returns`). -/
theorem exists_effects {d : Definition} {ops : List Operation}
    (hparams : d.paramCount? = some argCount) (huses : Uses d argCount ctx ops ctx') {x : Nat}
    (hx : floor ≤ x) : ∃ effects, d.effects? ops = some effects ∧
      depthAfter floor effects (x + argCount) = some (x + d.returns.toNat) := by
  have hone : ∀ returns : Bool, depthAfter floor [⟨argCount, returns.toNat⟩] (x + argCount) =
      some (x + returns.toNat) := by
    intro returns
    simp only [depthAfter, Nat.add_sub_cancel]
    exact if_pos (Nat.add_le_add_right hx argCount)
  cases huses with
  | function =>
    cases hparams
    exact ⟨_, rfl, hone _⟩
  | host =>
    cases hparams
    exact ⟨_, rfl, hone _⟩
  | method _ =>
    cases hparams
    exact ⟨_, rfl, hone _⟩
  | event =>
    refine ⟨_, rfl, ?_⟩
    simp only [depthAfter, Int.toNat_natCast, Definition.returns, Bool.toNat_false]
    rw [if_pos (by omega), if_pos (by omega), if_pos (by omega), if_pos (by omega)]
    congr 1
    omega

/-- A copy of the value on the left is tested, and a jump is decided by it. -/
theorem exists_decideCode (op : BinaryOp) (l : Label) :
    ∃ ops kind, decideCode op l = ops ++ [Operation.jump kind l] ∧
      heightAfter (.simple .dup :: ops) 1 = some 2 ∧ kind.pops = 1 := by
  unfold decideCode
  split
  · exact ⟨[], .ifFalse, rfl, rfl, rfl⟩
  · exact ⟨[], .ifTrue, rfl, rfl, rfl⟩
  · exact ⟨[.simple .isNull], .ifFalse, rfl, rfl, rfl⟩

/-- The code on the right, guarded by that on the left. -/
def guardPieces (op : BinaryOp) (l : Label) (ps qs : List Piece) : List Piece :=
  ps ++ plain (.simple .dup :: (decideCode op l ++ [.simple .drop])) ++ qs ++ plain [.label l]

/-- The jump over the code on the right is decided by a copy of the value on the left. -/
theorem exists_guardPieces (op : BinaryOp) (l : Label) (ps qs rest : List Piece) :
    ∃ ops kind, heightAfter (.simple .dup :: ops) 1 = some 2 ∧ kind.pops = 1 ∧
      guardPieces op l ps qs ++ rest = ps ++ (plain (.simple .dup :: ops) ++
        (.op (.jump kind l) :: (plain [.simple .drop] ++ (qs ++ (.op (.label l) :: rest))))) := by
  obtain ⟨ops, kind, hdecide, hops, hkind⟩ := exists_decideCode op l
  exact ⟨ops, kind, hops, hkind, by simp [guardPieces, hdecide, plain]⟩

/-- Code after which there are so many values more, if it raises no exception. It reaches below
none of those that it finds, nor does it send control out of itself. -/
def Leaves (floor : Nat) (code : List Piece) (Ends : Point → Prop) (ps : List Piece)
    (count : Nat) : Prop :=
  ∀ ⦃n x : Nat⦄ ⦃guards : List Guard⦄ ⦃rest : List Piece⦄, ps ++ rest <:+ code → floor ≤ x →
    Safe floor code Ends n (raise code guards) →
    Safe floor code Ends n ⟨.code rest, x + count, guards⟩ →
    Safe floor code Ends n ⟨.code (ps ++ rest), x, guards⟩

namespace Leaves

variable {ps qs : List Piece} {count count' : Nat}

theorem nil : Leaves floor code Ends [] 0 :=
  fun _ _ _ _ _ _ _ h => h

/-- Code that `Leaves` some values, after code that `Leaves` others. -/
theorem append (hps : Leaves floor code Ends ps count) (hqs : Leaves floor code Ends qs count') :
    Leaves floor code Ends (ps ++ qs) (count + count') := by
  intro n x guards rest hcode hx hraise h
  rw [append_assoc] at hcode ⊢
  refine hps hcode hx hraise ?_
  refine hqs ((suffix_append ps _).trans hcode) (Nat.le_add_right_of_le hx) hraise ?_
  rwa [Nat.add_assoc]

/-- Operations work on the values that were left (`heightAfter`). -/
theorem work {ops : List Operation} (hps : Leaves floor code Ends ps count)
    (hops : heightAfter ops count = some count') :
    Leaves floor code Ends (ps ++ plain ops) count' := by
  intro n x guards rest hcode hx hraise h
  rw [append_assoc] at hcode ⊢
  exact hps hcode hx hraise (.ops hops hx hraise h)

theorem of_ops {ops : List Operation} (hops : heightAfter ops 0 = some count) :
    Leaves floor code Ends (plain ops) count :=
  nil.work hops

/-- A symbol is used, which takes its arguments and may leave a value. -/
theorem use {isWanted : Bool} {ops : List Operation} (hps : Leaves floor code Ends ps argCount)
    (hparams : symbol.definition.paramCount? = some argCount)
    (huses : Uses symbol.definition argCount ctx ops ctx') :
    Leaves floor code Ends (ps ++ [.use symbol argCount isWanted ops])
      symbol.definition.returns.toNat := by
  intro n x guards rest hcode hx hraise h
  rw [append_assoc] at hcode ⊢
  obtain ⟨effects, heffects, hafter⟩ := exists_effects hparams huses hx
  exact hps hcode hx hraise (.work heffects hafter hraise h)

/-- The code on the right is gone through unless the value on the left decides. -/
theorem guard (hnodup : (labelsIn (ownCode code)).Nodup) (hps : Leaves floor code Ends ps 1)
    {x : Nat} (hcode : guardPieces op l ps qs ++ rest <:+ code) (hx : floor ≤ x)
    (hraise : Safe floor code Ends n (raise code guards))
    (hdecided : Safe floor code Ends n ⟨.code rest, x + 1, guards⟩)
    (hright : qs ++ .op (.label l) :: rest <:+ code →
      Safe floor code Ends n ⟨.code (qs ++ .op (.label l) :: rest), x, guards⟩) :
    Safe floor code Ends n ⟨.code (guardPieces op l ps qs ++ rest), x, guards⟩ := by
  obtain ⟨ops, kind, hops, hkind, heq⟩ := exists_guardPieces op l ps qs rest
  rw [heq] at hcode ⊢
  have hcode₁ := (suffix_append ps _).trans hcode
  have hcode₂ := (suffix_append (plain (.simple .dup :: ops)) _).trans hcode₁
  have hcode₃ := ((suffix_append (plain [.simple .drop]) _).trans
    (suffix_cons _ _)).trans hcode₂
  have hlabel := (suffix_append qs _).trans hcode₃
  refine hps hcode hx hraise (.ops hops hx hraise ?_)
  refine .branch hkind (Nat.le_succ_of_le hx) hraise ?_ ?_
  · rw [goTo_label hnodup hlabel]
    exact hdecided
  · exact .ops (show heightAfter [.simple .drop] 1 = some 0 from rfl) hx hraise (hright hcode₃)

/-- The value on the left is kept if it decides, and else dropped for that on the right. -/
theorem shortCircuit (hnodup : (labelsIn (ownCode code)).Nodup)
    (hps : Leaves floor code Ends ps 1) (hqs : Leaves floor code Ends qs 1) (op : BinaryOp)
    (l : Label) : Leaves floor code Ends (guardPieces op l ps qs) 1 := by
  intro n x guards rest hcode hx hraise h
  refine hps.guard hnodup hcode hx hraise h fun hright => ?_
  exact hqs hright hx hraise (.label (Nat.le_succ_of_le hx) hraise h)

end Leaves

/-- A relation between code and the number of values that it leaves, which is kept where code is put
together. -/
structure Counts (L : List Piece → Nat → Prop) : Prop where
  nil : L [] 0
  append : ∀ {ps qs count count'}, L ps count → L qs count' → L (ps ++ qs) (count + count')
  work : ∀ {ps ops count count'}, L ps count → heightAfter ops count = some count' →
    L (ps ++ plain ops) count'
  use : ∀ {ps symbol argCount isWanted ops ctx ctx'}, L ps argCount →
    symbol.definition.paramCount? = some argCount →
    Uses symbol.definition argCount ctx ops ctx' →
    L (ps ++ [.use symbol argCount isWanted ops]) symbol.definition.returns.toNat
  shortCircuit : ∀ {ps qs}, L ps 1 → L qs 1 → ∀ op l, L (guardPieces op l ps qs) 1

/-- `Leaves` is kept where code is put together. -/
theorem Counts.leaves (hnodup : (labelsIn (ownCode code)).Nodup) :
    Counts (Leaves floor code Ends) where
  nil := .nil
  append := .append
  work := .work
  use := .use
  shortCircuit := .shortCircuit hnodup

/-! ## Expressions -/

variable {ps : List Piece}

theorem heightAfter_push (c : Constant) : heightAfter [c.push] 0 = some 1 := by
  cases c <;> rfl

theorem heightAfter_operatorOps {ops : List Operation} (h : operatorOps? op ty = some ops) :
    heightAfter ops 2 = some 1 := by
  unfold operatorOps? at h
  split at h
  · obtain ⟨opcode, hopcode, rfl⟩ := Option.map_eq_some_iff.mp h
    cases op <;> cases hopcode <;> rfl
  · split at h
    · split at h
      · cases h
        rfl
      · cases h
    · cases h
      rfl
    · cases h
      rfl
    · cases h

theorem heightAfter_unaryOps (op : UnaryOp) : heightAfter op.ops 1 = some 1 := by
  cases op <;> rfl

theorem heightAfter_nullTest (isNegated : Bool) :
    heightAfter (.simple .isNull :: (bif isNegated then [.simple .not] else [])) 1 = some 1 := by
  cases isNegated <;> rfl

theorem heightAfter_dropIf (isLeft : Bool) :
    heightAfter (bif isLeft then [.simple .drop] else []) isLeft.toNat = some 0 := by
  cases isLeft <;> rfl

theorem heightAfter_storeCode (keep : Bool) (kind : SlotKind) (index : Nat) :
    heightAfter (storeCode keep kind index) 1 = some keep.toNat := by
  cases keep <;> rfl

variable {L : List Piece → Nat → Prop}

theorem Counts.of_ops (hL : Counts L) {ops : List Operation} {count : Nat}
    (hops : heightAfter ops 0 = some count) : L (plain ops) count :=
  hL.work hL.nil hops

/-- An assignment combines the variable, if it reads it, with the value on the right, and keeps a
copy of the result if that is wanted. -/
theorem Counts.assign (hL : Counts L) {op : Option BinaryOp} {keep : Bool} {kind : SlotKind}
    {index : Nat} {ops : List Operation} (hps : L ps 1) (h : Combines ty op ops) :
    L (assignPieces op keep kind index ps ops) keep.toNat := by
  have hstore := heightAfter_storeCode keep kind index
  have hplain : plain (ops ++ storeCode keep kind index) =
      plain ops ++ plain (storeCode keep kind index) := map_append
  rw [assignPieces, hplain, ← append_assoc]
  cases op with
  | none =>
    cases h
    exact hL.work (hL.work (hL.append hL.nil hps) rfl) hstore
  | some op =>
    have hload : L (plain [.load kind index]) 1 := hL.of_ops rfl
    exact hL.work (hL.work (hL.append hload hps) (heightAfter_operatorOps h)) hstore

/-- A symbol whose value is wanted has one, and takes just the arguments that it is given. -/
def Piece.hasValue : Piece → Bool
  | .use symbol argCount isWanted _ =>
    !isWanted || (symbol.definition.returns && symbol.definition.paramCount? == some argCount)
  | _ => true

/-- A symbol with a value leaves that value. -/
theorem Counts.value (hL : Counts L) {ops : List Operation} (hps : L ps argCount)
    (huses : Uses symbol.definition argCount ctx ops ctx')
    (hvalue : (Piece.use symbol argCount true ops).hasValue = true) :
    L (ps ++ [.use symbol argCount true ops]) 1 := by
  simp only [Piece.hasValue, Bool.not_true, Bool.false_or, Bool.and_eq_true, beq_iff_eq] at hvalue
  have huse : L (ps ++ [.use symbol argCount true ops]) symbol.definition.returns.toNat :=
    hL.use hps hvalue.2 huses
  rwa [hvalue.1] at huse

mutual

/-- An expression leaves its value, for all that `Counts`. -/
theorem ExprCode.counts (hL : Counts L) {e : Expr} {ctx ctx' : Context} {ps : List Piece}
    (h : ExprCode e ctx ps ctx') (hps : ∀ piece ∈ ps, piece.hasValue = true) : L ps 1 := by
  match h with
  | .literal => exact hL.of_ops (heightAfter_push _)
  | .variable _ _ => exact hL.of_ops rfl
  | .constant _ _ => exact hL.of_ops (heightAfter_push _)
  | .shortCircuit _ hleft hright =>
    rw [forall_mem_append, forall_mem_append, forall_mem_append] at hps
    exact hL.shortCircuit (hleft.counts hL hps.1.1.1) (hright.counts hL hps.1.2) _ _
  | .nullTest _ _ _ hoperand =>
    rw [forall_mem_append] at hps
    exact hL.work (hoperand.counts hL hps.1) (heightAfter_nullTest _)
  | .operator _ _ hleft hright hops =>
    rw [forall_mem_append, forall_mem_append] at hps
    exact hL.work (hL.append (hleft.counts hL hps.1.1) (hright.counts hL hps.1.2))
      (heightAfter_operatorOps hops)
  | .negated _ => exact hL.of_ops rfl
  | .unary _ hoperand =>
    rw [forall_mem_append] at hps
    exact hL.work (hoperand.counts hL hps.1) (heightAfter_unaryOps _)
  | .assign _ hvalue hcombines =>
    rw [assignPieces, forall_mem_append, forall_mem_append] at hps
    exact hL.assign (hvalue.counts hL hps.1.2) hcombines
  | .call _ _ hargs huses =>
    rw [forall_mem_append, forall_mem_singleton] at hps
    exact hL.value (hargs.counts hL hps.1) huses hps.2
  | .property _ _ huses =>
    rw [forall_mem_singleton] at hps
    exact hL.value hL.nil huses hps
  | .length _ _ _ hobject =>
    rw [forall_mem_append] at hps
    exact hL.work (hobject.counts hL hps.1) rfl
  | .paren hinner => exact hinner.counts hL hps

/-- Arguments leave a value each. -/
theorem ArgsCode.counts (hL : Counts L) {args : List Expr} {ctx ctx' : Context} {ps : List Piece}
    (h : ArgsCode args ctx ps ctx') (hps : ∀ piece ∈ ps, piece.hasValue = true) :
    L ps args.length := by
  match h with
  | .nil => exact hL.nil
  | .cons hrest harg =>
    rw [forall_mem_append] at hps
    exact hL.append (hrest.counts hL hps.1) (harg.counts hL hps.2)

end

/-- An expression `Leaves` its value. -/
theorem ExprCode.leaves (hnodup : (labelsIn (ownCode code)).Nodup) (h : ExprCode e ctx ps ctx')
    (hps : ∀ piece ∈ ps, piece.hasValue = true) : Leaves floor code Ends ps 1 :=
  h.counts (.leaves hnodup) hps

/-- An `Expr` that may stand as a statement: an assignment, a call, or what has a value to drop. -/
def Expr.isEffectOrValue (e : Expr) : Bool :=
  e.unparenthesized.isEffect || !e.unparenthesized.ty.isVoid

/-- An expression that stands as a statement `Leaves` nothing. -/
theorem DiscardedCode.leaves (hnodup : (labelsIn (ownCode code)).Nodup)
    (h : DiscardedCode e ctx ps ctx') (he : e.isEffectOrValue = true)
    (hps : ∀ piece ∈ ps, piece.hasValue = true) : Leaves floor code Ends ps 0 := by
  have hL : Counts (Leaves floor code Ends) := .leaves hnodup
  cases h with
  | assign _ _ hvalue hcombines =>
    rw [assignPieces, forall_mem_append, forall_mem_append] at hps
    exact hL.assign (hvalue.leaves hnodup hps.1.2) hcombines
  | call _ _ hparams hargs huses =>
    rw [forall_mem_append, forall_mem_append] at hps
    exact ((hargs.counts hL hps.1.1).use hparams huses).work (heightAfter_dropIf _)
  | value heffect hvalue =>
    rw [Expr.isEffectOrValue, heffect, Bool.false_or, Bool.not_eq_true'] at he
    rw [forall_mem_append] at hps
    rw [he]
    exact (hvalue.leaves hnodup hps.1).work rfl

end Safety

end ContractScript
