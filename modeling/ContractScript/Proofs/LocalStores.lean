import ContractScript.Proofs.Meaning
import ContractScript.Proofs.SlotSafety

/-!
# Stores to local slots

At every point of the lowering of a function the local variables in scope have slots that were
taken before (`Context.Bounded`). So the code of a construct stores only to slots that were taken
when its lowering is over (`Stays`), in programs with faults as well. Operations that the host
provides are left out here.
-/

namespace ContractScript

open List

variable {ctx ctx' ctx₁ ctx₂ : Context} {ps qs : List Piece} {bound bound' : Nat}

/-- Inside of a function, every local variable in scope has one of the slots that are taken. -/
structure Context.Bounded (ctx : Context) : Prop extends ctx.Allotted where
  global : ∀ name symbol, (findSymbol ctx.scope.rootFrame.symbols name <|>
    ctx.scope.builtins.lookup name) = some symbol →
      ∀ i isMutable, symbol.definition ≠ .slot .local i isMutable

/-- A name that stands for a local slot is `Bounded` by the slots that are taken. -/
theorem Context.Bounded.lt_of_lookup (h : ctx.Bounded) {name : String} {symbol : Symbol} {i : Nat}
    {isMutable : Bool} (hlookup : ctx.scope.lookup name = some symbol)
    (hdef : symbol.definition = .slot .local i isMutable) : i < ctx.locals.size := by
  rw [Scope.lookup] at hlookup
  cases hfound : ctx.scope.inner.findSome? fun f => findSymbol f.symbols name with
  | some found =>
    rw [hfound] at hlookup
    cases hlookup
    refine h.below (.local, i) (slot_mem_of_findIn hfound ?_)
    rw [slotOf?, hdef]
  | none =>
    rw [hfound] at hlookup
    exact absurd hdef (h.global name symbol hlookup i isMutable)

/-- What happens inside of a function changes no global name. -/
theorem Context.Bounded.of_grows (h : ctx.Bounded) (hgrows : ctx.Grows ctx') : ctx'.Bounded := by
  refine ⟨hgrows.allotted, ?_⟩
  rw [hgrows.rootFrame_eq, hgrows.builtins_eq]
  exact h.global

theorem Context.Bounded.enter (h : ctx.Bounded) (name : String) : (ctx.enter name).Bounded :=
  ⟨h.toAllotted.enter name, h.global⟩

theorem Context.Bounded.withLabel (h : ctx.Bounded) (l : Label) : (ctx.withLabel l).Bounded :=
  h.of_grows ((SameNames.withLabel ctx l).grows h.toAllotted)

/-- Code stores only to the first so many local slots. -/
def StoresBelow (bound : Nat) (ps : List Piece) : Prop :=
  ∀ i, .store .local i ∈ slotCode ps → i < bound

namespace StoresBelow

theorem append (h : StoresBelow bound ps) (h' : StoresBelow bound qs) :
    StoresBelow bound (ps ++ qs) := by
  intro i hi
  rw [slotCode_append] at hi
  rcases mem_append.mp hi with hi | hi
  · exact h i hi
  · exact h' i hi

theorem mono (h : StoresBelow bound ps) (hle : bound ≤ bound') : StoresBelow bound' ps :=
  fun i hi => Nat.lt_of_lt_of_le (h i hi) hle

theorem of_slotCode (h : slotCode ps = []) : StoresBelow bound ps := by
  intro i hi
  rw [h] at hi
  cases hi

end StoresBelow

/-- Code leads to a place inside of the same frames, and stores only to slots that are taken
there. -/
structure Stays (ctx : Context) (ps : List Piece) (ctx' : Context) : Prop where
  grows : ctx.Grows ctx'
  bounded : ctx'.Bounded
  stores : StoresBelow ctx'.locals.size ps

namespace Stays

theorem trans (h : Stays ctx ps ctx₁) (h' : Stays ctx₁ qs ctx₂) : Stays ctx (ps ++ qs) ctx₂ where
  grows := h.grows.trans h'.grows
  bounded := h'.bounded
  stores := (h.stores.mono h'.grows.locals_le).append h'.stores

/-- Code without a `slotCode` of its own. -/
theorem of_grows (hctx : ctx.Bounded) (h : ctx.Grows ctx') (hps : slotCode ps = []) :
    Stays ctx ps ctx' :=
  ⟨h, hctx.of_grows h, .of_slotCode hps⟩

/-- Operations that have nothing to do with local slots. -/
theorem ops (hctx : ctx.Bounded) (ops : List Operation)
    (hops : ops.filter Operation.isOnSlots = []) : Stays ctx (ContractScript.plain ops) ctx :=
  .of_grows hctx ((Context.SameNames.refl ctx).grows hctx.toAllotted) (by rw [slotCode_plain, hops])

theorem plain (h : Stays ctx ps ctx₁) (ops : List Operation)
    (hops : ops.filter Operation.isOnSlots = []) :
    Stays ctx (ps ++ ContractScript.plain ops) ctx₁ :=
  h.trans (.ops h.bounded ops hops)

end Stays

/-- All code stores only to slots that are taken: those of variables in scope, or the newest. -/
theorem piecewise_stays : Piecewise fun ctx ps ctx' => ctx.Bounded → Stays ctx ps ctx' where
  nil ctx h := .of_grows h (piecewise_grows.nil ctx h.toAllotted) rfl
  append h h' hctx := (h hctx).trans (h' (h hctx).bounded)
  op {ctx _} hop h := by
    refine ⟨piecewise_grows.op hop h.toAllotted, h, fun i hi => ?_⟩
    have hstore := mem_singleton.mp (mem_of_mem_filter hi)
    rcases hop.stores i hstore.symm with hnewest | ⟨_, _, _, hlookup, hdef⟩
    · exact Nat.lt_of_succ_le (Nat.le_of_eq hnewest)
    · exact h.lt_of_lookup hlookup hdef
  use _ _ huses h := .of_grows h (huses.sameNames.grows h.toAllotted) rfl
  leave ctx hasValue exit h :=
    .of_grows h (piecewise_grows.leave ctx hasValue exit h.toAllotted) (by simp)
  label ctx l h := .of_grows h (piecewise_grows.label ctx l h.toAllotted) rfl
  declareLocal ctx id ty isMutable h := .of_grows h (h.toAllotted.declareLocal id ty isMutable) rfl
  enclosed name h hctx := by
    obtain ⟨hgrows, -, hstores⟩ := h (hctx.enter name)
    have hleft := hgrows.leave hctx.toAllotted
    exact ⟨hleft, hctx.of_grows hleft, hstores⟩

/-- `ParamsIn` declares variables in slots of arguments. -/
theorem ParamsIn.bounded {params : List Param} (h : ParamsIn params ctx ctx')
    (hctx : ctx.Bounded) : ctx'.Bounded :=
  hctx.of_grows (piecewise_grows.params (fun _ name span ty h => h.declareParam name span ty) h
    hctx.toAllotted)

/-- No global name of a program stands for a local variable. -/
theorem bounded_start {p : Program} {scope : Scope} (hscope : SameGlobals p.declared.scope scope)
    (tokens : TokenTable) (name : String) :
    (Context.enter ⟨scope, #[], #[], 1, tokens⟩ name).Bounded where
  toAllotted := .start (hscope.inner_eq.trans (inner_declare _ p)) name
  global name symbol hfind i isMutable hdef := by
    have hdescribes := (describes_declare integers p).of_eq hscope.rootFrame_eq hscope.builtins_eq
    obtain ⟨hkind, -, -⟩ := (hdescribes name symbol hfind).1 _ _ _ hdef
    cases hkind

end ContractScript
