import ContractScript.Proofs.Visited
import ContractScript.Proofs.StackDiscipline

/-!
# Loops and regions are closed on every way out

Lowering opens loops and try statements and goes from one phase of a try statement to the next. All
of this is undone where lowering ends, also where it ends with a fault at any depth. On the way, no
loop was opened inside of more try statements than there are, so the number of those that an exit
leaves, which `Nesting.exitTo` subtracts, is never negative.
-/

namespace ContractScript

open Lower

/-! ## Around a statement -/

/-- Lowering keeps the `Nesting` of the position. -/
theorem stmtLaws_nesting :
    StmtLaws (fun s s' => s'.draft.nesting = s.draft.nesting) (fun _ => True) where
  refl _ := rfl
  trans h h' := h'.trans h
  emit _ _ := rfl
  newLabel _ := rfl
  token _ _ := rfl
  symbol _ := trivial
  lowering _ := trivial
  tooLarge _ _ _ _ _ := trivial
  emitAt _ _ _ := rfl
  marked _ h := h
  declared _ _ _ _ := rfl
  enclosed _ h := h
  looped _ _ h := congrArg Nesting.exitLoop h
  outside h := congrArg Nesting.exitTry h

theorem nesting_lowerStmt (stmt : Stmt) (s : LowerState) :
    (finalState (lowerStmt stmt s)).draft.nesting = s.draft.nesting :=
  (lowerStmt_keeps stmtLaws_nesting stmt).finalState s

/-- `lowerExpr` opens nothing. -/
theorem nesting_lowerExpr (e : Expr) (s : LowerState) :
    (finalState (lowerExpr e s)).draft.nesting = s.draft.nesting :=
  (lowerExpr_keeps stmtLaws_nesting.toExprLaws e).finalState s

/-! ## Inside of a statement -/

instance (n : Nesting) : Decidable n.IsNested :=
  inferInstanceAs (Decidable (∀ loop ∈ n.loops, loop.tryDepth ≤ n.tries.length))

/-- `setPhase` changes no depth. -/
theorem Nesting.IsNested.setPhase {n : Nesting} (h : n.IsNested) (phase : TryPhase) :
    (n.setPhase phase).IsNested := by
  unfold Nesting.setPhase
  split
  · exact h
  · next htries =>
    intro loop hloop
    have hdepth := h loop hloop
    rw [htries] at hdepth
    exact hdepth

/-- What `Opens` a loop or a try statement keeps them nested. -/
theorem Opens.isNested {s t : LowerState} (h : Opens s t) (hs : s.draft.nesting.IsNested) :
    t.draft.nesting.IsNested := by
  cases h with
  | scope name => exact hs
  | loop continueLabel breakLabel => exact hs.enterLoop continueLabel breakLabel
  | region => exact hs.within .body
  | phase phase => exact hs.setPhase phase

/-- Wherever lowering comes inside of a statement, its `Nesting` is still `IsNested`. -/
theorem Visits.isNested {path : List Nat} {stmt r : Stmt} {s t : LowerState}
    (h : Visits path stmt s r t) (hs : s.draft.nesting.IsNested) : t.draft.nesting.IsNested := by
  refine h.preserves (P := (·.draft.nesting.IsNested)) stmtLaws_nesting ?_ Opens.isNested hs
  intro u v hsame hu
  rw [hsame]
  exact hu

/-! ## Exits -/

section

variable {n : Nesting}

/-- `exitTo` subtracts no more than there is, if it is asked for a loop that is open. -/
theorem Nesting.IsNested.exitTo_ne (h : n.IsNested) {loop : Loop} (hloop : loop ∈ n.loops)
    (target : Label) : n.exitTo target loop.tryDepth ≠ .error .underflow := by
  rw [ne_eq, exitTo_eq_underflow_iff, Nat.not_lt]
  exact h loop hloop

/-- `breakExit` asks for the depth of an open loop. -/
theorem Nesting.IsNested.breakExit_ne (h : n.IsNested) : n.breakExit ≠ .error .underflow := by
  unfold breakExit
  split
  · intro hno
    cases hno
  · next hloops => exact h.exitTo_ne (hloops ▸ List.mem_cons_self) _

theorem Nesting.IsNested.continueExit_ne (h : n.IsNested) :
    n.continueExit ≠ .error .underflow := by
  unfold continueExit
  split
  · intro hno
    cases hno
  · next hloops => exact h.exitTo_ne (hloops ▸ List.mem_cons_self) _

/-- A `returnExit` asks for a target that no region encloses. -/
theorem Nesting.returnExit_ne (n : Nesting) (target : Label) :
    n.returnExit target ≠ .error .underflow := by
  rw [returnExit, ne_eq, exitTo_eq_underflow_iff, Nat.not_lt]
  exact Nat.zero_le _

end

/-- However `lowerStmt` ends, the loops and the try statements around a statement are then as they
were before, with their phases. Wherever it comes on the way by the steps of its own (`Calls`), no
loop was opened inside of more try statements than there are, what is lowered there leaves them as
they are, and the subtraction in `Nesting.exitTo` does not underflow, whichever exit is taken. -/
theorem lowering_restores_jump_state (stmt : Stmt) (s : LowerState)
    (h : s.draft.nesting.IsNested) :
    (finalState (lowerStmt stmt s)).draft.nesting = s.draft.nesting ∧
    ∀ path r t, Visits path stmt s r t →
      Extends (finalState (lowerStmt r t)) (finalState (lowerStmt stmt s)) ∧
      (∀ i before part, r.Part i before part → Calls (lowerStmt r) before (lowerStmt part)) ∧
      t.draft.nesting.IsNested ∧
      (finalState (lowerStmt r t)).draft.nesting = t.draft.nesting ∧
      (∀ e, (finalState (lowerExpr e t)).draft.nesting = t.draft.nesting) ∧
      t.draft.nesting.breakExit ≠ .error .underflow ∧
      t.draft.nesting.continueExit ≠ .error .underflow ∧
      ∀ target, t.draft.nesting.returnExit target ≠ .error .underflow := by
  refine ⟨nesting_lowerStmt stmt s, fun path r t hvisit => ?_⟩
  have hnested := hvisit.isNested h
  exact ⟨hvisit.extends, fun _ _ _ hpart => hpart.calls, hnested, nesting_lowerStmt r t,
    fun e => nesting_lowerExpr e t, hnested.breakExit_ne, hnested.continueExit_ne,
    t.draft.nesting.returnExit_ne⟩

/-- A position in the body of a try statement inside of a loop inside of it. -/
def nestedState : LowerState where
  draft := { id := 0, name := "test", labelCount := 3, nesting := ⟨[⟨1, 2, 1⟩], [.body]⟩ }
  scope := { builtins := {}, rootFrame := ⟨1, "root", []⟩, nextId := 2 }
  tokens := .empty

/-- A loop around a try statement that is left by `break`, and by a `return` that is refused. -/
def brokenFinalizer : Stmt :=
  .while (.literal (.bool true) .boolean {})
    (.try ⟨[.break {}], {}⟩ none (some ⟨[.return none {}], {}⟩) {}) {}

theorem lowering_restores_jump_state_brokenFinalizer :
    nestedState.draft.nesting.IsNested ∧
    (∃ e s', lowerStmt brokenFinalizer nestedState = .error e s' ∧
      s'.draft.nesting = ⟨[⟨1, 2, 1⟩], [.body]⟩) ∧
    ∃ t, Visits [0, 0, 0] brokenFinalizer nestedState (.break {}) t ∧
      t.draft.nesting = ⟨[⟨3, 4, 1⟩, ⟨1, 2, 1⟩], [.body, .body]⟩ ∧
      t.draft.nesting.IsNested ∧
      (finalState (lowerStmt (.break {}) t)).draft.nesting = t.draft.nesting ∧
      t.draft.nesting.breakExit = .ok (.endTry 4) ∧
      t.draft.nesting.breakExit ≠ .error .underflow := by
  have hnested : nestedState.draft.nesting.IsNested := by decide
  obtain ⟨hend, hway⟩ := lowering_restores_jump_state brokenFinalizer nestedState hnested
  have hvisit : Visits [0, 0, 0] brokenFinalizer nestedState (.break {}) _ :=
    .inside .loopBody rfl (.inside .tryBody rfl
      (.inside (@Stmt.Part.block [] [] (.break {}) {}) rfl .here))
  obtain ⟨-, -, hopen, hkept, -, hexit, -⟩ := hway _ _ _ hvisit
  exact ⟨hnested, ⟨_, _, rfl, hend⟩, _, hvisit, rfl, hopen, hkept, rfl, hexit⟩

end ContractScript
