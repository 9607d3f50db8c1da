import ContractScript.Routine.Operation

/-!
# Loops and protected regions

While a function is lowered, `Nesting` keeps the loops and the try statements that enclose the
current position, innermost first. It decides how control leaves them: a jump where no region is
left, the end of the region where one is left, and otherwise not at all.
-/

namespace ContractScript

/-- The part of a try statement that is being lowered. -/
inductive TryPhase where
  | body | handler | finalizer
deriving Repr, DecidableEq, Inhabited

/-- A loop: where `continue` and `break` lead, and how many regions enclose it. -/
structure Loop where
  continueLabel : Label
  breakLabel : Label
  tryDepth : Nat
deriving Repr, DecidableEq, Inhabited

/-- How control goes to a `Label`. -/
inductive Exit where
  | jump (target : Label)
  | endTry (target : Label)
deriving Repr, DecidableEq, Inhabited

/-- The `Operation` that takes an exit. -/
def Exit.operation : Exit → Operation
  | .jump l => .jump .always l
  | .endTry l => .endTry l

/-- Why control cannot go to a label. -/
inductive ExitError where
  /-- There is no loop to leave. -/
  | notInLoop
  /-- A finalizer, or more than one region, would be left. -/
  | acrossTry
  /-- The target is inside of more regions than are open. Such a target is never asked for. -/
  | underflow
deriving Repr, DecidableEq, Inhabited

/-- The enclosing loops and try statements, innermost first. -/
structure Nesting where
  loops : List Loop := []
  tries : List TryPhase := []
deriving Repr, DecidableEq, Inhabited

namespace Nesting

def enterLoop (n : Nesting) (continueLabel breakLabel : Label) : Nesting :=
  { n with loops := ⟨continueLabel, breakLabel, n.tries.length⟩ :: n.loops }

def exitLoop (n : Nesting) : Nesting :=
  { n with loops := n.loops.tail }

def enterTry (n : Nesting) : Nesting :=
  { n with tries := .body :: n.tries }

/-- Go on to another part of the innermost try statement. -/
def setPhase (n : Nesting) (phase : TryPhase) : Nesting :=
  match n.tries with
  | [] => n
  | _ :: outer => { n with tries := phase :: outer }

def exitTry (n : Nesting) : Nesting :=
  { n with tries := n.tries.tail }

/-- How control goes to a label that `depth` regions enclose. The number of regions to leave is a
checked difference. -/
def exitTo (n : Nesting) (target : Label) (depth : Nat) : Except ExitError Exit :=
  if n.tries.length < depth then .error .underflow
  else match n.tries.length - depth with
    | 0 => .ok (.jump target)
    | 1 => if n.tries.head? = some .finalizer then .error .acrossTry else .ok (.endTry target)
    | _ => .error .acrossTry

/-- `exitTo` fails to subtract exactly if more regions enclose the target than are open. -/
theorem exitTo_eq_underflow_iff {n : Nesting} {target : Label} {depth : Nat} :
    n.exitTo target depth = .error .underflow ↔ n.tries.length < depth := by
  unfold exitTo
  grind

/-- `exitTo` succeeds where no region is left, or one whose finalizer is not being lowered. -/
theorem exitTo_eq_ok_iff {n : Nesting} {target : Label} {depth : Nat} {exit : Exit} :
    n.exitTo target depth = .ok exit ↔
      n.tries.length = depth ∧ exit = .jump target ∨
      n.tries.length = depth + 1 ∧ n.tries.head? ≠ some .finalizer ∧ exit = .endTry target := by
  unfold exitTo
  grind

def breakExit (n : Nesting) : Except ExitError Exit :=
  match n.loops with
  | [] => .error .notInLoop
  | l :: _ => n.exitTo l.breakLabel l.tryDepth

def continueExit (n : Nesting) : Except ExitError Exit :=
  match n.loops with
  | [] => .error .notInLoop
  | l :: _ => n.exitTo l.continueLabel l.tryDepth

/-- How a function is left: its end stands outside of every region. -/
def returnExit (n : Nesting) (target : Label) : Except ExitError Exit :=
  n.exitTo target 0

end Nesting

end ContractScript
