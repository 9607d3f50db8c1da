import ContractScript.Symbol.Basic

/-!
# Lexical scopes

A `Scope` is a chain of frames, innermost first, over the root frame and the names of the host.
A name is looked up from the inside out. It is defined in the innermost frame, where it must be
new; the root frame must not hide a name of the host.

- `Scope.root`, `Scope.enter`, `Scope.leave`: frames get their ids from a counter of 32 bits.
- `Scope.define`, `Scope.lookup`, `Scope.resolve`.
-/

namespace ContractScript

/-- The names defined in one scope. -/
structure Frame where
  id : ScopeId
  name : String
  symbols : List Symbol := []
deriving Inhabited

/-- A chain of `Frame`s over the names of the host. -/
structure Scope where
  builtins : Registry
  rootFrame : Frame
  /-- The frames inside of the root, innermost first. -/
  inner : List Frame := []
  /-- The id of the next frame. -/
  nextId : ScopeId
deriving Inhabited

namespace Scope

/-- The `Scope` of a whole program. -/
def root (name : String) (builtins : Registry) : Scope :=
  { builtins := builtins, rootFrame := ⟨builtinScope + 1, name, []⟩, nextId := builtinScope + 2 }

/-- Open a frame inside of the innermost one. The counter of ids starts again from zero after its
last value. -/
def enter (s : Scope) (name : String) : Scope :=
  { s with inner := ⟨s.nextId, name, []⟩ :: s.inner, nextId := s.nextId + 1 }

/-- Close the innermost frame; the root stays open. -/
def leave (s : Scope) : Scope :=
  { s with inner := s.inner.tail }

/-- The innermost `Frame`. -/
def frame (s : Scope) : Frame :=
  s.inner.head?.getD s.rootFrame

/-- Whether a name is taken: by the innermost frame, or by the host if that is the root. -/
def isTaken (s : Scope) (name : String) : Bool :=
  (findSymbol s.frame.symbols name).isSome ||
    (s.inner.isEmpty && (s.builtins.lookup name).isSome)

/-- Add a `Symbol` to the innermost frame. -/
def push (s : Scope) (symbol : Symbol) : Scope :=
  match s.inner with
  | [] => { s with rootFrame := { s.rootFrame with symbols := s.rootFrame.symbols ++ [symbol] } }
  | f :: outer => { s with inner := { f with symbols := f.symbols ++ [symbol] } :: outer }

/-- Define a name in the innermost frame as what `make` yields: the new symbol or an error, and the
scope and the state after the call. `make` runs only if the name is free, so it may take a slot. -/
def define {σ : Type} (s : Scope) (name : String) (span : Span) (make : σ → Definition × σ)
    (state : σ) : Except SymbolError Symbol × Scope × σ :=
  if s.isTaken name then (.error (.duplicate name span), s, state)
  else
    let (definition, state) := make state
    let symbol : Symbol := ⟨name, s.frame.id, span, definition⟩
    (.ok symbol, s.push symbol, state)

/-- Define a name in the innermost frame. -/
def defineAs (s : Scope) (name : String) (span : Span) (definition : Definition) :
    Except SymbolError Scope :=
  let (result, scope, _) := s.define name span (fun _ => (definition, ())) ()
  result.map fun _ => scope

theorem defineAs_eq (s : Scope) (name : String) (span : Span) (definition : Definition) :
    s.defineAs name span definition =
      if s.isTaken name then .error (.duplicate name span)
      else .ok (s.push ⟨name, s.frame.id, span, definition⟩) := by
  unfold defineAs define
  cases s.isTaken name <;> rfl

/-- The `Symbol` of a name, from the inside out. -/
def lookup (s : Scope) (name : String) : Option Symbol :=
  (s.inner.findSome? fun f => findSymbol f.symbols name) <|>
    findSymbol s.rootFrame.symbols name <|>
    s.builtins.lookup name

/-- The `Symbol` of a name that must be defined. -/
def resolve (s : Scope) (name : String) (span : Span) : Except SymbolError Symbol :=
  match s.lookup name with
  | some symbol => .ok symbol
  | none => .error (.unresolved name span)

end Scope

end ContractScript
