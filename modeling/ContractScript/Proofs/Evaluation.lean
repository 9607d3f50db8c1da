import ContractScript.Lowering.Expr
import ContractScript.Source.Program

/-!
# What programs mean

The meaning of the structured part of the language: blocks, loops and branches over variables and
operators, without calls. It knows nothing of slots, stacks and labels: variables live in frames by
name, one frame for each block that is open. Loops run on fuel, so that all of it is total.
-/

namespace ContractScript

/-- Values, and what operators do with them. -/
structure Interpretation (V : Type) where
  constant : Constant → V
  /-- The operators before an operand that are applied to its value. -/
  unary : UnaryOp → V → V
  /-- The operators on two integers. -/
  binary : BinaryOp → V → V → V
  isNull : V → V
  /-- Whether a value counts as true. -/
  isTrue : V → Bool
  /-- Unary minus on integers is negation. -/
  unary_neg : ∀ n, unary .neg (constant (.int n)) = constant (.int (-n))

/-! ## Variables -/

/-- What a global name stands for: a static variable, by number, or a constant. -/
inductive Global (V : Type) where
  | static (index : Nat)
  | constant (value : V)

/-- The global names. -/
abbrev Globals (V : Type) := String → Option (Global V)

/-- The variables of one block by name. -/
abbrev Bindings (V : Type) := List (String × V)

/-- The variables of the open blocks, innermost first, and the static variables by number. -/
structure Store (V : Type) where
  frames : List (Bindings V)
  statics : List V

variable {V : Type}

/-- Give a variable of a block a new value, if the block has it. -/
def assignIn (name : String) (v : V) : Bindings V → Option (Bindings V)
  | [] => none
  | b :: bs => if b.1 = name then some ((name, v) :: bs) else (assignIn name v bs).map (b :: ·)

/-- Give the innermost variable of a name a new value, if there is one. -/
def assignFrames (name : String) (v : V) : List (Bindings V) → Option (List (Bindings V))
  | [] => none
  | f :: outer =>
    match assignIn name v f with
    | some f => some (f :: outer)
    | none => (assignFrames name v outer).map (f :: ·)

namespace Store

/-- The value of a name: that of the innermost variable, or else the global one. -/
def get? (g : Globals V) (σ : Store V) (name : String) : Option V :=
  match σ.frames.findSome? (·.lookup name) with
  | some v => some v
  | none =>
    match g name with
    | some (.static index) => σ.statics[index]?
    | some (.constant v) => some v
    | none => none

/-- Assign to a name: to the innermost variable, or else to the static one. -/
def assign? (g : Globals V) (σ : Store V) (name : String) (v : V) : Option (Store V) :=
  match assignFrames name v σ.frames with
  | some frames => some { σ with frames := frames }
  | none =>
    match g name with
    | some (.static index) =>
      if index < σ.statics.length then some { σ with statics := σ.statics.set index v } else none
    | _ => none

/-- Declare a variable in the innermost block, which must not have one of that name yet. -/
def declare? (σ : Store V) (name : String) (v : V) : Option (Store V) :=
  match σ.frames with
  | [] => none
  | f :: outer =>
    match f.lookup name with
    | some _ => none
    | none => some { σ with frames := (f ++ [(name, v)]) :: outer }

/-- Open a block. -/
def enter (σ : Store V) : Store V :=
  { σ with frames := [] :: σ.frames }

/-- Close the innermost block. -/
def leave (σ : Store V) : Store V :=
  { σ with frames := σ.frames.tail }

end Store

/-! ## Expressions -/

/-- Whether an operator with these operands asks if the other one is null. -/
def BinaryOp.testsNull (op : BinaryOp) (left right : Expr) : Bool :=
  (op == .equal || op == .notEqual) && (left.isNullLiteral || right.isNullLiteral)

namespace Interpretation

variable (I : Interpretation V)

/-- The value of an operator before an operand; a plus changes nothing. -/
def applyUnary (op : UnaryOp) (v : V) : V :=
  match op with
  | .plus => v
  | op => I.unary op v

/-- Whether the left operand is the value of the whole, so that the right one is left out. -/
def decides (op : BinaryOp) (v : V) : Bool :=
  match op with
  | .logicalAnd => !I.isTrue v
  | .logicalOr => I.isTrue v
  | _ => !I.isTrue (I.isNull v)

/-- The value of a comparison with the null literal. -/
def testNull (op : BinaryOp) (v : V) : V :=
  if op = .notEqual then I.unary .not (I.isNull v) else I.isNull v

/-- The value of an expression and the store it leaves; `none` for what is outside of the
structured part. -/
def eval (g : Globals V) (e : Expr) (σ : Store V) : Option (V × Store V) :=
  match e with
  | .literal value _ _ => some (I.constant (.ofLiteral value), σ)
  | .ident id _ _ => (σ.get? g id.name).map fun v => (v, σ)
  | .binary op left right _ _ =>
    if op.isShortCircuit then do
      let (a, σ) ← eval g left σ
      if I.decides op a then some (a, σ) else eval g right σ
    else if op.testsNull left right then do
      let (a, σ) ← if right.isNullLiteral then eval g left σ else eval g right σ
      some (I.testNull op a, σ)
    else do
      let (a, σ) ← eval g left σ
      let (b, σ) ← eval g right σ
      some (I.binary op a b, σ)
  | .unary op operand _ _ => do
    let (v, σ) ← eval g operand σ
    some (I.applyUnary op v, σ)
  | .assign op target value _ =>
    match target.unparenthesized, op with
    | .ident id _ _, none => do
      let (v, σ) ← eval g value σ
      let σ ← σ.assign? g id.name v
      some (v, σ)
    | .ident id _ _, some op => do
      let a ← σ.get? g id.name
      let (b, σ) ← eval g value σ
      let σ ← σ.assign? g id.name (I.binary op a b)
      some (I.binary op a b, σ)
    | _, _ => none
  | .paren inner _ => eval g inner σ
  | .call _ _ _ _ | .member _ _ _ _ | .other _ _ => none
termination_by structural e

section Assign

variable {I} {g : Globals V} {target : Expr} {id : Ident} {ty : Ty} {idSpan : Span}

/-- `eval` of an assignment, which may name its variable in parentheses. -/
theorem eval_assign (h : target.unparenthesized = .ident id ty idSpan) (value : Expr) (span : Span)
    (σ : Store V) :
    I.eval g (.assign none target value span) σ =
      (I.eval g value σ).bind fun (v, σ) => (σ.assign? g id.name v).bind fun σ => some (v, σ) := by
  rw [eval.eq_def]
  dsimp only
  rw [h]
  rfl

theorem eval_assign_op (h : target.unparenthesized = .ident id ty idSpan) (op : BinaryOp)
    (value : Expr) (span : Span) (σ : Store V) :
    I.eval g (.assign (some op) target value span) σ =
      (σ.get? g id.name).bind fun a => (I.eval g value σ).bind fun (b, σ) =>
        (σ.assign? g id.name (I.binary op a b)).bind fun σ => some (I.binary op a b, σ) := by
  rw [eval.eq_def]
  dsimp only
  rw [h]
  rfl

end Assign

end Interpretation

/-! ## Statements -/

/-- How a statement ends. -/
inductive Signal (V : Type) where
  | next
  | break
  | continue
  | return (value : Option V)

/-- Why a run has no end to tell. -/
inductive Halt where
  /-- The program is outside of the structured part. -/
  | undefined
  | outOfFuel
deriving DecidableEq

/-- A run that may have no end. -/
abbrev Run := Except Halt

/-- A value that must be there. -/
def defined {α : Type} : Option α → Run α
  | some a => .ok a
  | none => .error .undefined

/-- Go on only if a statement goes on to the next one. -/
def andThen (outcome : Run (Signal V × Store V)) (rest : Store V → Run (Signal V × Store V)) :
    Run (Signal V × Store V) :=
  match outcome with
  | .ok (.next, σ) => rest σ
  | outcome => outcome

/-- Go around a loop again, unless its body asks to leave. -/
def goAround (outcome : Run (Signal V × Store V)) (again : Store V → Run (Signal V × Store V)) :
    Run (Signal V × Store V) :=
  match outcome with
  | .ok (.next, σ) | .ok (.continue, σ) => again σ
  | .ok (.break, σ) => .ok (.next, σ)
  | outcome => outcome

/-- Repeat a step until it asks to leave. -/
def repeated (step : Store V → Run (Signal V × Store V)) :
    Nat → Store V → Run (Signal V × Store V)
  | 0, _ => .error .outOfFuel
  | n + 1, σ => goAround (step σ) (repeated step n)

namespace Interpretation

variable (I : Interpretation V) (g : Globals V) (fuel : Nat)

/-- Go on by the value of a test. -/
def choose (test : Option (V × Store V)) (yes no : Store V → Run (Signal V × Store V)) :
    Run (Signal V × Store V) := do
  let (v, σ) ← defined test
  if I.isTrue v then yes σ else no σ

theorem choose_some (v : V) (σ : Store V) (yes no : Store V → Run (Signal V × Store V)) :
    I.choose (some (v, σ)) yes no = if I.isTrue v then yes σ else no σ :=
  rfl

mutual

/-- Run a `Stmt`. -/
def exec (s : Stmt) (σ : Store V) : Run (Signal V × Store V) :=
  match s with
  | .expr e _ => do
    let (_, σ) ← defined (I.eval g e σ)
    .ok (.next, σ)
  | .declare id _ init _ _ => do
    let (v, σ) ← defined (init.bind (I.eval g · σ))
    let σ ← defined (σ.declare? id.name v)
    .ok (.next, σ)
  | .return value _ =>
    match value with
    | none => .ok (.return none, σ)
    | some e => do
      let (v, σ) ← defined (I.eval g e σ)
      .ok (.return (some v), σ)
  | .break _ => .ok (.break, σ)
  | .continue _ => .ok (.continue, σ)
  | .block body => execBlock body σ
  | .if condition thenBranch elseBranch _ =>
    I.choose (I.eval g condition σ) (exec thenBranch) fun σ =>
      match elseBranch with
      | none => .ok (.next, σ)
      | some branch => exec branch σ
  | .while condition body _ =>
    -- a test that fails leaves the loop like a break
    repeated (fun σ => I.choose (I.eval g condition σ) (exec body) fun σ => .ok (.break, σ)) fuel σ
  | .throw _ _ | .try _ _ _ _ | .other _ _ => .error .undefined
termination_by structural s

/-- Run `Stmt`s in order, as long as each of them goes on to the next. -/
def execAll (ss : List Stmt) (σ : Store V) : Run (Signal V × Store V) :=
  match ss with
  | [] => .ok (.next, σ)
  | s :: rest => andThen (exec s σ) (execAll rest)
termination_by structural ss

/-- Run a `Block`: its variables are gone after it. -/
def execBlock (b : Block) (σ : Store V) : Run (Signal V × Store V) :=
  match b with
  | ⟨ss, _⟩ => do
    let (signal, σ) ← execAll ss σ.enter
    .ok (signal, σ.leave)
termination_by structural b

end

/-- What a function returns for its arguments, and the static variables after it. -/
def invoke (decl : FunctionDecl) (args statics : List V) :
    Run (Option V × List V) := do
  let σ : Store V := ⟨[(decl.params.map (·.id.name)).zip args], statics⟩
  let (signal, σ) ←
    match decl.body with
    | none => .ok (.next, σ)
    | some body => I.execBlock g fuel body σ
  match signal with
  | .next => .ok (none, σ.statics)
  | .return v => .ok (v, σ.statics)
  | .break | .continue => .error .undefined

end Interpretation

/-! ## The structured part -/

namespace Expr

/-- Variables, literals and operators. An operator that is chosen by type is one on integers. -/
def isStructured : Expr → Bool
  | .literal _ _ _ | .ident _ _ _ => true
  | .binary op left right _ _ =>
    left.isStructured && right.isStructured &&
      (op.isShortCircuit || op.testsNull left right || (operandType left right).isInteger)
  | .unary _ operand _ _ => operand.isStructured
  | .assign op target value _ => value.isStructured && (op.isNone || target.ty.isInteger)
  | .paren inner _ => inner.isStructured
  | .call _ _ _ _ | .member _ _ _ _ | .other _ _ => false

/-- Whether an `Expr` may stand as a statement: what is no assignment has a value to drop. -/
def isDiscardable (e : Expr) : Bool :=
  match e.unparenthesized with
  | .assign _ _ _ _ => true
  | inner => !inner.ty.isVoid

end Expr

/-- A declaration, which is no branch or body of its own. -/
def Stmt.isDeclaration : Stmt → Bool
  | .declare _ _ _ _ _ => true
  | _ => false

mutual

/-- Structured `Stmt`s: every variable is declared with its value, in a block. -/
def Stmt.isStructured (s : Stmt) : Bool :=
  match s with
  | .expr e _ => e.isStructured && e.isDiscardable
  | .declare _ _ init _ _ => init.any (·.isStructured)
  | .return value _ => value.all (·.isStructured)
  | .break _ | .continue _ => true
  | .block body => body.isStructured
  | .if condition thenBranch elseBranch _ =>
    condition.isStructured && thenBranch.isStructured && !thenBranch.isDeclaration &&
      (match elseBranch with
      | none => true
      | some branch => branch.isStructured && !branch.isDeclaration)
  | .while condition body _ => condition.isStructured && body.isStructured && !body.isDeclaration
  | .throw _ _ | .try _ _ _ _ | .other _ _ => false
termination_by structural s

/-- Whether all `Stmt`s are structured. -/
def Stmt.allStructured (ss : List Stmt) : Bool :=
  match ss with
  | [] => true
  | s :: rest => s.isStructured && Stmt.allStructured rest
termination_by structural ss

def Block.isStructured (b : Block) : Bool :=
  match b with
  | ⟨ss, _⟩ => Stmt.allStructured ss
termination_by structural b

end

/-- A function whose body is structured. -/
def FunctionDecl.isStructured (decl : FunctionDecl) : Bool :=
  decl.body.any (·.isStructured)

/-! ## Global names -/

/-- The static variables of a `Program`, by number. -/
def Program.statics (p : Program) : List StaticDecl :=
  p.items.filterMap fun item =>
    match item with
    | .static decl => some decl
    | _ => none

namespace Interpretation

variable (I : Interpretation V)

/-- The value of a literal, or of the minus of one. -/
def literalValue? : Expr → Option V
  | .literal value _ _ => some (I.constant (.ofLiteral value))
  | .unary .neg (.literal (.int n) _ _) _ _ => some (I.unary .neg (I.constant (.int n)))
  | _ => none

/-- What a name stands for among items, the static ones numbered from `index` on. The first item
that defines the name counts; a function has no value. -/
def globalFrom (name : String) (index : Nat) : List Item → Option (Global V)
  | [] => none
  | .function decl :: rest =>
    if decl.body.isSome ∧ decl.id.name = name then none else globalFrom name index rest
  | .const decl :: rest =>
    match I.literalValue? decl.value with
    | some v => if decl.id.name = name then some (.constant v) else globalFrom name index rest
    | none => globalFrom name index rest
  | .static decl :: rest =>
    if decl.id.name = name then some (.static index) else globalFrom name (index + 1) rest
  | .interface _ :: rest | .object _ :: rest | .other _ _ :: rest =>
    globalFrom name index rest

/-- The global names of a `Program`. -/
def globals (p : Program) : Globals V :=
  fun name => I.globalFrom name 0 p.items

end Interpretation

end ContractScript
