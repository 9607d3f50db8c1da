import ContractScript.Span

/-!
# Diagnostics

Every stage reports its own causes. A `Diagnostic` is one of them, with the wording in one
`message` function per family.

- `SymbolError`: defining and resolving names.
- `BindingError`: binding tagged declarations to the host.
- `LoweringError`: turning statements and expressions into operations.
- `EncodingError`: sizing, addressing, writing and checking instructions.
- `Log`: the diagnostics collected so far, and the checkpoint between stages.
-/

namespace ContractScript

/-- The start of every message that names a place. -/
def placed (span : Span) (rest : String) : String :=
  "at " ++ span.text ++ ": " ++ rest

/-- A text in single quotes. -/
def quoted (s : String) : String :=
  "'" ++ s ++ "'"

/-- Faults of definitions and uses of names. -/
inductive SymbolError where
  /-- A name was defined twice in one scope. -/
  | duplicate (name : String) (span : Span)
  /-- A name is defined in no enclosing scope. -/
  | unresolved (name : String) (span : Span)
  /-- A top-level constant has an initial value that is no literal. -/
  | invalidConstant (name : String) (span : Span)
deriving Repr, DecidableEq

namespace SymbolError

def span : SymbolError → Span
  | .duplicate _ s => s
  | .unresolved _ s => s
  | .invalidConstant _ s => s

def message : SymbolError → String
  | .duplicate name s => placed s ("duplicate symbol " ++ quoted name)
  | .unresolved name s => placed s ("unresolved symbol " ++ quoted name)
  | .invalidConstant name s =>
    placed s ("constant " ++ quoted name ++ " must be initialized with a literal")

end SymbolError

/-- Faults of tagged declarations. -/
inductive BindingError where
  /-- A tag or its payload names nothing that the host provides. -/
  | unsupported (name reason : String) (span : Span)
  /-- A known tag has a payload that cannot be read. -/
  | malformed (tag problem : String) (span : Span)
deriving Repr, DecidableEq

namespace BindingError

def span : BindingError → Span
  | .unsupported _ _ s => s
  | .malformed _ _ s => s

def message : BindingError → String
  | .unsupported name reason s =>
    placed s ("unsupported builtin " ++ quoted name ++ ": " ++ reason)
  | .malformed tag problem s => placed s ("malformed @" ++ tag ++ " annotation: " ++ problem)

end BindingError

/-- Faults of statements and expressions. -/
inductive LoweringError where
  /-- The construct has no meaning on the target machine. -/
  | unsupported (construct : String) (span : Span)
  /-- The operator does not apply to the operand type. -/
  | unsupportedOperator (op ty : String) (span : Span)
  /-- A symbol stands where its kind is not allowed. -/
  | invalidUse (name kind : String) (span : Span)
  /-- A call has the wrong number of arguments. -/
  | argumentCount (name : String) (expected found : Nat) (span : Span)
  /-- The target of an assignment is no variable. -/
  | assignToConstant (name : String) (span : Span)
  /-- `break` or `continue` outside of a loop. -/
  | outsideLoop (keyword : String) (span : Span)
deriving Repr, DecidableEq

namespace LoweringError

def span : LoweringError → Span
  | .unsupported _ s => s
  | .unsupportedOperator _ _ s => s
  | .invalidUse _ _ s => s
  | .argumentCount _ _ _ s => s
  | .assignToConstant _ s => s
  | .outsideLoop _ s => s

def message : LoweringError → String
  | .unsupported construct s => placed s ("unsupported syntax " ++ quoted construct)
  | .unsupportedOperator op ty s =>
    placed s ("operator " ++ quoted op ++ " is not supported for type " ++ quoted ty)
  | .invalidUse name kind s =>
    placed s (quoted name ++ " is a " ++ kind ++ " and cannot be used here")
  | .argumentCount name expected found s =>
    placed s (quoted name ++ " takes " ++ Text.decimalNat expected ++ " argument(s) but " ++
      Text.decimalNat found ++ " were given")
  | .assignToConstant name s => placed s ("cannot assign to " ++ quoted name)
  | .outsideLoop keyword s => placed s (quoted keyword ++ " outside of a loop")

end LoweringError

/-- Faults of encoding. Operations made by the compiler itself may have no place in the source. -/
inductive EncodingError where
  /-- A value does not fit the widest operand. -/
  | operandTooLarge (function what : String) (size max : Nat) (span : Option Span)
  /-- A branch, call or token reference leads nowhere. -/
  | invalidTarget (function what : String) (span : Option Span)
  /-- Relative offsets cannot reach across the script. -/
  | scriptTooLarge (size max : Nat)
  /-- An operation carries an opcode that does not belong in it. -/
  | invalidOperand (function problem : String)
  /-- The written script does not pass the check. -/
  | rejected (address : Nat) (problem : String)
deriving Repr, DecidableEq

namespace EncodingError

def span : EncodingError → Option Span
  | .operandTooLarge _ _ _ _ s => s
  | .invalidTarget _ _ s => s
  | .scriptTooLarge _ _ => none
  | .invalidOperand _ _ => none
  | .rejected _ _ => none

/-- The start of every message that names a function. -/
def inFunction (function rest : String) : String :=
  "in " ++ quoted function ++ ": " ++ rest

def message : EncodingError → String
  | .operandTooLarge function what size max _ =>
    inFunction function (what ++ " of " ++ Text.decimalNat size ++ " exceeds the maximum of " ++
      Text.decimalNat max)
  | .invalidTarget function what _ => inFunction function (what ++ " targets nothing")
  | .scriptTooLarge size max =>
    "script size " ++ Text.decimalNat size ++ " exceeds the addressable maximum of " ++
      Text.decimalNat max
  | .invalidOperand function problem => inFunction function problem
  | .rejected address problem =>
    "verification failed at address " ++ Text.decimalNat address ++ ": " ++ problem

end EncodingError

/-- Any fault that the compiler reports. -/
inductive Diagnostic where
  | symbol (cause : SymbolError)
  | binding (cause : BindingError)
  | lowering (cause : LoweringError)
  | encoding (cause : EncodingError)
deriving Repr, DecidableEq

namespace Diagnostic

/-- Where the fault is, if it has a place. -/
def span : Diagnostic → Option Span
  | .symbol e => some e.span
  | .binding e => some e.span
  | .lowering e => some e.span
  | .encoding e => e.span

/-- The family of the fault. -/
def category : Diagnostic → String
  | .symbol _ => "symbol"
  | .binding _ => "builtin binding"
  | .lowering _ => "lowering"
  | .encoding _ => "encoding"

def message : Diagnostic → String
  | .symbol e => e.message
  | .binding e => e.message
  | .lowering e => e.message
  | .encoding e => e.message

/-- One line of a report. -/
def line (d : Diagnostic) : String :=
  d.category ++ " error: " ++ d.message

/-- A report of several faults, a line each. -/
def report (ds : List Diagnostic) : String :=
  String.intercalate "\n" (ds.map line)

end Diagnostic

/-- The `Diagnostic`s collected so far, first reported first. -/
structure Log where
  entries : List Diagnostic := []
deriving Repr, Inhabited

namespace Log

/-- Record a fault and go on. -/
def add (log : Log) (d : Diagnostic) : Log :=
  ⟨log.entries ++ [d]⟩

/-- Whether nothing was reported. -/
def isEmpty (log : Log) : Bool :=
  log.entries.isEmpty

/-- Take all entries out of the log. -/
def take (log : Log) : List Diagnostic × Log :=
  (log.entries, {})

/-- Between stages: a log with entries fails and hands them over, an empty one passes. -/
def checkpoint (log : Log) : Except (List Diagnostic) Unit × Log :=
  if log.isEmpty then (.ok (), log) else (.error log.entries, {})

end Log

end ContractScript
