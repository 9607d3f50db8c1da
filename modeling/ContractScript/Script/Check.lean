import ContractScript.Script.Encode

/-!
# The check of a finished script

The script is decoded again, function by function, without a look at the operations it came from:

- no instruction reaches over the end of its function;
- a branch leads to an instruction of its own function, a call to the start of a function;
- token references are within the token table;
- the last function ends where the script ends.
-/

namespace ContractScript

/-- The instructions from an address up to the end of a function. -/
def functionInstructions (name : String) (stop address : Nat) (bs : List UInt8) :
    Except EncodingError (List Located) :=
  if address < stop then
    match _h : Instruction.read address bs with
    | .error e => .error (.rejected e.address e.message)
    | .ok (i, rest) =>
      if stop < address + i.size then
        .error (.rejected address (i.opcode.name ++ " crosses the end of " ++ quoted name))
      else
        match functionInstructions name stop (address + i.size) rest with
        | .error e => .error e
        | .ok is => .ok (⟨i, address⟩ :: is)
  else .ok []
termination_by bs.length
decreasing_by exact Instruction.read_length _h

/-- Whether a target is one of the addresses. -/
def isAddress (addresses : List Nat) (target : Int) : Bool :=
  decide (0 ≤ target) && addresses.contains target.toNat

/-- Check what an instruction refers to. -/
def checkInstruction (name : String) (boundaries starts : List Nat) (tokenCount : Nat)
    (i : Located) : Except EncodingError Unit :=
  match i.opcode with
  | .call | .callL =>
    match i.branchTargets.find? (!isAddress starts ·) with
    | some target =>
      .error (.rejected i.address ("call to " ++ Text.decimal target ++ " is not a method entry"))
    | none => .ok ()
  | .callT =>
    let index := i.operandNat?.getD 4294967295
    if index < tokenCount then .ok ()
    else
      .error (.rejected i.address
        ("token " ++ Text.decimalNat index ++ " outside a table of " ++ Text.decimalNat tokenCount))
  | op =>
    if op.isBranch then
      match i.branchTargets.find? (!isAddress boundaries ·) with
      | some target =>
        .error (.rejected i.address
          (op.name ++ " to " ++ Text.decimal target ++ " leaves " ++ quoted name ++
            " or splits an instruction"))
      | none => .ok ()
    else .ok ()

/-- Check the code of one function. -/
def checkMethod (script : List UInt8) (starts : List Nat) (tokenCount : Nat) (m : Method) :
    Except EncodingError Unit := do
  let instructions ← functionInstructions m.name m.stop m.start (script.drop m.start)
  let boundaries := instructions.map (·.address)
  instructions.forM (checkInstruction m.name boundaries starts tokenCount)

/-- Check a `Script` against the size of its token table. -/
def check (s : Script) (tokenCount : Nat) : Except EncodingError Unit := do
  let starts := s.methods.map (·.start)
  s.methods.forM (checkMethod s.bytes starts tokenCount)
  match s.methods.getLast? with
  | some last =>
    if last.stop = s.bytes.length then .ok ()
    else .error (.rejected last.stop "trailing bytes after the last method")
  | none => .ok ()

end ContractScript
