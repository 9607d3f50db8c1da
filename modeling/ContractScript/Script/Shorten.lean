import ContractScript.Script.Encode

/-!
# Short branches

A branch whose targets are all within the reach of one signed byte can take its short form. That
brings other targets closer, so the step is repeated until no branch is left that fits.

- `shortenRound`: one step, measured in the layout before it.
- `shorten`: the fixed point. Each step but the last leaves fewer long branches.
-/

namespace ContractScript

/-- Whether an offset fits a signed byte. -/
def fitsByte (offset : Int) : Bool :=
  decide (-128 ≤ offset) && decide (offset ≤ 127)

/-- The form of a `Cell` after a step: short if it is a branch and all its targets are near. -/
def Cell.nextForm (t : Targets) (address : Nat) (c : Cell) : Except Fault Form := do
  match c.form with
  | .short => return .short
  | .long =>
    let offsets ← c.op.operation.offsets t address
    let fits := !offsets.isEmpty && (offsets.filterMap id).all fitsByte
    return if fits then .short else .long

/-- The `Cell`s of a function after a step. -/
def shortenCells (t : Targets) (function : String) :
    List Nat → List Cell → Except EncodingError (List Cell)
  | address :: addresses, c :: cs =>
    match c.nextForm t address with
    | .error fault => .error (fault.toError function none)
    | .ok form =>
      match shortenCells t function addresses cs with
      | .error e => .error e
      | .ok rest => .ok ({ c with form := form } :: rest)
  | _, cs => .ok cs

/-- The functions after a step, measured in the layout before it. -/
def shortenRound (tokens : TokenTable) (chunks : List Chunk) :
    Except EncodingError (List Chunk) := do
  let l ← layout chunks
  (chunks.zip l.functions).mapM fun (c, _, p) => do
    let cells ← shortenCells ⟨p.labels, l.starts, tokens.size⟩ c.name p.addresses c.cells
    return { c with cells := cells }

/-- The number of cells of a form. -/
def formCount (form : Form) (chunks : List Chunk) : Nat :=
  chunks.foldr (fun c n => c.cells.countP (·.form == form) + n) 0

/-- The functions with every branch short that can be. -/
def shorten (tokens : TokenTable) (chunks : List Chunk) : Except EncodingError (List Chunk) :=
  match shortenRound tokens chunks with
  | .error e => .error e
  | .ok next =>
    if formCount .long next < formCount .long chunks then shorten tokens next else .ok next
termination_by formCount .long chunks

end ContractScript
