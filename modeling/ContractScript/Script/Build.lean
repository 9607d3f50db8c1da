import ContractScript.Script.Check
import ContractScript.Script.Shorten

/-!
# The script of a contract

All branches are long at first, so that the faults of every function are reported together; then
branches may be shortened. Either way the script is checked before it is handed on.
-/

namespace ContractScript

/-- An outcome with at most one fault as one with a list of them. -/
def oneFault {α : Type} : Except EncodingError α → Except (List EncodingError) α
  | .ok a => .ok a
  | .error e => .error [e]

/-- The checked `Script` of routines, with short branches if asked for. -/
def buildScript (tokens : TokenTable) (routines : List Routine) (optimize : Bool) :
    Except (List EncodingError) Script := do
  let chunks := routines.map Chunk.ofRoutine
  let long ← encodeEach tokens chunks
  let script ←
    if optimize then oneFault do encode tokens (← shorten tokens chunks) else .ok long
  oneFault (check script tokens.size)
  return script

end ContractScript
