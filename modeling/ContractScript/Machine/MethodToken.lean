import ContractScript.Hash160
import ContractScript.Machine.ItemType
import Std.Data.HashMap

/-!
# Method tokens

A script names the methods of other contracts by a 16-bit index into a table of tokens. All
functions of a contract share the table. It grows at its end only, and a method of a contract has
one entry: whoever names it first decides the rest of the entry.

- `MethodToken`: a method of another contract, with what a call passes and gets back.
- `TokenTable.add`: the index of a method, and the table that holds it.
-/

namespace ContractScript

/-- A method of another contract. -/
structure MethodToken where
  hash : Hash160
  method : String
  paramCount : Nat
  hasReturn : Bool
  flags : CallFlags
deriving DecidableEq, Inhabited

/-- What makes two tokens the same entry. -/
abbrev MethodToken.Key := Hash160 × String

/-- The contract and the method that a token names. -/
def MethodToken.key (t : MethodToken) : MethodToken.Key :=
  (t.hash, t.method)

/-- The number of tokens that 16-bit indices can tell apart. -/
def TokenTable.capacity : Nat := 65536

/-- Tokens in the order of first use, and the place of each key. There are never more than 16-bit
indices can tell apart. -/
structure TokenTable where
  tokens : Array MethodToken := #[]
  index : Std.HashMap MethodToken.Key Nat := {}
  size_le : tokens.size ≤ TokenTable.capacity := by decide

namespace TokenTable

/-- The table without tokens. -/
def empty : TokenTable := {}

instance : Inhabited TokenTable := ⟨empty⟩

def size (t : TokenTable) : Nat := t.tokens.size

def isEmpty (t : TokenTable) : Bool := t.tokens.isEmpty

/-- The token at an index. -/
def get? (t : TokenTable) (i : Nat) : Option MethodToken := t.tokens[i]?

/-- The index of a token, which is added unless its key is known. A full table takes no new key
and stays as it is. -/
def add (t : TokenTable) (token : MethodToken) : Option Nat × TokenTable :=
  match t.index[token.key]? with
  | some i => (some i, t)
  | none =>
    if h : t.tokens.size < capacity then
      (some t.tokens.size,
        ⟨t.tokens.push token, t.index.insert token.key t.tokens.size, by
          rw [Array.size_push]; exact h⟩)
    else (none, t)

/-- The table after adding tokens in order; those that find it full are left out. -/
def ofList (tokens : List MethodToken) : TokenTable :=
  tokens.foldl (fun t token => (t.add token).2) empty

end TokenTable

end ContractScript
