import ContractScript.Digest.Ripemd160
import ContractScript.Digest.Sha256
import ContractScript.Text.Hex
import ContractScript.Text.Numeral
import ContractScript.Text.Utf8

/-!
# Script hashes

A contract is named by the RIPEMD-160 of the SHA-256 of its script, twenty bytes. Scripts hold
them in script order; people see `0x` and the bytes in the opposite order.

- `Hash160.ofScript`: the hash of a script.
- `Hash160.text`, `Hash160.parse`: the shown form, and its reader, which takes digits of either
  case with or without `0x`.
- `Hash160.literal`: a hash written as a constant of this library.
-/

namespace ContractScript

/-- A script hash: twenty bytes in script order. -/
structure Hash160 where
  bytes : List UInt8
  length_bytes : bytes.length = 20
deriving DecidableEq

namespace Hash160

instance : Hashable Hash160 where
  hash h := hash h.bytes

/-- The `Hash160` of zero bytes. -/
def zero : Hash160 := ⟨List.replicate 20 0, by simp⟩

instance : Inhabited Hash160 := ⟨zero⟩

/-- Twenty bytes in script order. -/
def ofBytes? (bytes : List UInt8) : Option Hash160 :=
  if h : bytes.length = 20 then some ⟨bytes, h⟩ else none

/-- The bytes in the order in which they are shown. -/
def shown (h : Hash160) : List UInt8 :=
  h.bytes.reverse

/-- Twenty bytes in the order in which they are shown. -/
def ofShown? (bytes : List UInt8) : Option Hash160 :=
  ofBytes? bytes.reverse

/-- The `Hash160` of a script. -/
def ofScript (script : List UInt8) : Hash160 :=
  ⟨Digest.Ripemd160.digest (Digest.Sha256.digest script), by simp⟩

/-- The order of hashes is that of their bytes in script order. -/
def le (a b : Hash160) : Bool :=
  decide (a.bytes ≤ b.bytes)

/-- The shown form: `0x` and forty lower-case digits. -/
def text (h : Hash160) : String :=
  "0x" ++ Hex.encode h.shown

/-- The shown form with the name of its type. -/
def fullText (h : Hash160) : String :=
  "Hash160(" ++ h.text ++ ")"

/-- Why a text is no hash. -/
inductive ParseError where
  /-- The digits are not forty; lengths count UTF-8 bytes. -/
  | badLength (found : Nat)
  /-- A byte of the text is no digit. -/
  | badDigit (cause : Hex.BadDigit)
deriving Repr, DecidableEq

/-- The wording of a parse error. -/
def ParseError.message : ParseError → String
  | .badLength found => "expected 40 hex digits, found " ++ Text.decimalNat found
  | .badDigit cause => "invalid hex: " ++ cause.message

/-- The bytes of a text after an optional `0x` or `0X`. -/
def digitsOf : List UInt8 → List UInt8
  | 48 :: 120 :: rest => rest
  | 48 :: 88 :: rest => rest
  | bytes => bytes

/-- Read the shown form from the bytes of a text. -/
def parseBytes (textBytes : List UInt8) : Except ParseError Hash160 :=
  let digits := digitsOf textBytes
  if digits.length ≠ 40 then .error (.badLength digits.length)
  else
    match Hex.decode digits with
    | .error e => .error (.badDigit e)
    | .ok bytes =>
      match ofShown? bytes with
      | some h => .ok h
      | none => .error (.badLength digits.length)

/-- Read the shown form. -/
def parse (s : String) : Except ParseError Hash160 :=
  parseBytes (Text.utf8 s)

/-- The hash that a constant writes as `0x` and forty digits: byte `i` in script order is made of
the digits at `2 * (20 - i)` and the place after it. What is no digit counts as zero. -/
def literal (s : String) : Hash160 :=
  let digits := s.toList
  let nibble (i : Nat) : Nat := (Text.digitValue? 16 (digits.getD i '0')).getD 0
  ⟨(List.range 20).map fun i =>
      UInt8.ofNat (16 * nibble (2 * (20 - i)) + nibble (2 * (20 - i) + 1)), by simp⟩

end Hash160

end ContractScript
