/-!
# Hexadecimal text of byte strings

`encode` writes each byte as two lower-case digits; `decode` reads digits of either case back
from the bytes of a text and names the first byte that is no digit.

- `decode_encode`: reading what was written gives the bytes back.
-/

namespace ContractScript.Hex

/-- The lower-case digit of a value below sixteen. -/
def digit (n : Nat) : UInt8 :=
  if n < 10 then UInt8.ofNat (48 + n) else UInt8.ofNat (87 + n)

/-- The value of an ASCII digit, of either case. -/
def value? (b : UInt8) : Option Nat :=
  let n := b.toNat
  if 48 ≤ n ∧ n ≤ 57 then some (n - 48)
  else if 97 ≤ n ∧ n ≤ 102 then some (n - 87)
  else if 65 ≤ n ∧ n ≤ 70 then some (n - 55)
  else none

/-- Two digits per byte, high half first, as ASCII bytes. -/
def digits (bytes : List UInt8) : List UInt8 :=
  bytes.flatMap fun b => [digit (b.toNat / 16), digit (b.toNat % 16)]

/-- Two lower-case digits per byte. -/
def encode (bytes : List UInt8) : String :=
  String.ofList ((digits bytes).map fun b => Char.ofNat b.toNat)

/-- A byte that is no hexadecimal digit, and its position in the text. -/
structure BadDigit where
  byte : UInt8
  position : Nat
deriving Repr, DecidableEq

/-- How a byte is shown in a message: as the Latin-1 character, in single quotes. The quote, the
backslash and the usual control characters have short escapes; other characters without a
visible form are given by their code. -/
def quoteByte (b : UInt8) : String :=
  let n := b.toNat
  let hex := String.ofList (Nat.toDigits 16 n)
  let shown :=
    if n = 0 then "\\0"
    else if n = 9 then "\\t"
    else if n = 10 then "\\n"
    else if n = 13 then "\\r"
    else if n = 39 then "\\'"
    else if n = 92 then "\\\\"
    else if n < 32 ∨ (127 ≤ n ∧ n ≤ 160) ∨ n = 173 then "\\u\x7b" ++ hex ++ "\x7d"
    else String.singleton (Char.ofNat n)
  "'" ++ shown ++ "'"

/-- The wording of a bad digit. -/
def BadDigit.message (e : BadDigit) : String :=
  "Invalid character " ++ quoteByte e.byte ++ " at position " ++ toString e.position

/-- Read pairs of digits, the first of them standing at `position`. A last digit without partner
is dropped: callers fix the length first. -/
def decodeFrom (position : Nat) : List UInt8 → Except BadDigit (List UInt8)
  | high :: low :: rest =>
    match value? high, value? low with
    | none, _ => .error ⟨high, position⟩
    | some _, none => .error ⟨low, position + 1⟩
    | some h, some l => do
      let bytes ← decodeFrom (position + 2) rest
      return UInt8.ofNat (16 * h + l) :: bytes
  | _ => .ok []

/-- Read pairs of digits from the start of a text. -/
def decode (digits : List UInt8) : Except BadDigit (List UInt8) :=
  decodeFrom 0 digits

/-! ## Round trip -/

/-- A digit has the value it was written for. -/
theorem value?_digit : ∀ n < 16, value? (digit n) = some n := by decide

theorem decodeFrom_digits (position : Nat) (bytes : List UInt8) :
    decodeFrom position (digits bytes) = .ok bytes := by
  induction bytes generalizing position with
  | nil => rfl
  | cons b bs ih =>
    have hb : b.toNat < 256 := b.toNat_lt
    have step : digits (b :: bs) =
        digit (b.toNat / 16) :: digit (b.toNat % 16) :: digits bs := rfl
    rw [step, decodeFrom, value?_digit _ (by omega), value?_digit _ (by omega)]
    have join : 16 * (b.toNat / 16) + b.toNat % 16 = b.toNat := by omega
    simp [ih, join, bind, Except.bind, pure, Except.pure]

/-- Reading what was written gives the bytes back. -/
theorem decode_digits (bytes : List UInt8) : decode (digits bytes) = .ok bytes :=
  decodeFrom_digits 0 bytes

end ContractScript.Hex
