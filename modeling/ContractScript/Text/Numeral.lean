/-!
# Numerals in tag payloads

- `byte?`: a byte in decimal or hexadecimal, with an optional plus sign.
- `integer?`: a decimal integer of any size, with an optional sign and `_` between digits.
- `decimal`: the decimal text of an integer.
-/

namespace ContractScript.Text

/-- The value of a digit in bases up to sixteen. -/
def digitValue? (base : Nat) (c : Char) : Option Nat :=
  let n := c.toNat
  let value? :=
    if 48 ≤ n ∧ n ≤ 57 then some (n - 48)
    else if 97 ≤ n ∧ n ≤ 102 then some (n - 87)
    else if 65 ≤ n ∧ n ≤ 70 then some (n - 55)
    else none
  value?.filter (· < base)

/-- The number written by digits, most significant first, after the digits read so far. -/
def readDigits (base : Nat) : Nat → List Char → Option Nat
  | acc, [] => some acc
  | acc, c :: cs => (digitValue? base c).bind fun d => readDigits base (base * acc + d) cs

/-- A byte: digits, at least one, after an optional plus sign. -/
def byte? (base : Nat) (cs : List Char) : Option UInt8 :=
  let ds :=
    match cs with
    | '+' :: rest => rest
    | _ => cs
  if ds.isEmpty then none
  else (readDigits base 0 ds).bind fun n => if n < 256 then some (UInt8.ofNat n) else none

/-- A natural number: digits and `_`, the first of them a digit. -/
def magnitude? (cs : List Char) : Option Nat :=
  if cs.isEmpty || cs.head? == some '_' then none
  else readDigits 10 0 (cs.filter (· != '_'))

/-- A decimal integer of any size, after at most one sign. -/
def integer? : List Char → Option Int
  | '-' :: cs => (magnitude? cs).map fun n => -(n : Int)
  | '+' :: cs => (magnitude? cs).map Int.ofNat
  | cs => (magnitude? cs).map Int.ofNat

/-- The decimal text of a natural number. -/
def decimalNat (n : Nat) : String :=
  String.ofList (Nat.toDigits 10 n)

/-- The decimal text of an integer. -/
def decimal : Int → String
  | .ofNat n => decimalNat n
  | .negSucc n => "-" ++ decimalNat (n + 1)

end ContractScript.Text
