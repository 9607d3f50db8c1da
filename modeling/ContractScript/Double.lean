import ContractScript.Text.Numeral

/-!
# Numbers with 53 significant bits

Free-form numbers with a fraction or an exponent, and integers that do not fit into 64 bits, are
kept to 53 significant bits. A magnitude is counted in units of `2 ^ -1074`, the least one, so that
every operation is exact arithmetic on natural numbers with one rounding at its end.

- `Double`: a magnitude; `Double.round`: the one nearest to a quotient, the even one of two.
- `Double.ofScientific?`: a significand times a power of ten. The power is rounded before it is
  applied, so that a long significand may end one step from the nearest magnitude.
- `Double.shortest`, `Double.text`: the fewest digits that round back, and their written form.
-/

namespace ContractScript

/-! ## Rounding -/

/-- The natural number nearest to a quotient; of two the even one. -/
def roundDiv (a d : Nat) : Nat :=
  let q := a / d
  let r := a % d
  if 2 * r < d then q else if d < 2 * r then q + 1 else q + q % 2

/-- A magnitude in units of `2 ^ -1074`. Only its first 53 bits are other than zero. -/
structure Double where
  units : Nat
deriving Repr, DecidableEq, Inhabited

namespace Double

/-- The `Double` nearest to a quotient. -/
def round (a d : Nat) : Double :=
  let scaled := a <<< 1074
  let spare := (scaled / d).log2 - 52
  ⟨roundDiv scaled (d <<< spare) <<< spare⟩

/-- The `Double` nearest to a power of ten. -/
def tenPow (n : Nat) : Double :=
  round (Nat.pow 10 n) 1

def mul (x y : Double) : Double :=
  round (x.units * y.units) (1 <<< 2148)

def div (x y : Double) : Double :=
  round x.units y.units

/-- Whether a magnitude is below `2 ^ 1024`. -/
def isFinite (x : Double) : Bool :=
  x.units < 1 <<< 2098

/-! ## Reading -/

/-- The largest power of ten by which a magnitude is scaled at once. -/
def maxTenPow : Nat := 308

/-- A `Double` divided by a power of ten, in several steps if the power is large. -/
def scaleDown (x : Double) (n : Nat) : Double :=
  if n ≤ maxTenPow then x.div (tenPow n)
  else if x.units = 0 then x
  else scaleDown (x.div (tenPow maxTenPow)) (n - maxTenPow)
termination_by n
decreasing_by simp only [maxTenPow] at *; omega

/-- A significand times a power of ten, unless it is beyond the range. -/
def ofScientific? (significand : Nat) : Int → Option Double
  | .ofNat n =>
    if significand = 0 then some ⟨0⟩
    else if n ≤ maxTenPow then some ((round significand 1).mul (tenPow n)) |>.filter isFinite
    else none
  | .negSucc n => some (scaleDown (round significand 1) (n + 1))

/-! ## Writing -/

/-- Decimal digits with the place of the point, counted from before the first digit. No digit
after the last one that counts is kept. -/
structure Decimal where
  digits : List Char
  point : Int
deriving Repr, DecidableEq, Inhabited

/-- A significand times a power of ten. -/
def Decimal.ofScientific (significand : Nat) (exponent : Int) : Decimal :=
  let digits := Nat.toDigits 10 significand
  ⟨(digits.reverse.dropWhile (· == '0')).reverse, digits.length + exponent⟩

/-- Where the point stands in the digits of a `Double` other than zero. -/
def point (x : Double) : Int :=
  ((Nat.toDigits 10 ((x.units * Nat.pow 10 400) >>> 1074)).length : Int) - 400

/-- The nearest multiple of a power of ten that rounds back, among the two neighbours. -/
def neighbour? (x : Double) (exponent : Int) : Option Nat :=
  let up := Nat.pow 10 (-exponent).toNat
  let down := Nat.pow 10 exponent.toNat
  let a := x.units * up
  let d := down <<< 1074
  let near := roundDiv a d
  let far := 2 * (a / d) + 1 - near
  [near, far].find? fun c => round (c * down) up == x

/-- The fewest digits that round back. -/
def shortest (x : Double) : Decimal :=
  let found := (List.range 17).findSome? fun n =>
    let exponent := x.point - (n + 1 : Nat)
    (x.neighbour? exponent).map fun c => Decimal.ofScientific c exponent
  found.getD (Decimal.ofScientific (x.units * Nat.pow 5 1074) (-1074))

/-- Digits with their point: in place if it is at most 16 places after or 4 places before the first
digit, and as an exponent with its sign otherwise. -/
def Decimal.text (x : Decimal) : String :=
  let zeros (n : Int) : List Char := List.replicate n.toNat '0'
  let digits :=
    if x.digits.length ≤ x.point ∧ x.point ≤ 16 then
      x.digits ++ zeros (x.point - x.digits.length) ++ ['.', '0']
    else if 0 < x.point ∧ x.point ≤ 16 then
      x.digits.take x.point.toNat ++ ['.'] ++ x.digits.drop x.point.toNat
    else if -5 < x.point ∧ x.point ≤ 0 then
      ['0', '.'] ++ zeros (-x.point) ++ x.digits
    else
      let tail := x.digits.drop 1
      let exponent := x.point - 1
      x.digits.take 1 ++ (if tail.isEmpty then [] else '.' :: tail) ++
        (if exponent < 0 then ['e'] else ['e', '+']) ++ (Text.decimal exponent).toList
  String.ofList digits

/-- The text of a `Double`. -/
def text (x : Double) : String :=
  if x.units = 0 then "0.0" else x.shortest.text

end Double

end ContractScript
