/-!
# Little-endian numbers

Operands are written least significant byte first, signed ones in two's complement.

- `leBytes`, `ofLeBytes`: natural numbers in a fixed number of bytes, and back.
- `byteRange`: how many values a number of bytes can have.
- `leBytesSigned`, `ofLeBytesSigned`: integers in two's complement, and back.
- `signedWidth`: the least number of bytes whose two's complement range holds an integer.
-/

namespace ContractScript

/-- The low-order `n` bytes of a number, least significant first. -/
def leBytes : Nat → Nat → List UInt8
  | 0, _ => []
  | n + 1, v => UInt8.ofNat (v % 256) :: leBytes n (v / 256)

/-- The number that bytes stand for, least significant first. -/
def ofLeBytes : List UInt8 → Nat
  | [] => 0
  | b :: bs => b.toNat + 256 * ofLeBytes bs

/-- The number of values that `n` bytes can have. -/
def byteRange : Nat → Nat
  | 0 => 1
  | n + 1 => 256 * byteRange n

/-- The two's complement of an integer in `n` bytes, least significant first. -/
def leBytesSigned (n : Nat) (v : Int) : List UInt8 :=
  leBytes n (v % (byteRange n : Int)).toNat

/-- The integer that bytes stand for in two's complement; no bytes stand for zero. -/
def ofLeBytesSigned (bs : List UInt8) : Int :=
  let u := ofLeBytes bs
  if 2 * u < byteRange bs.length then (u : Int) else (u : Int) - (byteRange bs.length : Int)

/-- The number of binary digits of a number, none for zero. -/
def bitLength (n : Nat) : Nat :=
  if n = 0 then 0 else Nat.log2 n + 1

/-- The least number of bytes, at least one, whose two's complement range holds the integer. -/
def signedWidth : Int → Nat
  | .ofNat n => bitLength n / 8 + 1
  | .negSucc n => bitLength n / 8 + 1

/-! ## Basic lemmas -/

@[simp] theorem length_leBytes (n v : Nat) : (leBytes n v).length = n := by
  induction n generalizing v with
  | zero => rfl
  | succ n ih => simp [leBytes, ih]

@[simp] theorem length_leBytesSigned (n : Nat) (v : Int) : (leBytesSigned n v).length = n := by
  simp [leBytesSigned]

theorem ofLeBytes_lt (bs : List UInt8) : ofLeBytes bs < byteRange bs.length := by
  induction bs with
  | nil => simp [ofLeBytes, byteRange]
  | cons b bs ih =>
    have hb : b.toNat < 256 := b.toNat_lt
    simp only [ofLeBytes, List.length_cons, byteRange]
    omega

theorem ofLeBytes_leBytes (n v : Nat) : ofLeBytes (leBytes n v) = v % byteRange n := by
  induction n generalizing v with
  | zero => simp [leBytes, ofLeBytes, byteRange, Nat.mod_one]
  | succ n ih =>
    have h : (UInt8.ofNat (v % 256)).toNat = v % 256 := by
      simp
    rw [leBytes, ofLeBytes, ih, h, byteRange, Nat.mod_mul]

theorem leBytes_ofLeBytes (bs : List UInt8) : leBytes bs.length (ofLeBytes bs) = bs := by
  induction bs with
  | nil => rfl
  | cons b bs ih =>
    have hb : b.toNat < 256 := b.toNat_lt
    have low : (b.toNat + 256 * ofLeBytes bs) % 256 = b.toNat := by omega
    have high : (b.toNat + 256 * ofLeBytes bs) / 256 = ofLeBytes bs := by omega
    simp [leBytes, ofLeBytes, low, high, ih]

end ContractScript
