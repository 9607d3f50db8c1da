import ContractScript.Bytes

/-!
# Two's complement

What `n` bytes hold as a signed integer (`FitsSigned`), and that writing such an integer loses
nothing.
-/

namespace ContractScript

variable {n : Nat} {v : Int}

/-- The integer is in the two's complement range of `n` bytes. -/
def FitsSigned (n : Nat) (v : Int) : Prop :=
  -(byteRange n : Int) ≤ 2 * v ∧ 2 * v < (byteRange n : Int)

theorem byteRange_pos (n : Nat) : 0 < byteRange n := by
  induction n with
  | zero => decide
  | succ n ih =>
    rw [byteRange]
    omega

theorem byteRange_le_byteRange {m : Nat} (h : m ≤ n) : byteRange m ≤ byteRange n := by
  induction h with
  | refl => exact Nat.le_refl _
  | step _ ih =>
    rw [byteRange]
    omega

theorem byteRange_eq_two_pow (n : Nat) : byteRange n = Nat.pow 2 (8 * n) := by
  induction n with
  | zero => rfl
  | succ n ih => rw [byteRange, ih, Nat.pow_eq, Nat.pow_eq, Nat.mul_succ, Nat.pow_add, Nat.mul_comm]

/-- An integer that `FitsSigned` is stored as itself, or as its sum with the range if it is
negative. -/
theorem FitsSigned.emod_byteRange (h : FitsSigned n v) :
    v % (byteRange n : Int) = if v < 0 then v + byteRange n else v := by
  obtain ⟨hlow, hhigh⟩ := h
  split
  · rw [← Int.add_emod_right]
    exact Int.emod_eq_of_lt (by omega) (by omega)
  · exact Int.emod_eq_of_lt (by omega) (by omega)

/-- A natural number below the range of its bytes reads back. -/
theorem ofLeBytes_leBytes_of_lt {v : Nat} (h : v < byteRange n) : ofLeBytes (leBytes n v) = v := by
  rw [ofLeBytes_leBytes, Nat.mod_eq_of_lt h]

theorem ofLeBytes_leBytesSigned (n : Nat) (v : Int) :
    ofLeBytes (leBytesSigned n v) = (v % (byteRange n : Int)).toNat := by
  have hpos := byteRange_pos n
  have hlt := Int.emod_lt_of_pos v (b := (byteRange n : Int)) (by omega)
  exact ofLeBytes_leBytes_of_lt (by omega)

/-- `ofLeBytesSigned` reads back what `leBytesSigned` writes, if the integer is in range. -/
theorem ofLeBytesSigned_leBytesSigned (h : FitsSigned n v) :
    ofLeBytesSigned (leBytesSigned n v) = v := by
  have hread := ofLeBytes_leBytesSigned n v
  rw [h.emod_byteRange] at hread
  obtain ⟨hlow, hhigh⟩ := h
  rw [ofLeBytesSigned, length_leBytesSigned]
  split at hread
  · -- a negative integer is stored in the upper half
    rw [hread, if_neg (by omega)]
    omega
  · rw [hread, if_pos (by omega)]
    omega

/-! ## The least width -/

/-- `bitLength` tells whether a number is in the lower half of a range. -/
theorem bitLength_lt_iff (hn : 0 < n) (m : Nat) : bitLength m < 8 * n ↔ 2 * m < byteRange n := by
  rw [byteRange_eq_two_pow, Nat.pow_eq, bitLength]
  cases n with
  | zero => exact absurd hn (Nat.lt_irrefl 0)
  | succ n =>
    have hhalf : 2 ^ (8 * (n + 1)) = 2 * 2 ^ (8 * n + 7) := by
      rw [← Nat.pow_add_one']
      rfl
    rw [hhalf]
    by_cases hm : m = 0
    · subst hm
      have : 0 < 2 ^ (8 * n + 7) := Nat.pow_pos (by decide)
      simp only [if_true]
      omega
    · rw [if_neg hm]
      have := Nat.log2_lt (n := m) (k := 8 * n + 7) hm
      omega

/-- `signedWidth` is the least positive number of bytes in whose range an integer is. -/
theorem signedWidth_le_iff (hn : 0 < n) (v : Int) : signedWidth v ≤ n ↔ FitsSigned n v := by
  have hdiv : ∀ m, bitLength m / 8 + 1 ≤ n ↔ 2 * m < byteRange n := by
    intro m
    rw [← bitLength_lt_iff hn]
    omega
  cases v with
  | ofNat m =>
    rw [signedWidth, hdiv, FitsSigned]
    simp only [Int.ofNat_eq_natCast]
    omega
  | negSucc m =>
    -- the range is even, so `2 * (m + 1)` reaches it exactly when `2 * m` stays below it
    obtain ⟨k, hk⟩ : ∃ k, byteRange n = 2 * k := by
      cases n with
      | zero => omega
      | succ n => exact ⟨128 * byteRange n, by rw [byteRange]; omega⟩
    rw [signedWidth, hdiv, FitsSigned]
    omega

end ContractScript
