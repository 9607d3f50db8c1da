import ContractScript.Text.Blank
import ContractScript.Text.Utf8

/-!
# ASCII texts

An ASCII character is one byte, and every byte of any other character is at least 128. Case is a
matter of ASCII letters only.
-/

namespace ContractScript.Text

variable {c : Char}

/-! ## Characters -/

/-- The byte of an ASCII character. -/
def byteOf (c : Char) : UInt8 := UInt8.ofNat c.toNat

/-- The ASCII character of a byte. -/
def charOf (b : UInt8) : Char := Char.ofNat b.toNat

/-- What holds of the characters of all codes below 128 holds of ASCII characters. -/
theorem forall_ascii {P : Char → Prop} (h : ∀ n < 128, P (Char.ofNat n)) (hc : c.toNat < 128) :
    P c := by
  have hat := h c.toNat hc
  rwa [Char.ofNat_toNat] at hat

theorem toNat_byteOf (h : c.toNat < 128) : (byteOf c).toNat = c.toNat := by
  rw [byteOf, UInt8.toNat_ofNat']
  omega

/-- `charOf` inverts `byteOf` on ASCII characters. -/
theorem charOf_byteOf (h : c.toNat < 128) : charOf (byteOf c) = c := by
  rw [charOf, toNat_byteOf h, Char.ofNat_toNat]

/-- `charOf` gives different bytes different characters. -/
theorem charOf_injective {b b' : UInt8} (h : charOf b = charOf b') : b = b' := by
  have hcode : ∀ n < 256, (Char.ofNat n).toNat = n := by decide +kernel
  have heq := congrArg Char.toNat h
  rw [charOf, charOf, hcode _ b.toNat_lt, hcode _ b'.toNat_lt] at heq
  exact UInt8.toNat_inj.mp heq

/-- `Char.toLower` changes ASCII characters only. -/
theorem forall_toLower {P : Char → Prop} (hascii : ∀ n < 128, P (Char.ofNat n))
    (hsame : ∀ c : Char, c.toLower = c → P c) (c : Char) : P c := by
  by_cases hc : c.toNat < 128
  · exact forall_ascii hascii hc
  · refine hsame c (dif_neg ?_)
    rintro ⟨-, hle⟩
    exact hc (Nat.lt_of_le_of_lt hle (by decide))

/-! ## Bytes of texts -/

/-- The one byte of an ASCII character is its `byteOf`. -/
theorem utf8EncodeChar_of_ascii (h : c.toNat < 128) : String.utf8EncodeChar c = [byteOf c] := by
  have hle : c.val.toNat ≤ 127 := Nat.le_of_lt_succ h
  rw [String.utf8EncodeChar]
  simp only [if_pos hle]
  rfl

/-- Some byte of a character beyond ASCII is no ASCII byte. -/
theorem exists_mem_utf8EncodeChar (h : ¬ c.toNat < 128) :
    ∃ b ∈ String.utf8EncodeChar c, ¬ b.toNat < 128 := by
  have hgt : ¬ c.val.toNat ≤ 127 := fun hle => h (Nat.lt_succ_of_le hle)
  rw [String.utf8EncodeChar]
  simp only [if_neg hgt]
  split
  · refine ⟨_, List.mem_cons_self, ?_⟩
    rw [UInt8.toNat_ofNat']
    omega
  · split
    · refine ⟨_, List.mem_cons_self, ?_⟩
      rw [UInt8.toNat_ofNat']
      omega
    · refine ⟨_, List.mem_cons_self, ?_⟩
      rw [UInt8.toNat_ofNat']
      omega

/-- `utf8` of an ASCII text, character by character. -/
theorem utf8_of_ascii {s : String} (h : ∀ c ∈ s.toList, c.toNat < 128) :
    utf8 s = s.toList.map byteOf := by
  rw [utf8]
  generalize s.toList = cs at h
  induction cs with
  | nil => rfl
  | cons c cs ih =>
    obtain ⟨hc, hcs⟩ := List.forall_mem_cons.mp h
    rw [List.flatMap_cons, utf8EncodeChar_of_ascii hc, ih hcs]
    rfl

/-- A text whose `utf8` bytes are ASCII has ASCII characters only. -/
theorem ascii_of_utf8 {s : String} (h : ∀ b ∈ utf8 s, b.toNat < 128) :
    ∀ c ∈ s.toList, c.toNat < 128 := by
  intro c hc
  by_cases hascii : c.toNat < 128
  · exact hascii
  · obtain ⟨b, hb, hlarge⟩ := exists_mem_utf8EncodeChar hascii
    exact absurd (h b (List.mem_flatMap.mpr ⟨c, hc, hb⟩)) hlarge

end ContractScript.Text
