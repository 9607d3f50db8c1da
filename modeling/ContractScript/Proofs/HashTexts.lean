import ContractScript.Machine.Host
import ContractScript.Proofs.Ascii
import ContractScript.Proofs.Outcomes

/-!
# Texts of script hashes

A hash is shown as `0x` and forty digits, the last byte of the script order first. It is read from
such a text in any case, with or without `0x`. Texts are read as bytes, and no byte of a character
beyond ASCII is a digit.
-/

namespace ContractScript

open List

open Text (byteOf charOf)

variable {c : Char}

/-! ## Digits -/

/-- A hexadecimal digit, of either case. -/
def IsHexDigit (c : Char) : Prop :=
  c ∈ "0123456789abcdefABCDEF".toList

instance (c : Char) : Decidable (IsHexDigit c) :=
  inferInstanceAs (Decidable (_ ∈ _))

/-- The value of a digit. -/
def hexValue (c : Char) : Nat :=
  (Text.digitValue? 16 c).getD 0

namespace IsHexDigit

/-- What holds of the digits one by one holds of every digit. -/
theorem elim {P : Char → Prop} [DecidablePred P] (h : IsHexDigit c)
    (hall : "0123456789abcdefABCDEF".toList.all (fun c => decide (P c)) = true) : P c :=
  of_decide_eq_true (all_eq_true.mp hall c h)

/-- `Hex.value?` of the byte of a digit is its value. -/
theorem value?_byteOf (h : IsHexDigit c) :
    c.toNat < 128 ∧ Hex.value? (byteOf c) = some (hexValue c) := by
  apply h.elim
  decide +kernel

/-- A digit is shown by its value in lower case. -/
theorem shown (h : IsHexDigit c) :
    hexValue c < 16 ∧ charOf (Hex.digit (hexValue c)) = c.toLower := by
  apply h.elim
  decide +kernel

theorem of_toLower : IsHexDigit c.toLower → IsHexDigit c :=
  Text.forall_toLower (P := fun c => IsHexDigit c.toLower → IsHexDigit c) (by decide +kernel)
    (fun _ hsame h => hsame ▸ h) c

end IsHexDigit

namespace Hex

/-- A byte with a value is the byte of a digit. -/
theorem isHexDigit_of_value? {b : UInt8} {n : Nat} (h : value? b = some n) :
    b.toNat < 128 ∧ IsHexDigit (charOf b) ∧ hexValue (charOf b) = n := by
  have hcodes : ∀ k < 256, ∀ n ∈ value? (UInt8.ofNat k),
      k < 128 ∧ IsHexDigit (Char.ofNat k) ∧ hexValue (Char.ofNat k) = n := by
    decide +kernel
  refine hcodes b.toNat b.toNat_lt n ?_
  rw [UInt8.ofNat_toNat]
  exact h

/-- One byte for every two values. -/
def joinPairs : List Nat → List UInt8
  | high :: low :: rest => UInt8.ofNat (16 * high + low) :: joinPairs rest
  | _ => []

/-- `joinPairs` byte by byte. -/
theorem joinPairs_eq_map : ∀ {n : Nat} {vs : List Nat}, vs.length = 2 * n → joinPairs vs =
    (List.range n).map fun j => UInt8.ofNat (16 * vs.getD (2 * j) 0 + vs.getD (2 * j + 1) 0)
  | 0, [], _ => rfl
  | n + 1, high :: low :: rest, h => by
    have hrest : rest.length = 2 * n := by
      rw [length_cons, length_cons] at h
      omega
    rw [range_succ_eq_map, map_cons, map_map, joinPairs, joinPairs_eq_map hrest]
    rfl

/-- The digits of joined values are those values. -/
theorem digits_joinPairs : ∀ {vs : List Nat}, 2 ∣ vs.length → (∀ v ∈ vs, v < 16) →
    digits (joinPairs vs) = vs.map digit
  | [], _, _ => rfl
  | [_], heven, _ => by cases Nat.eq_one_of_dvd_one heven
  | high :: low :: rest, heven, hsmall => by
    obtain ⟨hhigh, hlow, hrest⟩ : high < 16 ∧ low < 16 ∧ ∀ v ∈ rest, v < 16 := by
      simpa only [forall_mem_cons] using hsmall
    have hdigits := digits_joinPairs ((Nat.dvd_add_left (Nat.dvd_refl 2)).mp heven) hrest
    have hbyte : (UInt8.ofNat (16 * high + low)).toNat = 16 * high + low := by
      rw [UInt8.toNat_ofNat']
      omega
    have hparts : (16 * high + low) / 16 = high ∧ (16 * high + low) % 16 = low := by omega
    show digit _ :: digit _ :: digits (joinPairs rest) = _
    rw [hbyte, hparts.1, hparts.2, hdigits]
    rfl

/-- `decodeFrom` succeeds exactly if all bytes have values, which are joined. -/
theorem decodeFrom_eq_ok_iff : ∀ {position : Nat} {bs out : List UInt8}, 2 ∣ bs.length →
    (decodeFrom position bs = .ok out ↔
      ∃ vs, bs.map value? = vs.map some ∧ out = joinPairs vs)
  | _, [], out, _ => by
    constructor
    · intro h
      cases h
      exact ⟨[], rfl, rfl⟩
    · rintro ⟨vs, hvs, rfl⟩
      cases map_eq_nil_iff.mp hvs.symm
      rfl
  | _, [_], _, heven => by cases Nat.eq_one_of_dvd_one heven
  | position, high :: low :: rest, out, heven => by
    have heven' := (Nat.dvd_add_left (Nat.dvd_refl 2)).mp heven
    constructor
    · intro h
      unfold decodeFrom at h
      split at h
      · cases h
      · cases h
      · next v w hv hw =>
        obtain ⟨bytes, hbytes, h⟩ := bind_eq_ok.mp h
        obtain ⟨vs, hvs, rfl⟩ := (decodeFrom_eq_ok_iff heven').mp hbytes
        cases h
        refine ⟨v :: w :: vs, ?_, rfl⟩
        rw [map_cons, map_cons, hv, hw, hvs]
        rfl
    · rintro ⟨vs, hvs, rfl⟩
      obtain ⟨v, vs, rfl, hv, hvs⟩ := map_eq_cons_iff.mp hvs.symm
      obtain ⟨w, vs, rfl, hw, hvs⟩ := map_eq_cons_iff.mp hvs
      rw [decodeFrom, ← hv, ← hw, (decodeFrom_eq_ok_iff heven').mpr ⟨vs, hvs.symm, rfl⟩]
      rfl

theorem digits_injective {bytes bytes' : List UInt8} (h : digits bytes = digits bytes') :
    bytes = bytes' := by
  have hread := decode_digits bytes
  rw [h, decode_digits] at hread
  exact (Except.ok.inj hread).symm

/-- Two digits for each byte. -/
theorem length_digits (bytes : List UInt8) : (digits bytes).length = 2 * bytes.length := by
  induction bytes with
  | nil => rfl
  | cons b bs ih =>
    show (digits bs).length + 2 = 2 * (bs.length + 1)
    rw [ih]
    omega

end Hex

/-! ## Hashes -/

/-- Forty digits after an optional `0x` or `0X`. -/
structure HashText (s : String) (digits : List Char) : Prop where
  marked : s.toList = digits ∨ s.toList = '0' :: 'x' :: digits ∨ s.toList = '0' :: 'X' :: digits
  length : digits.length = 40
  digits : ∀ c ∈ digits, IsHexDigit c

namespace Hash160

variable {s : String} {ds : List Char} {bs : List UInt8} {h : Hash160}

/-- `ofShown?` is the inverse of `shown`. -/
theorem ofShown?_eq_some_iff : ofShown? bs = some h ↔ h.shown = bs := by
  rw [ofShown?, ofBytes?]
  constructor
  · intro heq
    split at heq
    · cases heq
      exact reverse_reverse bs
    · cases heq
  · rintro rfl
    have hbytes : h.shown.reverse = h.bytes := reverse_reverse h.bytes
    rw [dif_pos (by rw [hbytes, h.length_bytes])]
    simp only [hbytes]

/-- `parseBytes` reads the bytes of forty digits that are decoded to the shown form. -/
theorem parseBytes_eq_ok_iff : parseBytes bs = .ok h ↔
    (digitsOf bs).length = 40 ∧ Hex.decode (digitsOf bs) = .ok h.shown := by
  unfold parseBytes
  dsimp only
  by_cases hlength : (digitsOf bs).length = 40
  · rw [if_neg (not_not_intro hlength)]
    cases hdecode : Hex.decode (digitsOf bs) with
    | error e => exact ⟨nofun, fun h => (nomatch h.2)⟩
    | ok bytes =>
      dsimp only
      rw [Except.ok.injEq, eq_comm (a := bytes), ← ofShown?_eq_some_iff]
      cases ofShown? bytes with
      | none => exact ⟨nofun, fun h => (nomatch h.2)⟩
      | some h' => simp [hlength]
  · rw [if_pos hlength]
    exact ⟨nofun, fun h => absurd h.1 hlength⟩

theorem digitsOf_cases (bs : List UInt8) :
    bs = digitsOf bs ∨ bs = 48 :: 120 :: digitsOf bs ∨ bs = 48 :: 88 :: digitsOf bs := by
  unfold digitsOf
  split
  · exact .inr (.inl rfl)
  · exact .inr (.inr rfl)
  · exact .inl rfl

/-- Digits are no mark. -/
theorem digitsOf_of_values {vs : List Nat} (hvs : bs.map Hex.value? = vs.map some) :
    digitsOf bs = bs := by
  unfold digitsOf
  split
  · obtain ⟨_, _, rfl, _, hvs⟩ := map_eq_cons_iff.mp hvs.symm
    obtain ⟨_, _, rfl, h, _⟩ := map_eq_cons_iff.mp hvs
    cases h
  · obtain ⟨_, _, rfl, _, hvs⟩ := map_eq_cons_iff.mp hvs.symm
    obtain ⟨_, _, rfl, h, _⟩ := map_eq_cons_iff.mp hvs
    cases h
  · rfl

end Hash160

/-! ## Texts -/

namespace HashText

variable {s : String} {ds : List Char}

theorem map_value? (hs : HashText s ds) :
    (ds.map byteOf).map Hex.value? = (ds.map hexValue).map some := by
  rw [map_map, map_map]
  exact map_congr_left fun c hc => (hs.digits c hc).value?_byteOf.2

/-- The bytes without the mark are those of the digits. -/
theorem digitsOf_utf8 (hs : HashText s ds) :
    Hash160.digitsOf (Text.utf8 s) = ds.map byteOf := by
  have hascii : ∀ c ∈ s.toList, c.toNat < 128 := by
    have hdigits : ∀ c ∈ ds, c.toNat < 128 := fun c hc => (hs.digits c hc).value?_byteOf.1
    rcases hs.marked with heq | heq | heq
    · rwa [heq]
    · rw [heq, forall_mem_cons, forall_mem_cons]
      exact ⟨by decide, by decide, hdigits⟩
    · rw [heq, forall_mem_cons, forall_mem_cons]
      exact ⟨by decide, by decide, hdigits⟩
  rw [Text.utf8_of_ascii hascii]
  rcases hs.marked with heq | heq | heq
  · rw [heq, Hash160.digitsOf_of_values hs.map_value?]
  · rw [heq]
    rfl
  · rw [heq]
    rfl

/-- What is read as forty digits is a text of them: no character beyond ASCII is among them. -/
theorem of_digitsOf {vs : List Nat} (hlength : (Hash160.digitsOf (Text.utf8 s)).length = 40)
    (hvs : (Hash160.digitsOf (Text.utf8 s)).map Hex.value? = vs.map some) :
    ∃ ds, HashText s ds ∧ ds.map hexValue = vs := by
  generalize hbs : Hash160.digitsOf (Text.utf8 s) = bs at hlength hvs
  have hdigit : ∀ b ∈ bs, ∃ v, Hex.value? b = some v := by
    intro b hb
    obtain ⟨v, -, hv⟩ := mem_map.mp (hvs ▸ mem_map_of_mem (f := Hex.value?) hb)
    exact ⟨v, hv.symm⟩
  -- a character beyond ASCII would leave a byte that is no digit
  have hbytes : ∀ b ∈ Text.utf8 s, b.toNat < 128 := by
    have hdigits : ∀ b ∈ bs, b.toNat < 128 := fun b hb =>
      (Hex.isHexDigit_of_value? (hdigit b hb).choose_spec).1
    rcases Hash160.digitsOf_cases (Text.utf8 s) with heq | heq | heq
    · rwa [heq, hbs]
    · rw [heq, hbs, forall_mem_cons, forall_mem_cons]
      exact ⟨by decide, by decide, hdigits⟩
    · rw [heq, hbs, forall_mem_cons, forall_mem_cons]
      exact ⟨by decide, by decide, hdigits⟩
  have hback : s.toList = (Text.utf8 s).map charOf := by
    have hascii := Text.ascii_of_utf8 hbytes
    rw [Text.utf8_of_ascii hascii, map_map]
    conv => lhs; rw [← List.map_id s.toList]
    exact map_congr_left fun c hc => (Text.charOf_byteOf (hascii c hc)).symm
  refine ⟨bs.map charOf, ⟨?_, ?_, ?_⟩, ?_⟩
  · rw [hback, ← hbs]
    rcases Hash160.digitsOf_cases (Text.utf8 s) with heq | heq | heq
    · exact .inl (congrArg _ heq)
    · exact .inr (.inl (congrArg _ heq))
    · exact .inr (.inr (congrArg _ heq))
  · rw [length_map, hlength]
  · intro c hc
    obtain ⟨b, hb, rfl⟩ := mem_map.mp hc
    exact (Hex.isHexDigit_of_value? (hdigit b hb).choose_spec).2.1
  · refine (map_inj_right fun _ _ => Option.some.inj).mp ?_
    rw [← hvs, map_map, map_map]
    refine map_congr_left fun b hb => ?_
    obtain ⟨v, hv⟩ := hdigit b hb
    rw [hv, Function.comp_apply, Function.comp_apply, (Hex.isHexDigit_of_value? hv).2.2]

end HashText

namespace Hash160

variable {s : String} {ds : List Char} {h : Hash160}

/-- `parse` reads a text as the hash that shows the joined values of its forty digits. -/
theorem parse_eq_ok_iff : parse s = .ok h ↔
    ∃ ds, HashText s ds ∧ h.shown = Hex.joinPairs (ds.map hexValue) := by
  rw [parse, parseBytes_eq_ok_iff, Hex.decode]
  constructor
  · rintro ⟨hlength, hdecode⟩
    obtain ⟨vs, hvs, hshown⟩ := (Hex.decodeFrom_eq_ok_iff (by omega)).mp hdecode
    obtain ⟨ds, hs, rfl⟩ := HashText.of_digitsOf hlength hvs
    exact ⟨ds, hs, hshown⟩
  · rintro ⟨ds, hs, hshown⟩
    have hlength : (ds.map byteOf).length = 40 := by rw [length_map, hs.length]
    rw [hs.digitsOf_utf8, hshown]
    exact ⟨hlength, (Hex.decodeFrom_eq_ok_iff (by omega)).mpr ⟨_, hs.map_value?, rfl⟩⟩

/-- The shown form, character by character. -/
theorem toList_text (h : Hash160) :
    h.text.toList = '0' :: 'x' :: (Hex.digits h.shown).map charOf := by
  have hdigits : (Hex.encode h.shown).toList = (Hex.digits h.shown).map charOf :=
    String.toList_ofList
  rw [text, String.toList_append, hdigits]
  rfl

/-- Joined values are shown as their digits in lower case. -/
theorem digits_joinPairs (hs : HashText s ds) :
    (Hex.digits (Hex.joinPairs (ds.map hexValue))).map charOf = ds.map Char.toLower := by
  have hsmall : ∀ v ∈ ds.map hexValue, v < 16 := by
    intro v hv
    obtain ⟨c, hc, rfl⟩ := mem_map.mp hv
    exact (hs.digits c hc).shown.1
  have heven : 2 ∣ (ds.map hexValue).length := by
    rw [length_map, hs.length]
    decide
  rw [Hex.digits_joinPairs heven hsmall, map_map, map_map]
  exact map_congr_left fun c hc => (hs.digits c hc).shown.2

/-- The shown form of a `literal` joins the values of its digits. -/
theorem shown_literal (heq : s.toList = '0' :: 'x' :: ds) (hlength : ds.length = 40) :
    (literal s).shown = Hex.joinPairs (ds.map hexValue) := by
  have hdigit : ∀ i < 40,
      (Text.digitValue? 16 (s.toList.getD (i + 2) '0')).getD 0 = (ds.map hexValue).getD i 0 := by
    intro i hi
    rw [heq, getD_eq_getElem?_getD, getD_eq_getElem?_getD, getElem?_map]
    show (Text.digitValue? 16 (ds[i]?.getD '0')).getD 0 = _
    rw [getElem?_eq_getElem (hlength ▸ hi)]
    rfl
  have hvalues : (ds.map hexValue).length = 2 * 20 := by rw [length_map, hlength]
  rw [Hex.joinPairs_eq_map hvalues, shown, literal]
  refine ext_getElem (by simp) fun j hj _ => ?_
  rw [length_reverse, length_map, length_range] at hj
  -- the bytes are shown from the last to the first, after the mark
  have hplace : 2 * (20 - (20 - 1 - j)) = 2 * j + 2 := by omega
  simp only [getElem_reverse, getElem_map, getElem_range, length_map,
    length_range, hplace]
  rw [hdigit _ (by omega), Nat.add_right_comm, hdigit _ (by omega)]

/-- A constant is what its text is read as. -/
theorem parse_literal (hs : HashText s ds) (heq : s.toList = '0' :: 'x' :: ds) :
    parse s = .ok (literal s) :=
  parse_eq_ok_iff.mpr ⟨ds, hs, shown_literal heq hs.length⟩

/-- Every `HashText` is read, as the constant with those digits. -/
theorem exists_parse (hs : HashText s ds) : ∃ h, parse s = .ok h :=
  ⟨_, parse_eq_ok_iff.mpr ⟨ds, hs,
    shown_literal (s := String.ofList ('0' :: 'x' :: ds)) String.toList_ofList hs.length⟩⟩

/-- What differs from the digits of a shown hash in case only is forty digits. -/
theorem digits_of_toLower (heq : ds.map Char.toLower = (Hex.digits h.shown).map charOf) :
    ds.length = 40 ∧ ∀ c ∈ ds, IsHexDigit c := by
  constructor
  · have hlength := congrArg List.length heq
    rw [length_map, length_map, Hex.length_digits, shown, length_reverse,
      h.length_bytes] at hlength
    exact hlength
  · have hdigit : ∀ n < 16, IsHexDigit (charOf (Hex.digit n)) := by decide +kernel
    intro c hc
    have hmem : c.toLower ∈ (Hex.digits h.shown).map charOf := heq ▸ mem_map_of_mem hc
    obtain ⟨b, hb, hcb⟩ := mem_map.mp hmem
    obtain ⟨byte, -, hb⟩ := mem_flatMap.mp hb
    have hbyte := byte.toNat_lt
    refine IsHexDigit.of_toLower (hcb ▸ ?_)
    rcases mem_pair.mp hb with rfl | rfl
    · exact hdigit _ (by omega)
    · exact hdigit _ (by omega)

/-- A text with the digits of the shown form, in any case, is read. -/
theorem parse_of_toLower (heq : ds.map Char.toLower = (Hex.digits h.shown).map charOf)
    (hmarked : s.toList = ds ∨ s.toList = '0' :: 'x' :: ds ∨ s.toList = '0' :: 'X' :: ds) :
    parse s = .ok h := by
  obtain ⟨hlength, hdigits⟩ := digits_of_toLower heq
  have hs : HashText s ds := ⟨hmarked, hlength, hdigits⟩
  have hsame := (map_inj_right fun _ _ => Text.charOf_injective).mp
    (heq.symm.trans (digits_joinPairs hs).symm)
  exact parse_eq_ok_iff.mpr ⟨ds, hs, Hex.digits_injective hsame⟩

end Hash160

/-! ## Round trip -/

/-- `Hash160.parse` reads a hash from its shown form, in any case of the letters and with `0x` or
without. What a text is read as is shown as its forty digits in lower case, and exactly the texts of
forty digits after an optional `0x` or `0X` are read. A `Hash160.literal` of this library stands for
what its text is read as. -/
theorem hash_texts_round_trip :
    (∀ (h : Hash160) (s : String),
      (s.toList.map Char.toLower = h.text.toList ∨
        s.toList.map Char.toLower = h.text.toList.drop 2) → Hash160.parse s = .ok h) ∧
    (∀ (s : String) (h : Hash160), Hash160.parse s = .ok h → ∃ digits, HashText s digits ∧
      h.text = "0x" ++ String.ofList (digits.map Char.toLower)) ∧
    (∀ s : String, (∃ h, Hash160.parse s = .ok h) ↔ ∃ digits, HashText s digits) ∧
    ∀ (s : String) (digits : List Char), HashText s digits → s.toList = '0' :: 'x' :: digits →
      Hash160.parse s = .ok (Hash160.literal s) := by
  have hzero : ∀ c : Char, c.toLower = '0' → c = '0' :=
    Text.forall_toLower (by decide +kernel) fun _ hsame h => hsame ▸ h
  have hmark : ∀ c : Char, c.toLower = 'x' → c = 'x' ∨ c = 'X' :=
    Text.forall_toLower (by decide +kernel) fun _ hsame h => .inl (hsame ▸ h)
  refine ⟨?_, ?_, fun s => ⟨?_, fun ⟨_, hs⟩ => Hash160.exists_parse hs⟩,
    fun s digits => Hash160.parse_literal⟩
  · intro h s hs
    rw [Hash160.toList_text] at hs
    rcases hs with hs | hs
    · obtain ⟨zero, _, hrest, hz, hs⟩ := map_eq_cons_iff.mp hs
      obtain ⟨mark, digits, rfl, hm, hdigits⟩ := map_eq_cons_iff.mp hs
      rw [hzero zero hz] at hrest
      rcases hmark mark hm with rfl | rfl
      · exact Hash160.parse_of_toLower hdigits (.inr (.inl hrest))
      · exact Hash160.parse_of_toLower hdigits (.inr (.inr hrest))
    · exact Hash160.parse_of_toLower hs (.inl rfl)
  · intro s h hparse
    obtain ⟨digits, hs, hshown⟩ := Hash160.parse_eq_ok_iff.mp hparse
    have hdigits : (String.ofList (digits.map Char.toLower)).toList = digits.map Char.toLower :=
      String.toList_ofList
    refine ⟨digits, hs, String.toList_inj.mp ?_⟩
    rw [Hash160.toList_text, hshown, Hash160.digits_joinPairs hs, String.toList_append, hdigits]
    rfl
  · rintro ⟨h, hparse⟩
    obtain ⟨digits, hs, -⟩ := Hash160.parse_eq_ok_iff.mp hparse
    exact ⟨digits, hs⟩

theorem hash_texts_round_trip_neoToken :
    Hash160.parse "EF4073A0f2b305a38ec4050e4d3d28bc40ea63f5" = .ok NativeContract.neoToken.hash ∧
    (∃ digits, HashText "0XEF4073A0f2b305a38ec4050e4d3d28bc40ea63f5" digits ∧
      NativeContract.neoToken.hash.text = "0x" ++ String.ofList (digits.map Char.toLower)) ∧
    Hash160.parse "0xef4073a0f2b305a38ec4050e4d3d28bc40ea63f5" =
      .ok NativeContract.neoToken.hash := by
  obtain ⟨hread, hshown, -, hconstant⟩ := hash_texts_round_trip
  refine ⟨hread _ _ (.inr ?_), hshown _ _ (hread _ _ (.inl ?_)), hconstant _ _ ?_ rfl⟩
  · decide +kernel
  · decide +kernel
  · refine ⟨.inr (.inl rfl), by decide +kernel, fun c hc => of_decide_eq_true ?_⟩
    exact (all_eq_true (p := fun c => decide (IsHexDigit c))).mp (by decide +kernel) c hc

end ContractScript
