import ContractScript.Proofs.Ascii
import ContractScript.Proofs.BinderSteps
import ContractScript.Proofs.FaultReports
import ContractScript.Proofs.IntegerPushes

/-!
# Lists of operations as texts

A list of operations is written with `;` between its parts. A part is blank, or it is a mnemonic
with its operand, in any ASCII case and with blanks around them.
-/

namespace ContractScript

open List

variable {c : Char} {base : Nat} {op : Operation}

namespace Text

/-! ## Words -/

/-- The same characters but for the case of ASCII letters. -/
abbrev SameLetters (a b : List Char) : Prop :=
  a.map Char.toLower = b.map Char.toLower

abbrev Blank (cs : List Char) : Prop :=
  ∀ c ∈ cs, isBlank c = true

/-- A character that separates neither words nor operations. -/
def isPlain (c : Char) : Bool :=
  !isBlank c && c != ';'

/-- A text that is one word. -/
def Solid (word : List Char) : Prop :=
  word ≠ [] ∧ word.all isPlain = true

variable {word text blanks before gap after : List Char} {ws : List (List Char)}

/-- `split` is the `splitOnP` of lists. -/
theorem split_eq_splitOnP (sep : Char → Bool) (cs : List Char) :
    split sep cs = cs.splitOnP sep := by
  induction cs with
  | nil => rfl
  | cons c cs ih =>
    rw [split, splitOnP_cons_eq_if_modifyHead, ih]
    split
    · rfl
    · cases hpieces : cs.splitOnP sep with
      | nil => exact absurd hpieces (splitOnP_ne_nil sep cs)
      | cons piece pieces => rfl

/-- `words` are found on both sides of a blank. -/
theorem words_append_cons (hc : isBlank c = true) (xs ys : List Char) :
    words (xs ++ c :: ys) = words xs ++ words ys := by
  simp only [words, split_eq_splitOnP, splitOnP_append_cons xs ys hc, filter_append]

/-- `Solid` text is one word. -/
theorem words_of_solid (h : Solid word) : words word = [word] := by
  have hplain : ∀ c ∈ word, isBlank c = false := by
    intro c hc
    have hc := all_eq_true.mp h.2 c hc
    rw [isPlain, Bool.and_eq_true, Bool.not_eq_true'] at hc
    exact hc.1
  rw [words, split_eq_splitOnP, splitOnP_eq_singleton hplain,
    filter_cons_of_pos (by simpa using h.1), filter_nil]

theorem words_blank_append (h : Blank blanks) (cs : List Char) :
    words (blanks ++ cs) = words cs := by
  induction blanks with
  | nil => rfl
  | cons c blanks ih =>
    obtain ⟨hc, hblanks⟩ := forall_mem_cons.mp h
    exact (words_append_cons hc [] _).trans (ih hblanks)

theorem words_append_blank (h : Blank blanks) (cs : List Char) :
    words (cs ++ blanks) = words cs := by
  cases blanks with
  | nil => rw [append_nil]
  | cons c blanks =>
    obtain ⟨hc, hblanks⟩ := forall_mem_cons.mp h
    have hnone := words_blank_append hblanks []
    rw [append_nil] at hnone
    rw [words_append_cons hc, hnone]
    exact append_nil _

/-- `words` with blanks between and around them are found one by one. -/
theorem words_pad (hbefore : Blank before) (hgap : Blank gap) (hne : gap ≠ [])
    (hafter : Blank after) (hws : ∀ w ∈ ws, Solid w) :
    words (before ++ gap.intercalate ws ++ after) = ws := by
  rw [words_append_blank hafter, words_blank_append hbefore]
  induction ws with
  | nil => rfl
  | cons w ws ih =>
    obtain ⟨hw, hws⟩ := forall_mem_cons.mp hws
    cases ws with
    | nil => rw [intercalate_singleton, words_of_solid hw]
    | cons next ws =>
      obtain ⟨c, blanks, rfl⟩ := exists_cons_of_ne_nil hne
      obtain ⟨hc, hblanks⟩ := forall_mem_cons.mp hgap
      rw [intercalate_cons_cons, append_assoc, cons_append, words_append_cons hc,
        words_blank_append hblanks, ih hws, words_of_solid hw]
      rfl

theorem trim_of_blank (h : Blank blanks) : trim blanks = [] := by
  have hnil : blanks.dropWhile isBlank = [] := by
    rw [← append_nil blanks, dropWhile_append_of_pos h, dropWhile_nil]
  rw [trim, trimBy, hnil]
  rfl

/-- `trim` removes blanks only. -/
theorem words_trim (cs : List Char) : words (trim cs) = words cs := by
  have hblank : ∀ xs : List Char, Blank (xs.takeWhile isBlank) := fun _ _ => mem_takeWhile_imp
  have hfront := words_blank_append (hblank cs) (cs.dropWhile isBlank)
  have hback := words_append_blank (show Blank ((cs.dropWhile isBlank).reverse.takeWhile
    isBlank).reverse from fun c hc => hblank _ c (mem_reverse.mp hc)) (trim cs)
  rw [takeWhile_append_dropWhile] at hfront
  rw [hfront, ← hback, trim, trimBy, ← reverse_append, takeWhile_append_dropWhile, reverse_reverse]

/-! ## Letters and digits -/

theorem equalsIgnoringCase_congr (h : SameLetters word text) (cs : List Char) :
    equalsIgnoringCase word cs = equalsIgnoringCase text cs := by
  rw [equalsIgnoringCase, equalsIgnoringCase, h]

/-- Blanks and separators have no case. -/
theorem Solid.of_sameLetters (h : SameLetters word text) (hsolid : Solid text) : Solid word := by
  have hlower : ∀ c : Char, isPlain c.toLower = isPlain c :=
    forall_toLower (by decide +kernel) fun c hc => by rw [hc]
  have hall : ∀ cs : List Char, (cs.map Char.toLower).all isPlain = cs.all isPlain := by
    intro cs
    rw [all_map]
    exact congrArg cs.all (funext hlower)
  refine ⟨?_, ?_⟩
  · rintro rfl
    exact hsolid.1 (map_eq_nil_iff.mp h.symm)
  · rw [← hall, h, hall, hsolid.2]

/-- `digitValue?` does not depend on case. -/
theorem digitValue?_toLower (c : Char) :
    digitValue? 10 c.toLower = digitValue? 10 c ∧ digitValue? 16 c.toLower = digitValue? 16 c :=
  forall_toLower (P := fun c => digitValue? 10 c.toLower = digitValue? 10 c ∧
    digitValue? 16 c.toLower = digitValue? 16 c) (by decide +kernel) (fun c hc => by simp [hc]) c

theorem readDigits_toLower (cs : List Char) (acc : Nat) :
    readDigits 16 acc (cs.map Char.toLower) = readDigits 16 acc cs := by
  induction cs generalizing acc with
  | nil => rfl
  | cons c cs ih =>
    rw [map_cons, readDigits, readDigits, (digitValue?_toLower c).2]
    simp only [ih]

/-- Leading zeros have no value. -/
theorem readDigits_replicate (hbase : 0 < base) (k : Nat) (ds : List Char) :
    readDigits base 0 (List.replicate k '0' ++ ds) = readDigits base 0 ds := by
  induction k with
  | zero => rfl
  | succ k ih =>
    rw [replicate_succ, cons_append, readDigits]
    simp [digitValue?, Option.filter, hbase, ih]

theorem byte?_of_readDigits {n : Nat} (hne : word ≠ []) (h : readDigits base 0 word = some n)
    (hn : n < 256) : byte? base word = some (UInt8.ofNat n) := by
  have hplus : ∀ rest, word ≠ '+' :: rest := by
    rintro rest rfl
    cases h
  rw [byte?]
  · simp [h, hn, hne]
  · exact hplus

theorem ascii_of_isDigit (h : c.isDigit = true) : c.toNat < 128 := by
  simp only [Char.isDigit, Bool.and_eq_true, decide_eq_true_eq, UInt32.le_iff_toNat_le] at h
  exact Nat.lt_of_le_of_lt h.2 (by decide)

/-- A digit is its own value and no separator. -/
theorem digitValue?_of_isDigit (h : c.isDigit = true) :
    digitValue? 10 c = some (c.toNat - '0'.toNat) ∧ isPlain c = true :=
  forall_ascii (P := fun c => c.isDigit = true →
    digitValue? 10 c = some (c.toNat - '0'.toNat) ∧ isPlain c = true)
    (by decide +kernel) (ascii_of_isDigit h) h

theorem isDigit_of_mem_toDigits {n : Nat} : c ∈ Nat.toDigits 10 n → c.isDigit = true :=
  Nat.isDigit_of_mem_toDigits (by decide) (by decide)

/-- `readDigits` reads decimal digits back. -/
theorem readDigits_toDigits (n : Nat) : readDigits 10 0 (Nat.toDigits 10 n) = some n := by
  have hread : ∀ (ds : List Char) (acc : Nat), (∀ c ∈ ds, c.isDigit = true) →
      readDigits 10 acc ds = some (Nat.ofDigitChars 10 ds acc) := by
    intro ds
    induction ds with
    | nil => exact fun _ _ => rfl
    | cons c ds ih =>
      intro acc h
      obtain ⟨hc, hds⟩ := forall_mem_cons.mp h
      rw [readDigits, (digitValue?_of_isDigit hc).1, Nat.ofDigitChars_cons]
      exact ih _ hds
  rw [hread _ _ fun c => isDigit_of_mem_toDigits, Nat.ofDigitChars_ten_toDigits]

theorem magnitude?_toDigits (n : Nat) : magnitude? (Nat.toDigits 10 n) = some n := by
  have hno : '_' ∉ Nat.toDigits 10 n := Nat.underscore_not_in_toDigits
  have hhead : (Nat.toDigits 10 n).head? ≠ some '_' := fun h => hno (mem_of_head? h)
  have hfilter : (Nat.toDigits 10 n).filter (· != '_') = Nat.toDigits 10 n :=
    filter_eq_self.mpr fun c hc => bne_iff_ne.mpr fun heq => hno (heq ▸ hc)
  rw [magnitude?, hfilter, readDigits_toDigits]
  simp [hhead]

theorem toList_decimal (n : Int) : (decimal n).toList = Nat.toDigits 10 n.natAbs ∧ 0 ≤ n ∨
    (decimal n).toList = '-' :: Nat.toDigits 10 n.natAbs ∧ n < 0 := by
  have hnat : ∀ m, (decimalNat m).toList = Nat.toDigits 10 m := fun _ => String.toList_ofList
  cases n with
  | ofNat n => exact .inl ⟨hnat n, Int.natCast_nonneg n⟩
  | negSucc n =>
    refine .inr ⟨?_, Int.negSucc_lt_zero n⟩
    rw [decimal, String.toList_append, hnat]
    rfl

/-- `integer?` reads the `decimal` text of an integer back. -/
theorem integer?_decimal (n : Int) : integer? (decimal n).toList = some n := by
  rcases toList_decimal n with ⟨htext, hn⟩ | ⟨htext, hn⟩
  · have hdigit : ∀ c cs, Nat.toDigits 10 n.natAbs = c :: cs → c.isDigit = true :=
      fun c cs heq => isDigit_of_mem_toDigits (heq ▸ mem_cons_self)
    rw [htext, integer?]
    · rw [magnitude?_toDigits, Option.map_some, Int.ofNat_eq_natCast, Int.natAbs_of_nonneg hn]
    · exact fun cs heq => absurd (hdigit _ cs heq) (by decide)
    · exact fun cs heq => absurd (hdigit _ cs heq) (by decide)
  · rw [htext, integer?, magnitude?_toDigits]
    show some (-(n.natAbs : Int)) = some n
    rw [Int.ofNat_natAbs_of_nonpos hn.le, Int.neg_neg]

theorem solid_decimal (n : Int) : Solid (decimal n).toList := by
  have hdigits : (Nat.toDigits 10 n.natAbs).all isPlain = true :=
    all_eq_true.mpr fun c hc => (digitValue?_of_isDigit (isDigit_of_mem_toDigits hc)).2
  rcases toList_decimal n with ⟨htext, -⟩ | ⟨htext, -⟩
  · rw [htext]
    exact ⟨Nat.toDigits_ne_nil, hdigits⟩
  · rw [htext]
    exact ⟨cons_ne_nil _ _, hdigits⟩

end Text

/-! ## Texts of operations -/

open Text (SameLetters Solid Blank)

/-- A type is written by its name, or by its tag in hexadecimal or decimal. -/
inductive ItemType.IsText (ty : ItemType) : List Char → Prop where
  | name {word : List Char} : SameLetters word ty.name.toList → IsText ty word
  | hex {mark : Char} {digits : List Char} (k : Nat) : mark = 'x' ∨ mark = 'X' →
    SameLetters digits (List.replicate k '0' ++ Nat.toDigits 16 ty.byte.toNat) →
      IsText ty ('0' :: mark :: digits)
  | decimal (k : Nat) : IsText ty (List.replicate k '0' ++ Nat.toDigits 10 ty.byte.toNat)

/-- The words of an `Operation`: its mnemonic and, if it takes one, its operand. -/
inductive Operation.IsText : Operation → List (List Char) → Prop where
  | simple {op : Opcode} {word : List Char} :
    op.isSimple = true → SameLetters word op.name.toList → IsText (.simple op) [word]
  | convert {ty : ItemType} {word operand : List Char} :
    SameLetters word "CONVERT".toList → ty.IsText operand → IsText (.convert ty) [word, operand]
  | isType {ty : ItemType} {word operand : List Char} :
    SameLetters word "ISTYPE".toList → ty.IsText operand → IsText (.isType ty) [word, operand]
  | pushInt {word : List Char} (n : Int) :
    SameLetters word "PUSHINT".toList → IsText (.pushInt n) [word, (Text.decimal n).toList]

namespace ItemType

variable {ty : ItemType} {word : List Char}

/-- The digits of a tag are read as the tag and stand in one word. -/
theorem readDigits_tag (ty : ItemType) (k : Nat) (h : base = 10 ∨ base = 16) :
    Text.readDigits base 0 (List.replicate k '0' ++ Nat.toDigits base ty.byte.toNat) =
      some ty.byte.toNat ∧ Solid (List.replicate k '0' ++ Nat.toDigits base ty.byte.toNat) := by
  have hdigits : Text.readDigits base 0 (Nat.toDigits base ty.byte.toNat) = some ty.byte.toNat ∧
      (Nat.toDigits base ty.byte.toNat).all Text.isPlain = true := by
    rcases h with rfl | rfl <;> cases ty <;> decide
  refine ⟨?_, by simp, ?_⟩
  · rw [Text.readDigits_replicate (by omega), hdigits.1]
  · rw [all_append, hdigits.2, all_replicate, Bool.and_true]
    split <;> rfl

theorem byte?_tag (hsolid : Solid word) (h : Text.readDigits base 0 word = some ty.byte.toNat) :
    Text.byte? base word = some ty.byte := by
  rw [Text.byte?_of_readDigits hsolid.1 h ty.byte.toNat_lt, UInt8.ofNat_toNat]

/-- `ItemType.parse?` reads every text of a type. -/
theorem parse?_of_isText (h : ty.IsText word) : parse? word = some ty := by
  have hbyte : ofByte? ty.byte = some ty := by cases ty <;> rfl
  cases h with
  | name h =>
    obtain ⟨d, ds, hname, hd, hplus⟩ : ∃ d ds, ty.name.toList.map Char.toLower = d :: ds ∧
        Text.digitValue? 10 d = none ∧ d ≠ '+' := by
      cases ty <;> exact ⟨_, _, rfl, rfl, by decide⟩
    obtain ⟨c, cs, rfl, rfl, -⟩ := map_eq_cons_iff.mp (h.trans hname)
    rw [(Text.digitValue?_toLower c).1] at hd
    have hfound : ofName? (c :: cs) = some ty := by
      have hall : ofName? ty.name.toList = some ty := by cases ty <;> rfl
      rw [← hall, ofName?, ofName?]
      simp only [Text.equalsIgnoringCase, h]
    have hno : Text.byte? 10 (c :: cs) = none := by
      rw [Text.byte?]
      · simp [Text.readDigits, hd]
      · rintro rest ⟨⟩
        exact hplus rfl
    -- a mark would start with a digit
    rw [parse?]
    · rw [hno]
      exact hfound
    · rintro digits ⟨⟩
      cases hd
    · rintro digits ⟨⟩
      cases hd
  | hex k hmark h =>
    obtain ⟨hread, hsolid⟩ := readDigits_tag ty k (.inr rfl)
    rw [← Text.readDigits_toLower, ← h, Text.readDigits_toLower] at hread
    have hdigits := byte?_tag (hsolid.of_sameLetters h) hread
    rcases hmark with rfl | rfl <;> rw [parse?, hdigits, Option.bind_some, hbyte]
  | decimal k =>
    obtain ⟨hread, hsolid⟩ := readDigits_tag ty k (.inl rfl)
    have hdigits := byte?_tag hsolid hread
    generalize List.replicate k '0' ++ Nat.toDigits 10 ty.byte.toNat = word at hdigits
    rw [parse?]
    · rw [hdigits]
      exact hbyte
    · rintro digits rfl
      cases hdigits
    · rintro digits rfl
      cases hdigits

/-- A text of a type is one word. -/
theorem IsText.solid (h : ty.IsText word) : Solid word := by
  cases h with
  | name h =>
    refine Solid.of_sameLetters h ?_
    cases ty <;> exact ⟨by decide, rfl⟩
  | hex k hmark h =>
    have hdigits := ((readDigits_tag ty k (.inr rfl)).2.of_sameLetters h).2
    rcases hmark with rfl | rfl <;> exact ⟨cons_ne_nil _ _, hdigits⟩
  | decimal k => exact (readDigits_tag ty k (.inl rfl)).2

end ItemType

theorem Operation.IsText.solid {ws : List (List Char)} (h : op.IsText ws) : ∀ w ∈ ws, Solid w := by
  have hnames : ∀ op ∈ Opcode.all, op.name.toList ≠ [] ∧
      op.name.toList.all Text.isPlain = true := by
    decide +kernel
  have hpair : ∀ {mnemonic word operand : List Char}, Solid mnemonic →
      SameLetters word mnemonic → Solid operand → ∀ w ∈ [word, operand], Solid w :=
    fun hmnemonic hword hoperand =>
      forall_mem_cons.mpr ⟨hmnemonic.of_sameLetters hword, forall_mem_singleton.mpr hoperand⟩
  cases h with
  | @simple op _ _ hword =>
    exact forall_mem_singleton.mpr (Solid.of_sameLetters hword (hnames op op.mem_all))
  | convert hword h => exact hpair ⟨by decide, rfl⟩ hword h.solid
  | isType hword h => exact hpair ⟨by decide, rfl⟩ hword h.solid
  | pushInt n hword => exact hpair ⟨by decide, rfl⟩ hword (Text.solid_decimal n)

/-! ## Reading -/

/-- The letters of a mnemonic in one number, which is compared faster than they are. -/
def Opcode.letters (op : Opcode) : Nat :=
  (op.name.toList.map Char.toLower).foldl (fun n c => 128 * n + c.toNat) 0

/-- `ofName?` finds an opcode by its mnemonic in any case: no two share one. -/
theorem Opcode.ofName?_of_sameLetters {op : Opcode} {word : List Char}
    (h : SameLetters word op.name.toList) : ofName? word = some op := by
  have hdistinct : (all.map letters).Nodup := by decide +kernel
  cases hfound : ofName? word with
  | none => exact absurd (beq_of_eq h.symm) (find?_eq_none.mp hfound op op.mem_all)
  | some found =>
    rw [ofName?] at hfound
    have hname := find?_some hfound
    have hsame : found.letters = op.letters := by rw [letters, eq_of_beq hname, h, letters]
    rw [inj_on_of_nodup_map hdistinct found.mem_all op.mem_all hsame]

/-- `parseOperation` reads a mnemonic and its operand, in any case. -/
theorem parseOperation_of_isText {part : List Char} (h : op.IsText (Text.words part)) :
    parseOperation part = .ok op := by
  have hmnemonics : ∀ op ∈ Opcode.all, op.isSimple = true →
      ∀ mnemonic ∈ ["CONVERT", "ISTYPE", "PUSHINT"],
        Text.equalsIgnoringCase op.name.toList mnemonic.toList = false := by
    decide +kernel
  rw [parseOperation]
  generalize Text.words part = ws at h
  cases h with
  | @simple op _ hsimple hword =>
    -- no simple opcode goes by a mnemonic that takes an operand
    have hother := hmnemonics op op.mem_all hsimple
    simp only [Text.equalsIgnoringCase_congr hword, hother, mem_cons, true_or, or_true,
      parseSimple, Opcode.ofName?_of_sameLetters hword, hsimple]
    rfl
  | convert hword h =>
    simp only [Text.equalsIgnoringCase_congr hword, parseItemType, ItemType.parse?_of_isText h]
    rfl
  | isType hword h =>
    simp only [Text.equalsIgnoringCase_congr hword, parseItemType, ItemType.parse?_of_isText h]
    rfl
  | pushInt n hword =>
    simp only [Text.equalsIgnoringCase_congr hword, parseInteger, Text.integer?_decimal]
    rfl

/-- The parts of a list of `Operation`s: each is blank, or the words of an operation with blanks
between and around them. -/
inductive ListText : List (List Char) → List Operation → Prop where
  | nil : ListText [] []
  | blank {part : List Char} {parts : List (List Char)} {ops : List Operation} :
    Blank part → ListText parts ops → ListText (part :: parts) ops
  | operation {before gap after : List Char} {ws parts : List (List Char)} {op : Operation}
    {ops : List Operation} :
    Blank before → Blank gap → gap ≠ [] → Blank after → op.IsText ws → ListText parts ops →
      ListText ((before ++ gap.intercalate ws ++ after) :: parts) (op :: ops)

theorem Text.not_mem_of_blank {cs : List Char} (h : Blank cs) : ';' ∉ cs :=
  fun hmem => absurd (h ';' hmem) (by decide)

theorem Text.not_mem_intercalate {gap : List Char} (hgap : Blank gap) {ws : List (List Char)}
    (hws : ∀ w ∈ ws, Solid w) : ';' ∉ gap.intercalate ws := by
  have hsolid : ∀ w, Solid w → ';' ∉ w := fun w hw hmem =>
    absurd (all_eq_true.mp hw.2 ';' hmem) (by decide)
  induction ws with
  | nil => exact not_mem_nil
  | cons w ws ih =>
    obtain ⟨hw, hws⟩ := forall_mem_cons.mp hws
    cases ws with
    | nil =>
      rw [intercalate_singleton]
      exact hsolid w hw
    | cons next ws =>
      rw [intercalate_cons_cons, mem_append, mem_append]
      rintro ((h | h) | h)
      · exact hsolid w hw h
      · exact not_mem_of_blank hgap h
      · exact ih hws h

namespace ListText

variable {parts : List (List Char)} {ops : List Operation}

theorem not_mem (h : ListText parts ops) : ∀ part ∈ parts, ';' ∉ part := by
  induction h with
  | nil => exact forall_mem_nil _
  | blank hblank _ ih => exact forall_mem_cons.mpr ⟨Text.not_mem_of_blank hblank, ih⟩
  | operation hbefore hgap _ hafter htext _ ih =>
    refine forall_mem_cons.mpr ⟨?_, ih⟩
    rw [mem_append, mem_append]
    rintro ((h | h) | h)
    · exact Text.not_mem_of_blank hbefore h
    · exact Text.not_mem_intercalate hgap htext.solid h
    · exact Text.not_mem_of_blank hafter h

/-- Every part that is not blank is read. -/
theorem mapM_parseOperation (h : ListText parts ops) :
    ((parts.map Text.trim).filter (!·.isEmpty)).mapM parseOperation = .ok ops := by
  induction h with
  | nil => rfl
  | blank hblank _ ih =>
    rw [map_cons, Text.trim_of_blank hblank, filter_cons_of_neg (by decide), ih]
  | @operation before gap after ws parts op ops hbefore hgap hne hafter htext _ ih =>
    have hwords := (Text.words_trim _).trans (Text.words_pad hbefore hgap hne hafter htext.solid)
    have hread := parseOperation_of_isText (hwords.symm ▸ htext)
    have hpart : Text.trim (before ++ gap.intercalate ws ++ after) ≠ [] := by
      intro hnil
      rw [hnil] at hread
      cases hread
    rw [map_cons, filter_cons_of_pos (by simpa using hpart), mapM_cons, hread, ih]
    rfl

/-- `parseOperations` reads a `ListText` back. -/
theorem parseOperations_eq (h : ListText parts ops) (hne : ops ≠ []) :
    parseOperations ([';'].intercalate parts) = .ok ops := by
  have hparts : parts ≠ [] := by
    rintro rfl
    cases h
    exact hne rfl
  have hsplit : Text.split (· == ';') ([';'].intercalate parts) = parts :=
    (Text.split_eq_splitOnP _ _).trans (splitOn_intercalate ';' h.not_mem hparts)
  rw [parseOperations, hsplit]
  show (List.mapM _ _ >>= _) = _
  rw [h.mapM_parseOperation]
  show (if ops.isEmpty then _ else _) = _
  rw [if_neg (by simpa using hne)]

end ListText

/-- What is read has a text. -/
theorem isText_of_parseOperation {part : List Char} (h : parseOperation part = .ok op) :
    ∃ ws, op.IsText ws := by
  rcases parseOperation_cases h with ⟨o, hsimple, rfl⟩ | ⟨ty, rfl⟩ | ⟨ty, rfl⟩ | ⟨n, rfl⟩
  · exact ⟨_, .simple hsimple rfl⟩
  · exact ⟨_, .convert rfl (.name rfl)⟩
  · exact ⟨_, .isType rfl (.name rfl)⟩
  · exact ⟨_, .pushInt n rfl⟩

/-! ## Code -/

/-- `pushIntOpcode` has an opcode for integers of up to 32 bytes. -/
theorem exists_pushIntOpcode_iff {v : Int} :
    (∃ op, pushIntOpcode v = .ok op) ↔ -2 ^ 255 ≤ v ∧ v < 2 ^ 255 := by
  rw [← fitsSigned_iff (n := 32) (by decide)]
  constructor
  · rintro ⟨op, hop⟩
    by_contra hno
    rw [pushIntOpcode_of_tooLarge hno] at hop
    cases hop
  · intro hfits
    by_cases hsmall : -1 ≤ v ∧ v ≤ 16
    · obtain ⟨op, hop, -⟩ := pushIntOpcode_of_small hsmall
      exact ⟨op, hop⟩
    · obtain ⟨op, hop, -⟩ := pushIntOpcode_of_large hsmall hfits
      exact ⟨op, hop⟩

/-- An operation that has a text has a size and an instruction, apart from the integers of more than
32 bytes. -/
theorem Operation.IsText.encodable {ws : List (List Char)} (h : op.IsText ws) (t : Targets)
    (a : Nat) (form : Form) (hrange : ∀ v, op = .pushInt v → -2 ^ 255 ≤ v ∧ v < 2 ^ 255) :
    (∃ n, op.size form = .ok n) ∧ ∃ i, op.instruction t a form = .ok (some i) := by
  cases h with
  | simple hsimple => exact ⟨⟨_, rfl⟩, _, by rw [instruction, if_pos hsimple]; rfl⟩
  | convert => exact ⟨⟨_, rfl⟩, _, rfl⟩
  | isType => exact ⟨⟨_, rfl⟩, _, rfl⟩
  | pushInt v =>
    obtain ⟨op, hop⟩ := exists_pushIntOpcode_iff.mpr (hrange v rfl)
    exact ⟨⟨_, by rw [size, hop]⟩, _, by rw [instruction, hop]; rfl⟩

/-- A function of operations that have texts is laid out and encoded, wherever it stands and
whatever else there is, unless it pushes an integer of more than 32 bytes. -/
theorem encodeChunk_iff_of_isText {c : Chunk}
    (h : ∀ cell ∈ c.cells, ∃ ws, cell.op.operation.IsText ws) (start : Nat)
    (starts : List Nat) (count : Nat) :
    ((placeCells c.name start c.cells).fault = none ∧ ∃ code,
      encodeChunk starts count c start (placeCells c.name start c.cells) = .ok code) ↔
    ∀ v, .pushInt v ∈ c.cells.map (·.op.operation) → -2 ^ 255 ≤ v ∧ v < 2 ^ 255 := by
  constructor
  · rintro ⟨hfault, -⟩ v hv
    obtain ⟨cell, hcell, hop⟩ := mem_map.mp hv
    have hsize := sized_of_placeCells c.name start hfault cell hcell
    rw [Cell.size, hop, Operation.size] at hsize
    refine exists_pushIntOpcode_iff.mp ?_
    cases hpush : pushIntOpcode v with
    | ok op => exact ⟨op, rfl⟩
    | error e =>
      rw [hpush] at hsize
      cases hsize
  · intro hrange
    have hcells : ∀ cell ∈ c.cells, ∀ t a, (∃ n, cell.size = .ok n) ∧
        ∃ i, cell.op.operation.instruction t a cell.form = .ok (some i) := by
      intro cell hcell t a
      obtain ⟨_, htext⟩ := h cell hcell
      exact htext.encodable t a cell.form fun v hv =>
        hrange v (mem_map.mpr ⟨cell, hcell, hv⟩)
    have hsized : Sized c.cells := by
      intro cell hcell
      obtain ⟨⟨n, hn⟩, -⟩ := hcells cell hcell ⟨[], [], 0⟩ 0
      rw [hn, Cell.width_of_size hn]
    rw [placeCells_of_sized c.name start hsized]
    refine ⟨rfl, ?_⟩
    cases hcode : encodeCells ⟨labelsFrom start c.cells, starts, count⟩ c.name
        (addressesFrom start c.cells) c.cells with
    | ok bytes => exact ⟨_, encodeChunk_eq_ok_iff.mpr ⟨bytes, hcode, rfl⟩⟩
    | error e =>
      obtain ⟨before, cell, after, _, _, heq, -, hbytes, -⟩ := encodeCells_eq_error_iff.mp hcode
      obtain ⟨-, i, hi⟩ := hcells cell (heq ▸ mem_append_right before mem_cons_self) _ _
      rw [Cell.bytes_eq_ok_iff.mpr (.inr ⟨i, hi, rfl⟩)] at hbytes
      cases hbytes

/-- `parseOperations` reads every `ListText` back, however it is written. What it reads from any
payload is a list of at least one operation that has a text. As a function it is laid out and
encoded, wherever it stands and whatever else there is, exactly if the integers that it pushes fit
into 32 bytes. -/
theorem operation_texts_parse :
    (∀ parts ops, ListText parts ops → ops ≠ [] →
      parseOperations ([';'].intercalate parts) = .ok ops) ∧
    ∀ payload ops, parseOperations payload = .ok ops →
      ops ≠ [] ∧ (∀ op ∈ ops, ∃ ws, op.IsText ws) ∧
      ∀ (c : Chunk) (start : Nat) (starts : List Nat) (count : Nat),
        c.cells.map (·.op.operation) = ops →
          (((placeCells c.name start c.cells).fault = none ∧ ∃ code,
            encodeChunk starts count c start (placeCells c.name start c.cells) = .ok code) ↔
          ∀ v, .pushInt v ∈ ops → -2 ^ 255 ≤ v ∧ v < 2 ^ 255) := by
  refine ⟨fun parts ops h hne => h.parseOperations_eq hne, fun payload ops h => ?_⟩
  obtain ⟨hne, htexts⟩ := forall_of_parseOperations h fun _ _ => isText_of_parseOperation
  refine ⟨hne, htexts, ?_⟩
  rintro c start starts count rfl
  exact encodeChunk_iff_of_isText (fun cell hcell => htexts _ (mem_map_of_mem hcell)) start
    starts count

theorem operation_texts_parse_mixedCase :
    let ops : List Operation := [.simple .swap, .pushInt (-5), .convert .byteString]
    let c : Chunk := ⟨0, "mixed", ops.map fun op => ⟨⟨op, none⟩, .long⟩⟩
    parseOperations " ; Swap;pushInt -5; Convert 0X28 ".toList = .ok ops ∧
      ∃ code, encodeChunk [] 0 c 7 (placeCells c.name 7 c.cells) = .ok code := by
  intro ops c
  have hb : Blank [' '] := forall_mem_singleton.mpr rfl
  have hgap : [' '] ≠ [] := cons_ne_nil _ _
  have hconvert : (Operation.convert .byteString).IsText ["Convert".toList, "0X28".toList] :=
    .convert (by decide +kernel) (.hex 0 (.inr rfl) (by decide +kernel))
  have hpush : (Operation.pushInt (-5)).IsText ["pushInt".toList, (Text.decimal (-5)).toList] :=
    .pushInt (-5) (by decide +kernel)
  have hswap : (Operation.simple .swap).IsText ["Swap".toList] := .simple rfl (by decide +kernel)
  have hlist := ListText.blank hb <| .operation hb hb hgap (forall_mem_nil _) hswap <|
    .operation (forall_mem_nil _) hb hgap (forall_mem_nil _) hpush <|
    .operation hb hb hgap hb hconvert .nil
  have hparse : parseOperations " ; Swap;pushInt -5; Convert 0X28 ".toList = .ok ops := by
    refine Eq.trans (congrArg _ ?_) (operation_texts_parse.1 _ ops hlist (cons_ne_nil _ _))
    decide +kernel
  exact ⟨hparse, (((operation_texts_parse.2 _ _ hparse).2.2 c 7 [] 0 rfl).mpr (by simp [ops])).2⟩

end ContractScript
