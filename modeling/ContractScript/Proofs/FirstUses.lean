import Mathlib
import ContractScript.Machine.MethodToken

/-!
# First uses of methods

A table of tokens is filled by one addition after the other. It keeps the first use of each method,
in order and up to its capacity, and the index of a method is the place of that use. So an index
that was given out once stays good for all additions that follow.
-/

namespace ContractScript

open List

variable {key : MethodToken.Key} {t : TokenTable} {token : MethodToken} {i : Nat}

/-! ## Uses in order -/

/-- The uses whose method was not used before. -/
def firstUses : List MethodToken → List MethodToken
  | [] => []
  | token :: rest => token :: (firstUses rest).filter fun later => later.key ≠ token.key

/-- `firstUses` has every method that is used. -/
theorem mem_map_key_firstUses {uses : List MethodToken} :
    key ∈ (firstUses uses).map MethodToken.key ↔ key ∈ uses.map MethodToken.key := by
  induction uses with
  | nil => rfl
  | cons token rest ih =>
    simp only [mem_map] at ih
    by_cases hkey : key = token.key
    · simp [firstUses, hkey]
    · simp only [firstUses, map_cons, mem_cons, mem_map, mem_filter, hkey,
        false_or, ← ih, decide_eq_true_eq]
      constructor
      · rintro ⟨later, ⟨hlater, -⟩, heq⟩
        exact ⟨later, hlater, heq⟩
      · rintro ⟨later, hlater, rfl⟩
        exact ⟨later, ⟨hlater, hkey⟩, rfl⟩

/-- A last use is a first one if no use before it is of the same method. -/
theorem firstUses_concat (uses : List MethodToken) (token : MethodToken) :
    firstUses (uses ++ [token]) =
      firstUses uses ++ if token.key ∈ uses.map MethodToken.key then [] else [token] := by
  induction uses with
  | nil => rfl
  | cons first rest ih =>
    rw [cons_append, firstUses, firstUses, ih, filter_append, cons_append]
    by_cases hfirst : token.key = first.key <;>
      by_cases hrest : token.key ∈ rest.map MethodToken.key <;>
      simp [hfirst, hrest]

namespace TokenTable

/-! ## One addition -/

/-- `add` finds the method, finds the table full, or puts the token at the end. -/
theorem add_cases (t : TokenTable) (token : MethodToken) :
    (∃ i, t.index[token.key]? = some i ∧ t.add token = (some i, t)) ∨
    (t.index[token.key]? = none ∧ t.size = capacity ∧ t.add token = (none, t)) ∨
    (t.index[token.key]? = none ∧ t.size < capacity ∧ ∃ t', t.add token = (some t.size, t') ∧
      t'.tokens = t.tokens.push token ∧
      ∀ key, t'.index[key]? = if token.key = key then some t.size else t.index[key]?) := by
  unfold add
  split
  · next i hi => exact .inl ⟨i, hi, rfl⟩
  · next hnone =>
    split
    · next hlt =>
      refine .inr (.inr ⟨hnone, hlt, _, rfl, rfl, fun key => ?_⟩)
      simp only [Std.HashMap.getElem?_insert, beq_iff_eq, size]
    · next hfull =>
      have hsize : t.size = capacity := Nat.le_antisymm t.size_le (Nat.not_lt.mp hfull)
      exact .inr (.inl ⟨hnone, hsize, rfl⟩)

/-- The indices of a table are the places of the entries. -/
def Coherent (t : TokenTable) : Prop :=
  ∀ key i, t.index[key]? = some i ↔ ∃ token, t.get? i = some token ∧ token.key = key

theorem coherent_empty : empty.Coherent := by
  intro key i
  simp [empty, get?]

section

variable (h : t.Coherent)
include h

/-- A method without an index has no entry. -/
theorem Coherent.index_eq_none_iff :
    t.index[key]? = none ↔ ∀ entry ∈ t.tokens.toList, entry.key ≠ key := by
  constructor
  · intro hnone entry hentry heq
    obtain ⟨i, hi⟩ := getElem?_of_mem hentry
    rw [Array.getElem?_toList] at hi
    rw [(h key i).mpr ⟨entry, hi, heq⟩] at hnone
    cases hnone
  · intro hall
    cases hindex : t.index[key]? with
    | none => rfl
    | some i =>
      obtain ⟨entry, hget, heq⟩ := (h key i).mp hindex
      exact absurd heq (hall entry (Array.mem_toList_iff.mpr (Array.mem_of_getElem? hget)))

/-- No two entries are of one method. -/
theorem Coherent.nodup : (t.tokens.toList.map MethodToken.key).Nodup := by
  rw [nodup_iff_getElem?_ne_getElem?]
  intro i j hij hj heq
  rw [length_map, Array.length_toList] at hj
  simp only [getElem?_map, Array.getElem?_toList] at heq
  have hentry : t.get? j = some t.tokens[j] := Array.getElem?_eq_getElem hj
  have hentry' : t.get? i = some t.tokens[i] := Array.getElem?_eq_getElem (hij.trans hj)
  have hkeys : t.tokens[i].key = t.tokens[j].key := by
    simpa [Array.getElem?_eq_getElem hj, Array.getElem?_eq_getElem (hij.trans hj)] using heq
  have hindex := (h _ i).mpr ⟨_, hentry', hkeys⟩
  rw [(h _ j).mpr ⟨_, hentry, rfl⟩] at hindex
  cases hindex
  exact Nat.lt_irrefl _ hij

/-- `add` keeps a table `Coherent`. -/
theorem coherent_add (token : MethodToken) : (t.add token).2.Coherent := by
  rcases t.add_cases token with ⟨i, -, hadd⟩ | ⟨-, -, hadd⟩ | ⟨hnone, -, t', hadd, htokens, hindex⟩
  · rw [hadd]
    exact h
  · rw [hadd]
    exact h
  · rw [hadd]
    intro key i
    show t'.index[key]? = some i ↔ ∃ entry, t'.tokens[i]? = some entry ∧ entry.key = key
    rw [hindex, htokens]
    -- the new entry stands at the end, and no entry before it is of its method
    have hlt : ∀ {entry}, t.get? i = some entry → i ≠ t.tokens.size := by
      intro entry hentry
      exact Nat.ne_of_lt (Array.getElem?_eq_some_iff.mp hentry).1
    by_cases hkey : token.key = key
    · rw [if_pos hkey]
      constructor
      · intro hi
        cases hi
        exact ⟨token, Array.getElem?_push_size, hkey⟩
      · rintro ⟨entry, hentry, heq⟩
        rw [Array.getElem?_push] at hentry
        split at hentry
        · next hi => rw [hi, size]
        · have hindexed := (h key i).mpr ⟨entry, hentry, heq⟩
          rw [← hkey, hnone] at hindexed
          cases hindexed
    · rw [if_neg hkey, h key i]
      constructor
      · rintro ⟨entry, hentry, heq⟩
        refine ⟨entry, ?_, heq⟩
        rw [Array.getElem?_push, if_neg (hlt hentry)]
        exact hentry
      · rintro ⟨entry, hentry, heq⟩
        rw [Array.getElem?_push] at hentry
        split at hentry
        · cases hentry
          exact absurd heq hkey
        · exact ⟨entry, hentry, heq⟩

/-- An entry's method has its index, also in a table that is full. -/
theorem Coherent.add_known {entry : MethodToken} (hentry : t.get? i = some entry)
    (hkey : entry.key = token.key) : t.add token = (some i, t) := by
  have hindex := (h token.key i).mpr ⟨entry, hentry, hkey⟩
  rcases t.add_cases token with ⟨j, hj, hadd⟩ | ⟨hnone, -⟩ | ⟨hnone, -⟩
  · rw [hindex] at hj
    cases hj
    exact hadd
  · rw [hindex] at hnone
    cases hnone
  · rw [hindex] at hnone
    cases hnone

/-- `add` fails for a new method in a full table only. -/
theorem Coherent.add_eq_none_iff (token : MethodToken) : (t.add token).1 = none ↔
      (∀ entry ∈ t.tokens.toList, entry.key ≠ token.key) ∧ t.size = capacity := by
  rw [← h.index_eq_none_iff]
  rcases t.add_cases token with ⟨i, hi, hadd⟩ | ⟨hnone, hfull, hadd⟩ | ⟨hnone, hlt, t', hadd, -⟩
  · simp [hadd, hi]
  · simp [hadd, hnone, hfull]
  · simp [hadd, hnone, Nat.ne_of_lt hlt]

end

theorem add_snd_of_none (h : (t.add token).1 = none) : (t.add token).2 = t := by
  rcases t.add_cases token with ⟨i, -, hadd⟩ | ⟨-, -, hadd⟩ | ⟨-, -, t', hadd, -⟩
  · rw [hadd]
  · rw [hadd]
  · rw [hadd] at h
    cases h

/-- A new method goes to the end of a table that has room. -/
theorem Coherent.add_new (h : t.Coherent)
    (hnew : ∀ entry ∈ t.tokens.toList, entry.key ≠ token.key) (hroom : t.size < capacity) :
    (t.add token).1 = some t.size ∧ (t.add token).2.tokens = t.tokens.push token := by
  rw [← h.index_eq_none_iff] at hnew
  rcases t.add_cases token with ⟨i, hi, -⟩ | ⟨-, hfull, -⟩ | ⟨-, -, t', hadd, htokens, -⟩
  · rw [hnew] at hi
    cases hi
  · exact absurd hfull (Nat.ne_of_lt hroom)
  · rw [hadd]
    exact ⟨rfl, htokens⟩

/-- `add` leaves the entries where they are. -/
theorem isPrefix_add (t : TokenTable) (token : MethodToken) :
    t.tokens.toList <+: (t.add token).2.tokens.toList := by
  rcases t.add_cases token with ⟨i, -, hadd⟩ | ⟨-, -, hadd⟩ | ⟨-, -, t', hadd, htokens, -⟩
  · rw [hadd]
  · rw [hadd]
  · rw [hadd, htokens, Array.toList_push]
    exact prefix_append _ _

/-- The index that `add` gives is the place of an entry for the method. -/
theorem Coherent.get?_of_add (h : t.Coherent) (hadd : (t.add token).1 = some i) :
    ∃ entry, (t.add token).2.get? i = some entry ∧ entry.key = token.key := by
  rcases t.add_cases token with ⟨j, hj, heq⟩ | ⟨-, -, heq⟩ | ⟨-, -, t', heq, htokens, -⟩
  · rw [heq] at hadd ⊢
    cases hadd
    exact (h token.key i).mp hj
  · rw [heq] at hadd
    cases hadd
  · rw [heq] at hadd ⊢
    cases hadd
    refine ⟨token, ?_, rfl⟩
    rw [get?, htokens]
    exact Array.getElem?_push_size

/-! ## Sequences of additions -/

section

variable (uses : List MethodToken)

theorem ofList_concat (token : MethodToken) :
    ofList (uses ++ [token]) = ((ofList uses).add token).2 := by
  simp [ofList]

/-- Tables are `Coherent` after any additions. -/
theorem coherent_ofList : (ofList uses).Coherent := by
  induction uses using List.reverseRecOn with
  | nil => exact coherent_empty
  | append_singleton uses token ih =>
    rw [ofList_concat]
    exact coherent_add ih token

/-- `ofList` holds the `firstUses`, as far as there is room for them. -/
theorem toList_ofList : (ofList uses).tokens.toList = (firstUses uses).take capacity := by
  induction uses using List.reverseRecOn with
  | nil => rfl
  | append_singleton uses token ih =>
    have hcoherent := coherent_ofList uses
    have hsize : (ofList uses).size = min capacity (firstUses uses).length := by
      rw [size, ← Array.length_toList, ih, length_take]
    rw [ofList_concat, firstUses_concat]
    rcases (ofList uses).add_cases token with
      ⟨i, hi, hadd⟩ | ⟨-, hfull, hadd⟩ | ⟨hnone, hroom, t', hadd, htokens, -⟩
    · -- the entry that was found is a use of the method
      obtain ⟨entry, hget, hkey⟩ := (hcoherent token.key i).mp hi
      have hmem : entry ∈ (ofList uses).tokens.toList :=
        Array.mem_toList_iff.mpr (Array.mem_of_getElem? hget)
      rw [ih] at hmem
      have hknown : token.key ∈ uses.map MethodToken.key := by
        rw [← mem_map_key_firstUses, ← hkey]
        exact mem_map_of_mem (mem_of_mem_take hmem)
      rw [hadd, ih, if_pos hknown, append_nil]
    · have hlength : capacity ≤ (firstUses uses).length := by omega
      rw [hadd, ih, take_append_of_le_length hlength]
    · -- with room left all first uses are in the table, and the method is not
      have hlength : (firstUses uses).length < capacity := by omega
      have htake : (ofList uses).tokens.toList = firstUses uses := by
        rw [ih, take_of_length_le (Nat.le_of_lt hlength)]
      have hunknown : token.key ∉ uses.map MethodToken.key := by
        rw [← mem_map_key_firstUses, ← htake, mem_map]
        rintro ⟨entry, hentry, hkey⟩
        exact hcoherent.index_eq_none_iff.mp hnone entry hentry hkey
      rw [hadd, htokens, Array.toList_push, htake, if_neg hunknown, take_of_length_le]
      rw [length_append, length_singleton]
      exact hlength

end

/-- Entries stay where they are under all additions that follow. -/
theorem isPrefix_ofList (uses more : List MethodToken) :
    (ofList uses).tokens.toList <+: (ofList (uses ++ more)).tokens.toList := by
  induction more using List.reverseRecOn with
  | nil => rw [append_nil]
  | append_singleton more token ih =>
    rw [← append_assoc, ofList_concat]
    exact ih.trans (isPrefix_add _ token)

end TokenTable

/-! ## Tables -/

open TokenTable in
/-- After any sequence of additions to the empty table (`ofList`), the index of a method is the
place of its entry, no two entries are of one method, and there are as many as 16-bit indices can
tell apart at most. The entries are the `firstUses` in order, and further additions put theirs
behind them, so an index stays with its entry. The index of a known method is found also in a full
table; `add` fails for a new method in a full table only, and leaves it as it is. -/
theorem table_holds_first_uses (uses : List MethodToken) :
    (∀ key i, (ofList uses).index[key]? = some i ↔
      ∃ token, (ofList uses).get? i = some token ∧ token.key = key) ∧
    ((ofList uses).tokens.toList.map MethodToken.key).Nodup ∧
    (ofList uses).size ≤ 65536 ∧
    (ofList uses).tokens.toList = (firstUses uses).take 65536 ∧
    (∀ more, (ofList uses).tokens.toList <+: (ofList (uses ++ more)).tokens.toList) ∧
    (∀ token i, ((ofList uses).add token).1 = some i → ∃ entry, entry.key = token.key ∧
      ∀ more, (ofList (uses ++ token :: more)).get? i = some entry) ∧
    (∀ token entry i, (ofList uses).get? i = some entry → entry.key = token.key →
      (ofList uses).add token = (some i, ofList uses)) ∧
    (∀ token, (∀ entry ∈ (ofList uses).tokens.toList, entry.key ≠ token.key) →
      (ofList uses).size < 65536 → ((ofList uses).add token).1 = some (ofList uses).size ∧
        ((ofList uses).add token).2.tokens = (ofList uses).tokens.push token) ∧
    (∀ token, ((ofList uses).add token).1 = none ↔
      (∀ entry ∈ (ofList uses).tokens.toList, entry.key ≠ token.key) ∧
        (ofList uses).size = 65536) ∧
    ∀ token, ((ofList uses).add token).1 = none → ((ofList uses).add token).2 = ofList uses := by
  have hcoherent := coherent_ofList uses
  refine ⟨hcoherent, hcoherent.nodup, (ofList uses).size_le, toList_ofList uses,
    isPrefix_ofList uses, ?_, fun token entry i => hcoherent.add_known,
    fun token => hcoherent.add_new, hcoherent.add_eq_none_iff, fun token => add_snd_of_none⟩
  intro token i hadd
  obtain ⟨entry, hentry, hkey⟩ := hcoherent.get?_of_add hadd
  refine ⟨entry, hkey, fun more => ?_⟩
  obtain ⟨rest, hlater⟩ := isPrefix_ofList (uses ++ [token]) more
  rw [ofList_concat, append_assoc, singleton_append] at hlater
  rw [get?, ← Array.getElem?_toList] at hentry ⊢
  rw [← hlater, getElem?_append_left (List.getElem?_eq_some_iff.mp hentry).1]
  exact hentry

end ContractScript
