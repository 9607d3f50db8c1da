import Mathlib.Data.List.Forall2

/-!
# Steps that may fail

How a composed step can end: it succeeds if every part of it does.
-/

namespace ContractScript

open List

variable {ε α β : Type}

/-- `>>=` succeeds if both steps do. -/
theorem bind_eq_ok {x : Except ε α} {f : α → Except ε β} {b : β} :
    (x >>= f) = .ok b ↔ ∃ a, x = .ok a ∧ f a = .ok b := by
  cases x with
  | error e => simp [bind, Except.bind]
  | ok a => simp [bind, Except.bind]

/-- `>>=` fails with the first fault. -/
theorem bind_eq_error {x : Except ε α} {f : α → Except ε β} {e : ε} :
    (x >>= f) = .error e ↔ x = .error e ∨ ∃ a, x = .ok a ∧ f a = .error e := by
  cases x with
  | error e' => simp [bind, Except.bind]
  | ok a => simp [bind, Except.bind]

theorem map_eq_ok {x : Except ε α} {f : α → β} {b : β} :
    (f <$> x) = .ok b ↔ ∃ a, x = .ok a ∧ f a = b := by
  cases x with
  | error e => simp [Functor.map, Except.map]
  | ok a => simp [Functor.map, Except.map]

/-- `mapM` succeeds if the step does for every element, and yields the results in order. -/
theorem mapM_eq_ok_iff {f : α → Except ε β} :
    ∀ {xs : List α} {ys : List β},
      xs.mapM f = .ok ys ↔ List.Forall₂ (fun x y => f x = .ok y) xs ys
  | [], ys => by
    rw [mapM_nil, forall₂_nil_left_iff]
    exact ⟨fun h => (Except.ok.inj h).symm, fun h => h ▸ rfl⟩
  | x :: xs, ys => by
    rw [mapM_cons, forall₂_cons_left_iff]
    simp only [bind_eq_ok, mapM_eq_ok_iff]
    constructor
    · rintro ⟨y, hy, ys', hys, h⟩
      exact ⟨y, ys', hy, hys, (Except.ok.inj h).symm⟩
    · rintro ⟨y, ys', hy, hys, rfl⟩
      exact ⟨y, hy, ys', hys, rfl⟩

theorem exists_mapM_eq_ok {f : α → Except ε β} :
    ∀ {xs : List α}, (∀ x ∈ xs, ∃ y, f x = .ok y) → ∃ ys, xs.mapM f = .ok ys
  | [], _ => ⟨[], rfl⟩
  | x :: xs, h => by
    obtain ⟨y, hy⟩ := h x mem_cons_self
    obtain ⟨ys, hys⟩ := exists_mapM_eq_ok fun x' hx' => h x' (mem_cons_of_mem x hx')
    exact ⟨y :: ys, mapM_eq_ok_iff.mpr (.cons hy (mapM_eq_ok_iff.mp hys))⟩

/-- `forM` succeeds exactly if the check does for every element. -/
theorem forM_eq_ok_iff {f : α → Except ε Unit} :
    ∀ {xs : List α}, xs.forM f = .ok () ↔ ∀ x ∈ xs, f x = .ok ()
  | [] => ⟨nofun, fun _ => rfl⟩
  | x :: xs => by
    show (f x >>= fun _ => xs.forM f) = .ok () ↔ _
    rw [bind_eq_ok]
    simp only [forM_eq_ok_iff, mem_cons, forall_eq_or_imp]
    exact ⟨fun ⟨_, hx, hxs⟩ => ⟨hx, hxs⟩, fun ⟨hx, hxs⟩ => ⟨(), hx, hxs⟩⟩

/-- `Forall₂` relates lists that are related at every index. -/
theorem forall₂_iff_getElem? {R : α → β → Prop} : ∀ {xs : List α} {ys : List β},
    List.Forall₂ R xs ys ↔
      xs.length = ys.length ∧ ∀ (k : Nat) x y, xs[k]? = some x → ys[k]? = some y → R x y
  | [], [] => ⟨fun _ => ⟨rfl, nofun⟩, fun _ => .nil⟩
  | [], _ :: _ => ⟨nofun, fun h => (nomatch h.1)⟩
  | _ :: _, [] => ⟨nofun, fun h => (nomatch h.1)⟩
  | x :: xs, y :: ys => by
    rw [forall₂_cons, forall₂_iff_getElem?]
    constructor
    · rintro ⟨hxy, hlen, hrest⟩
      refine ⟨congrArg Nat.succ hlen, fun k x' y' hx hy => ?_⟩
      cases k with
      | zero =>
        cases hx
        cases hy
        exact hxy
      | succ k => exact hrest k x' y' hx hy
    · rintro ⟨hlen, hall⟩
      exact ⟨hall 0 x y rfl rfl, Nat.succ.inj hlen, fun k x' y' hx hy => hall (k + 1) x' y' hx hy⟩

theorem exists_getElem? {xs : List α} {ys : List β} (h : xs.length = ys.length) {k : Nat} {y : β}
    (hy : ys[k]? = some y) : ∃ x, xs[k]? = some x :=
  ⟨_, getElem?_eq_getElem (h ▸ (List.getElem?_eq_some_iff.mp hy).1)⟩

/-- Lists that agree at every index have one length. -/
theorem length_eq_of_getElem? {xs : List α} {ys : List β} {f : Nat → β → α}
    (h : ∀ k : Nat, xs[k]? = ys[k]?.map (f k)) : xs.length = ys.length := by
  have hle : ∀ k, xs.length ≤ k ↔ ys.length ≤ k := by
    intro k
    rw [← List.getElem?_eq_none_iff, ← List.getElem?_eq_none_iff, h k, Option.map_eq_none_iff]
  exact Nat.le_antisymm ((hle _).mpr (Nat.le_refl _)) ((hle _).mp (Nat.le_refl _))

theorem exists_of_mem_left {R : α → β → Prop} {xs : List α} {ys : List β}
    (h : List.Forall₂ R xs ys) {x : α} (hx : x ∈ xs) : ∃ y ∈ ys, R x y := by
  induction h with
  | nil => cases hx
  | cons hxy _ ih =>
    rcases mem_cons.mp hx with rfl | hx
    · exact ⟨_, mem_cons_self, hxy⟩
    · obtain ⟨y, hy, hr⟩ := ih hx
      exact ⟨y, mem_cons_of_mem _ hy, hr⟩

/-- Lists that are related to the elements of a third are related to each other. -/
theorem forall₂_comp {γ : Type} {R : α → β → Prop} {S : β → γ → Prop} {T : α → γ → Prop}
    (h : ∀ x y z, R x y → S y z → T x z) : ∀ {xs : List α} {ys : List β} {zs : List γ},
      List.Forall₂ R xs ys → List.Forall₂ S ys zs → List.Forall₂ T xs zs
  | [], [], [], .nil, .nil => .nil
  | x :: _, y :: _, z :: _, .cons hxy hxys, .cons hyz hyzs =>
    .cons (h x y z hxy hyz) (forall₂_comp h hxys hyzs)

end ContractScript
