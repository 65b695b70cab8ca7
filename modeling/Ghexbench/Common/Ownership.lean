import Mathlib.Data.List.Count
import Mathlib.Data.List.Nodup
import Mathlib.Data.Nat.Notation
import Mathlib.Logic.Function.Basic

/-!
# Ownership of handles

Handles are numbered in the order in which they are obtained. A ledger says who owns which of them and
which have been freed. As long as handles are only obtained, handed over and freed by their owners, every
handle has one owner or has been freed once.
-/

namespace Ghexbench.Common

/-- The owners of handles, the number of handles that have been obtained, and what has been freed, where
`none` is a value that is not a handle. -/
structure Ledger (ι : Type*) where
  owned : ι → Option ℕ
  obtained : ℕ
  freed : List (Option ℕ)

namespace Ledger

variable {ι : Type*}

/-- No handle has been obtained. -/
def empty : Ledger ι := ⟨fun _ => none, 0, []⟩

/-- Every handle has one owner or has been freed once. -/
structure Sound (l : Ledger ι) : Prop where
  lt_of_owned : ∀ i t, l.owned i = some t → t < l.obtained
  owned_inj : ∀ i j t, l.owned i = some t → l.owned j = some t → i = j
  of_freed : ∀ x ∈ l.freed, ∃ t < l.obtained, x = some t
  nodup : l.freed.Nodup
  not_freed : ∀ i t, l.owned i = some t → some t ∉ l.freed
  covered : ∀ t < l.obtained, some t ∈ l.freed ∨ ∃ i, l.owned i = some t

/-- At the start. -/
theorem sound_empty : (empty : Ledger ι).Sound := by
  constructor <;> simp [empty]

variable {l : Ledger ι}

/-- Without owners every handle has been freed once. -/
theorem Sound.count_freed (h : l.Sound) (hnone : ∀ i, l.owned i = none) {t : ℕ} (ht : t < l.obtained) :
    l.freed.count (some t) = 1 := by
  apply List.count_eq_one_of_mem h.nodup
  apply (h.covered t ht).resolve_right
  rintro ⟨i, hi⟩
  cases (hnone i).symm.trans hi

variable [DecidableEq ι]

/-- Obtain a handle. -/
def acquire (l : Ledger ι) (i : ι) : Ledger ι where
  owned := Function.update l.owned i (some l.obtained)
  obtained := l.obtained + 1
  freed := l.freed

/-- Free the handle of an owner. -/
def release (l : Ledger ι) (i : ι) : Ledger ι where
  owned := Function.update l.owned i none
  obtained := l.obtained
  freed := l.freed ++ [l.owned i]

/-- Hand over what `i` owns. -/
def transfer (l : Ledger ι) (i j : ι) : Ledger ι where
  owned := Function.update (Function.update l.owned i none) j (l.owned i)
  obtained := l.obtained
  freed := l.freed

variable {i j k : ι} {t : ℕ}

/-- Who owns a handle after one has been obtained. -/
theorem owned_acquire : (l.acquire i).owned k = some t ↔
    (k = i ∧ t = l.obtained) ∨ (k ≠ i ∧ l.owned k = some t) := by
  by_cases hk : k = i <;> simp [acquire, hk, eq_comm]

/-- Who owns a handle after one has been freed. -/
theorem owned_release : (l.release i).owned k = some t ↔ k ≠ i ∧ l.owned k = some t := by
  by_cases hk : k = i <;> simp [release, hk]

/-- Who owns a handle after one has been handed over. -/
theorem owned_transfer : (l.transfer i j).owned k = some t ↔
    (k = j ∧ l.owned i = some t) ∨ (k ≠ j ∧ k ≠ i ∧ l.owned k = some t) := by
  by_cases hj : k = j
  · simp [transfer, hj]
  · by_cases hi : k = i
    · subst hi
      simp [transfer, hj]
    · simp [transfer, hj, hi]

/-- A handle that is freed as soon as it has been obtained. -/
theorem release_acquire (hi : l.owned i = none) :
    (l.acquire i).release i = ⟨l.owned, l.obtained + 1, l.freed ++ [some l.obtained]⟩ := by
  simp only [release, acquire, Function.update_self, Function.update_idem, mk.injEq, and_true]
  rw [← hi, Function.update_eq_self]

/-- A new handle has a new number. -/
theorem Sound.acquire (h : l.Sound) (hi : l.owned i = none) : (l.acquire i).Sound := by
  have hnew (k : ι) : l.owned k ≠ some l.obtained := fun hk => Nat.lt_irrefl _ (h.lt_of_owned k _ hk)
  constructor
  case lt_of_owned =>
    intro k t hk
    rcases owned_acquire.mp hk with ⟨-, rfl⟩ | ⟨-, hk⟩
    · exact Nat.lt_succ_self _
    · exact Nat.lt_succ_of_lt (h.lt_of_owned k t hk)
  case owned_inj =>
    intro k k' t hk hk'
    rcases owned_acquire.mp hk with ⟨rfl, rfl⟩ | ⟨-, hk⟩
    · rcases owned_acquire.mp hk' with ⟨rfl, -⟩ | ⟨-, hk'⟩
      · rfl
      · exact absurd hk' (hnew k')
    · rcases owned_acquire.mp hk' with ⟨-, rfl⟩ | ⟨-, hk'⟩
      · exact absurd hk (hnew k)
      · exact h.owned_inj k k' t hk hk'
  case of_freed =>
    intro x hx
    obtain ⟨t, ht, rfl⟩ := h.of_freed x hx
    exact ⟨t, Nat.lt_succ_of_lt ht, rfl⟩
  case nodup =>
    exact h.nodup
  case not_freed =>
    intro k t hk
    rcases owned_acquire.mp hk with ⟨-, rfl⟩ | ⟨-, hk⟩
    · intro hfreed
      obtain ⟨t, ht, heq⟩ := h.of_freed _ hfreed
      exact Nat.lt_irrefl _ (Option.some.inj heq ▸ ht)
    · exact h.not_freed k t hk
  case covered =>
    intro t ht
    cases Nat.lt_succ_iff_lt_or_eq.mp ht with
    | inl hlt =>
      apply (h.covered t hlt).imp_right
      rintro ⟨k, hk⟩
      have hne : k ≠ i := by
        rintro rfl
        cases hi.symm.trans hk
      exact ⟨k, owned_acquire.mpr (Or.inr ⟨hne, hk⟩)⟩
    | inr heq => exact Or.inr ⟨i, owned_acquire.mpr (Or.inl ⟨rfl, heq⟩)⟩

/-- The owner of a handle frees it. -/
theorem Sound.release (h : l.Sound) (hi : l.owned i = some t) : (l.release i).Sound := by
  have hfreed : (l.release i).freed = l.freed ++ [some t] := congrArg (fun x => l.freed ++ [x]) hi
  constructor
  case lt_of_owned =>
    intro k t' hk
    exact h.lt_of_owned k t' (owned_release.mp hk).2
  case owned_inj =>
    intro k k' t' hk hk'
    exact h.owned_inj k k' t' (owned_release.mp hk).2 (owned_release.mp hk').2
  case of_freed =>
    intro x hx
    rw [hfreed] at hx
    cases List.mem_append.mp hx with
    | inl hold => exact h.of_freed x hold
    | inr hlast => exact ⟨t, h.lt_of_owned i t hi, List.mem_singleton.mp hlast⟩
  case nodup =>
    rw [hfreed]
    refine h.nodup.append (List.nodup_singleton _) ?_
    rw [List.disjoint_singleton]
    exact h.not_freed i t hi
  case not_freed =>
    intro k t' hk
    obtain ⟨hne, hk⟩ := owned_release.mp hk
    rw [hfreed, List.mem_append, List.mem_singleton]
    rintro (hold | hlast)
    · exact h.not_freed k t' hk hold
    · exact hne (h.owned_inj k i t (Option.some.inj hlast ▸ hk) hi)
  case covered =>
    intro t' ht'
    rw [hfreed, List.mem_append, List.mem_singleton]
    rcases h.covered t' ht' with hold | ⟨k, hk⟩
    · exact Or.inl (Or.inl hold)
    · by_cases hki : k = i
      · rw [hki] at hk
        exact Or.inl (Or.inr (hk.symm.trans hi))
      · exact Or.inr ⟨k, owned_release.mpr ⟨hki, hk⟩⟩

/-- A handle changes its owner. -/
theorem Sound.transfer (h : l.Sound) (hj : l.owned j = none) : (l.transfer i j).Sound := by
  have hold {k : ι} {t : ℕ} (hk : (l.transfer i j).owned k = some t) :
      ∃ k', l.owned k' = some t ∧ (k' = i ∧ k = j ∨ k' ≠ i ∧ k' = k) := by
    rcases owned_transfer.mp hk with ⟨rfl, hi⟩ | ⟨-, hne, hk⟩
    · exact ⟨i, hi, Or.inl ⟨rfl, rfl⟩⟩
    · exact ⟨k, hk, Or.inr ⟨hne, rfl⟩⟩
  constructor
  case lt_of_owned =>
    intro k t hk
    obtain ⟨k', hk', -⟩ := hold hk
    exact h.lt_of_owned k' t hk'
  case owned_inj =>
    intro k₁ k₂ t hk₁ hk₂
    obtain ⟨k₁', hk₁', hcase₁⟩ := hold hk₁
    obtain ⟨k₂', hk₂', hcase₂⟩ := hold hk₂
    obtain rfl := h.owned_inj k₁' k₂' t hk₁' hk₂'
    rcases hcase₁ with ⟨rfl, rfl⟩ | ⟨hne, rfl⟩
    · rcases hcase₂ with ⟨-, rfl⟩ | ⟨hne, -⟩
      · rfl
      · exact absurd rfl hne
    · rcases hcase₂ with ⟨rfl, -⟩ | ⟨-, rfl⟩
      · exact absurd rfl hne
      · rfl
  case of_freed =>
    exact h.of_freed
  case nodup =>
    exact h.nodup
  case not_freed =>
    intro k t hk
    obtain ⟨k', hk', -⟩ := hold hk
    exact h.not_freed k' t hk'
  case covered =>
    intro t ht
    apply (h.covered t ht).imp_right
    rintro ⟨k, hk⟩
    by_cases hki : k = i
    · exact ⟨j, owned_transfer.mpr (Or.inl ⟨rfl, hki ▸ hk⟩)⟩
    · have hkj : k ≠ j := by
        rintro rfl
        cases hj.symm.trans hk
      exact ⟨k, owned_transfer.mpr (Or.inr ⟨hkj, hki, hk⟩)⟩

end Ledger

end Ghexbench.Common
