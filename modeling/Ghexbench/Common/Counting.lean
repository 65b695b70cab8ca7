import Mathlib.Algebra.BigOperators.Group.Finset.Piecewise
import Mathlib.Data.Finset.Card
import Mathlib.Data.Fintype.Card

/-!
# Counting the components in a given situation

The state of many identical components is a function on a finite index type, and a step
updates it at one index. These lemmas say how the number of components that satisfy a
predicate changes, so that shared counters can be related to program points.

`Tally` is the invariant of a rendezvous in which the component that completes the count is
singled out to end it.
-/

namespace Ghexbench.Common

variable {ι α : Type*} [Fintype ι] (P : α → Prop) [DecidablePred P]

/-- The number of components whose local state satisfies `P`. -/
def countOf (f : ι → α) : ℕ := (Finset.univ.filter fun i => P (f i)).card

/-- There are at most as many as there are components. -/
theorem countOf_le (f : ι → α) : countOf P f ≤ Fintype.card ι := Finset.card_filter_le _ _

/-- All components count exactly when every one satisfies the predicate. -/
theorem countOf_eq_card_iff (f : ι → α) : countOf P f = Fintype.card ι ↔ ∀ i, P (f i) := by
  rw [countOf, ← Finset.card_univ, Finset.card_filter_eq_iff]
  simp

/-- No component counts exactly when none satisfies the predicate. -/
theorem countOf_eq_zero_iff (f : ι → α) : countOf P f = 0 ↔ ∀ i, ¬ P (f i) := by
  rw [countOf, Finset.card_eq_zero, Finset.filter_eq_empty_iff]
  simp

/-- Some component is outside as soon as the count is not full. -/
theorem exists_not_of_countOf_lt (f : ι → α) (h : countOf P f < Fintype.card ι) :
    ∃ i, ¬ P (f i) := by
  by_contra hall
  push Not at hall
  exact absurd ((countOf_eq_card_iff P f).mpr hall) h.ne

variable [DecidableEq ι]

/-- An update between two situations of the same kind leaves the count unchanged. -/
theorem countOf_update_same (f : ι → α) (i : ι) (v : α) (h : P v ↔ P (f i)) :
    countOf P (Function.update f i v) = countOf P f := by
  unfold countOf
  congr 1
  apply Finset.ext
  intro j
  by_cases hj : j = i
  · subst hj; simp [h]
  · simp [Function.update_of_ne hj]

/-- A component that starts to satisfy the predicate adds one. -/
theorem countOf_update_enter (f : ι → α) (i : ι) (v : α) (hi : ¬ P (f i)) (hv : P v) :
    countOf P (Function.update f i v) = countOf P f + 1 := by
  have hset : (Finset.univ.filter fun j => P (Function.update f i v j)) =
      insert i (Finset.univ.filter fun j => P (f j)) := by
    apply Finset.ext
    intro j
    by_cases hj : j = i
    · subst hj; simp [hv]
    · simp [hj]
  rw [countOf, hset, Finset.card_insert_of_notMem (by simpa using hi), countOf]

/-- Arrivals at a rendezvous: `P` holds of the components that have arrived and `L` of the one
that completed the count. -/
structure Tally (L : α → Prop) (f : ι → α) : Prop where
  last : ∀ i, L (f i) → ∀ j, j ≠ i → P (f j) ∧ ¬ L (f j)
  full : countOf P f = Fintype.card ι → ∃ i, L (f i)

namespace Tally

variable {P} {L : α → Prop} {f : ι → α} {i : ι} {v : α}

omit [DecidableEq ι] in
/-- As long as somebody is missing the count is not complete. -/
theorem not_last (h : Tally P L f) (hL : ∀ a, L a → P a) (hi : ¬ P (f i)) (j : ι) : ¬ L (f j) := by
  intro hj
  by_cases hij : i = j
  · subst hij
    exact hi (hL _ hj)
  · exact hi (h.last j hj i hij).1

omit [DecidableEq ι] in
/-- Nobody has arrived yet. -/
theorem empty [Nonempty ι] (hL : ∀ a, L a → P a) (hnone : ∀ i, ¬ P (f i)) : Tally P L f where
  last i hi := absurd (hL _ hi) (hnone i)
  full hfull := by
    rw [(countOf_eq_zero_iff P f).mpr hnone] at hfull
    exact absurd hfull Fintype.card_ne_zero.symm

/-- A component that has not arrived may move as long as it does not arrive. -/
theorem move (h : Tally P L f) (hL : ∀ a, L a → P a) (hi : ¬ P (f i)) (hv : ¬ P v) :
    Tally P L (Function.update f i v) := by
  have hnone (j : ι) : ¬ L (Function.update f i v j) := by
    by_cases hji : j = i
    · subst hji
      rw [Function.update_self]
      exact fun hj => hv (hL _ hj)
    · rw [Function.update_of_ne hji]
      exact h.not_last hL hi j
  refine ⟨fun j hj => absurd hj (hnone j), fun hfull => ?_⟩
  rw [countOf_update_same P f i v (iff_of_false hv hi)] at hfull
  obtain ⟨j, hj⟩ := h.full hfull
  exact absurd hj (h.not_last hL hi j)

/-- A component arrives, and is singled out exactly if it completes the count. -/
theorem arrive (h : Tally P L f) (hL : ∀ a, L a → P a) (hi : ¬ P (f i)) (hv : P v)
    (hlast : L v ↔ countOf P f + 1 = Fintype.card ι) : Tally P L (Function.update f i v) := by
  have hcount := countOf_update_enter P f i v hi hv
  refine ⟨fun j hj m hm => ?_, fun hfull => ⟨i, ?_⟩⟩
  · by_cases hji : j = i
    · subst hji
      rw [Function.update_self, hlast, ← hcount, countOf_eq_card_iff] at hj
      have hm' := hj m
      rw [Function.update_of_ne hm] at hm' ⊢
      exact ⟨hm', h.not_last hL hi m⟩
    · rw [Function.update_of_ne hji] at hj
      exact absurd hj (h.not_last hL hi j)
  · rw [Function.update_self, hlast, ← hcount, hfull]

end Tally

/-- A list is as long as its classes together. -/
theorem sum_length_filter {β κ : Type*} [DecidableEq κ] (classOf : β → κ) (classes : Finset κ)
    (l : List β) (h : ∀ x ∈ l, classOf x ∈ classes) :
    ∑ k ∈ classes, (l.filter fun x => classOf x = k).length = l.length := by
  induction l with
  | nil => simp
  | cons a l ih =>
    have hlength (k : κ) : ((a :: l).filter fun x => classOf x = k).length =
        (if classOf a = k then 1 else 0) + (l.filter fun x => classOf x = k).length := by
      rw [List.filter_cons]
      by_cases hk : classOf a = k
      · simp [hk, Nat.add_comm]
      · simp [hk]
    rw [Finset.sum_congr rfl fun k _ => hlength k, Finset.sum_add_distrib, Finset.sum_ite_eq,
      if_pos (h a List.mem_cons_self), ih fun x hx => h x (List.mem_cons_of_mem a hx),
      List.length_cons, Nat.add_comm]

end Ghexbench.Common
