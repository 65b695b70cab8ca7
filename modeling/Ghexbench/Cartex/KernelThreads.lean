import Ghexbench.Cartex.Kernels

/-!
# The threads of a launch

Every index inside a launch is that of one thread. The kernels split the threads of one dimension between
two blocks, and each thread handles the element that belongs to its index. If the threads cover the
blocks, every element is handled.
-/

namespace Ghexbench.Cartex

open Ghexbench.Common

namespace Launch

variable {α : Type*} {l : Launch} {dim : Fin 3} {size : Bool → Arr ℕ} {copy : Bool → Arr ℕ → α} {g : Arr ℕ}
  {zLoop : Bool} {kernel : l.Thread → List α}

section Threads

/-- There is a thread for each index inside the launch. -/
theorem exists_thread (hg : ∀ d, g d < l.blocks d * l.dims d) :
    ∃ t : l.Thread, ∀ d, globalIdx t d = g d := by
  have hpos (d : Fin 3) : 0 < l.dims d := Nat.pos_of_mul_pos_left (Nat.zero_lt_of_lt (hg d))
  have hblock (d : Fin 3) : g d / l.dims d < l.blocks d :=
    Nat.div_lt_of_lt_mul (Nat.mul_comm _ (l.dims d) ▸ hg d)
  refine ⟨(fun d => ⟨_, hblock d⟩, fun d => ⟨g d % l.dims d, Nat.mod_lt _ (hpos d)⟩), fun d => ?_⟩
  exact Nat.div_add_mod' (g d) (l.dims d)

/-- The index of a thread lies inside the launch. -/
theorem globalIdx_lt (t : l.Thread) (d : Fin 3) : globalIdx t d < l.blocks d * l.dims d := by
  unfold globalIdx
  rw [Nat.add_comm, Nat.mul_comm, Nat.mul_comm (l.blocks d)]
  exact digit_lt (t.2 d).isLt (t.1 d).isLt

/-- Threads have different indices. -/
theorem globalIdx_injective {t t' : l.Thread} (h : ∀ d, globalIdx t d = globalIdx t' d) : t = t' := by
  have hdigits (d : Fin 3) : (t.2 d : ℕ) = t'.2 d ∧ (t.1 d : ℕ) = t'.1 d := by
    have heq := h d
    unfold globalIdx at heq
    rw [Nat.add_comm, Nat.mul_comm, Nat.add_comm _ (t'.2 d : ℕ), Nat.mul_comm _ (l.dims d)] at heq
    exact digit_injective (t.2 d).isLt (t'.2 d).isLt heq
  apply Prod.ext
  · funext d
    exact Fin.ext (hdigits d).2
  · funext d
    exact Fin.ext (hdigits d).1

/-- With one block in a dimension the index in the block is that in the launch. -/
theorem threadIdx_eq (hblocks : l.blocks dim = 1) (t : l.Thread) : threadIdx t dim = globalIdx t dim := by
  have hzero : (t.1 dim : ℕ) = 0 := Nat.lt_one_iff.mp (hblocks ▸ (t.1 dim).isLt)
  rw [globalIdx, hzero, Nat.zero_mul, Nat.zero_add]
  rfl

end Threads

section Blocks

/-- The index of the thread that handles an element of a block. -/
def threadOf (dim : Fin 3) (halo : ℕ) (left : Bool) (k : Arr ℕ) : Arr ℕ :=
  if left then Function.update k dim (k dim + halo) else k

/-- What the thread with an index handles. -/
def pick (dim : Fin 3) (size : Bool → Arr ℕ) (copy : Bool → Arr ℕ → α) (g : Arr ℕ) :
    List α :=
  if ∀ d, d ≠ dim → g d < size false d then
    if g dim < size false dim then [copy false g]
    else [copy true (Function.update g dim (g dim - size false dim))]
  else []

/-- A kernel that guards the ranges of the other dimensions. -/
theorem pick_of_guard {guard : Prop} [Decidable guard] {x halo : ℕ} {onLeft onRight : α}
    (hx : g dim = x) (hhalo : size false dim = halo)
    (hguard : guard ↔ ∀ d, d ≠ dim → g d < size false d) (hleft : onLeft = copy false g)
    (hright : onRight = copy true (Function.update g dim (x - halo))) :
    (if guard then if x < halo then [onLeft] else [onRight] else []) = pick dim size copy g := by
  rw [hleft, hright, ← hx, ← hhalo]
  exact if_congr hguard rfl rfl

/-- An element that a thread handles belongs to its index. -/
theorem exists_of_mem_pick {c : α} (hg : g dim < size false dim + size true dim)
    (hsize : ∀ d, d ≠ dim → size true d = size false d) (hc : c ∈ pick dim size copy g) :
    ∃ left k, InBox (size left) k ∧ g = threadOf dim (size false dim) left k ∧ c = copy left k := by
  unfold pick at hc
  split at hc
  · next hguard =>
    split at hc
    · next hlt =>
      refine ⟨false, g, fun d => ?_, rfl, List.mem_singleton.mp hc⟩
      by_cases hd : d = dim
      · exact hd ▸ hlt
      · exact hguard d hd
    · next hge =>
      refine ⟨true, _, fun d => ?_, ?_, List.mem_singleton.mp hc⟩
      · by_cases hd : d = dim
        · subst hd
          rw [Function.update_self]
          omega
        · rw [Function.update_of_ne hd, hsize d hd]
          exact hguard d hd
      · rw [threadOf, if_pos rfl, Function.update_self, Function.update_idem,
          Nat.sub_add_cancel (not_lt.mp hge), Function.update_eq_self]
  · exact absurd hc List.not_mem_nil

/-- The thread of an element handles it. -/
theorem mem_pick_threadOf {left : Bool} {k : Arr ℕ} (hsize : ∀ d, d ≠ dim → size true d = size false d)
    (hk : InBox (size left) k) : copy left k ∈ pick dim size copy (threadOf dim (size false dim) left k) := by
  cases left with
  | false =>
    change copy false k ∈ pick dim size copy k
    rw [pick, if_pos fun d _ => hk d, if_pos (hk dim)]
    exact List.mem_singleton_self _
  | true =>
    have hguard : ∀ d, d ≠ dim → threadOf dim (size false dim) true k d < size false d := by
      intro d hd
      rw [threadOf, if_pos rfl, Function.update_of_ne hd, ← hsize d hd]
      exact hk d
    have hdim : threadOf dim (size false dim) true k dim = k dim + size false dim :=
      Function.update_self ..
    have hback : Function.update (threadOf dim (size false dim) true k) dim (k dim) = k := by
      rw [threadOf, if_pos rfl, Function.update_idem, Function.update_eq_self]
    rw [pick, if_pos hguard, hdim, if_neg (Nat.not_lt.mpr (Nat.le_add_left ..)),
      Nat.add_sub_cancel, hback]
    exact List.mem_singleton_self _

/-- A thread handles the element that belongs to its index. -/
theorem mem_pick {c : α} (hg : g dim < size false dim + size true dim)
    (hsize : ∀ d, d ≠ dim → size true d = size false d) : c ∈ pick dim size copy g ↔
      ∃ left k, InBox (size left) k ∧ g = threadOf dim (size false dim) left k ∧ c = copy left k := by
  constructor
  · exact exists_of_mem_pick hg hsize
  · rintro ⟨left, k, hk, rfl, rfl⟩
    exact mem_pick_threadOf hsize hk

/-- The threads of a kernel handle the elements of two blocks that belong to their indices; those of some
kernels ignore their index in z. -/
def Splits (dim : Fin 3) (zLoop : Bool) (size : Bool → Arr ℕ) (copy : Bool → Arr ℕ → α)
    (kernel : l.Thread → List α) : Prop :=
  ∀ t c, c ∈ kernel t ↔ ∃ left k, InBox (size left) k ∧
    (∀ d, (zLoop = true → d ≠ 2) → globalIdx t d = threadOf dim (size false dim) left k d) ∧
    c = copy left k

/-- The index of the thread that handles an element lies in the ranges. -/
theorem threadOf_lt {left : Bool} {k : Arr ℕ} (hk : InBox (size left) k)
    (hsize : ∀ d, d ≠ dim → size true d = size false d) (d : Fin 3) :
    threadOf dim (size false dim) left k d <
      if d = dim then size false d + size true d else size false d := by
  have hkd := hk d
  by_cases hd : d = dim
  · subst hd
    cases left <;> simp [threadOf] at hkd ⊢ <;> omega
  · have hs := hsize d hd
    cases left <;> simp [threadOf, hd] at hkd ⊢ <;> omega

/-- Kernels whose threads handle one element each. -/
theorem splits_of_pick (hkernel : ∀ t, kernel t = pick dim size copy (globalIdx t))
    (hdim : ∀ t : l.Thread, globalIdx t dim < size false dim + size true dim)
    (hsize : ∀ d, d ≠ dim → size true d = size false d) : Splits dim false size copy kernel := by
  intro t c
  rw [hkernel, mem_pick (hdim t) hsize]
  simp only [funext_iff, Bool.false_eq_true, false_implies, true_implies]

/-- Kernels whose threads handle the elements of all planes. -/
theorem splits_of_loop (hkernel : ∀ t, kernel t = (List.range (size false 2)).flatMap fun z =>
      pick dim size copy (Function.update (globalIdx t) 2 z))
    (hne : dim ≠ 2) (hdim : ∀ t : l.Thread, globalIdx t dim < size false dim + size true dim)
    (hsize : ∀ d, d ≠ dim → size true d = size false d) : Splits dim true size copy kernel := by
  intro t c
  rw [hkernel, List.mem_flatMap]
  have hg (z : ℕ) : Function.update (globalIdx t) 2 z dim < size false dim + size true dim := by
    rw [Function.update_of_ne hne]
    exact hdim t
  simp only [mem_pick (hg _) hsize]
  constructor
  · rintro ⟨z, hz, left, k, hk, heq, hc⟩
    refine ⟨left, k, hk, fun d hd => ?_, hc⟩
    rw [← heq, Function.update_of_ne (hd trivial)]
  · rintro ⟨left, k, hk, heq, hc⟩
    have hthread : threadOf dim (size false dim) left k 2 = k 2 := by
      cases left
      · rfl
      · exact Function.update_of_ne hne.symm _ _
    have hlt : k 2 < size false 2 := by
      have := threadOf_lt hk hsize 2
      rwa [if_neg hne.symm, hthread] at this
    refine ⟨k 2, List.mem_range.mpr hlt, left, k, hk, ?_, hc⟩
    funext d
    by_cases hd : d = 2
    · subst hd
      rw [Function.update_self, hthread]
    · rw [Function.update_of_ne hd]
      exact heq d fun _ => hd

/-- The ranges of the indices of the threads that have elements to handle. -/
def rangesOf (dim : Fin 3) (zLoop : Bool) (size : Bool → Arr ℕ) : Arr ℕ := fun d =>
  if d = dim then size false d + size true d
  else if zLoop = true ∧ d = 2 then 1 else size false d

/-- All elements of the blocks are handled. -/
theorem Splits.exists_iff (h : Splits dim zLoop size copy kernel) (hdim : zLoop = true → dim ≠ 2)
    (hsize : ∀ d, d ≠ dim → size true d = size false d)
    (hcovers : ∀ d, rangesOf dim zLoop size d ≤ l.blocks d * l.dims d) {c : α} :
    (∃ t, c ∈ kernel t) ↔ ∃ left k, InBox (size left) k ∧ c = copy left k := by
  constructor
  · rintro ⟨t, ht⟩
    obtain ⟨left, k, hk, -, hc⟩ := (h t c).mp ht
    exact ⟨left, k, hk, hc⟩
  · rintro ⟨left, k, hk, hc⟩
    have hlt (d : Fin 3) : (if zLoop = true ∧ d = 2 then 0
        else threadOf dim (size false dim) left k d) < rangesOf dim zLoop size d := by
      have hthread := threadOf_lt hk hsize d
      unfold rangesOf
      split
      · next hskip =>
        have hne : d ≠ dim := fun heq => hdim hskip.1 (heq ▸ hskip.2)
        rw [if_neg hne]
        exact Nat.one_pos
      · exact hthread
    obtain ⟨t, ht⟩ := exists_thread fun d => (hlt d).trans_le (hcovers d)
    refine ⟨t, (h t c).mpr ⟨left, k, hk, fun d hd => ?_, hc⟩⟩
    rw [ht, if_neg fun hloop => hd hloop.1 hloop.2]

/-- Every element is handled by one thread. -/
theorem Splits.eq_of_dst (h : Splits dim zLoop size copy kernel) {β : Type*} {dst : α → β}
    (hcopy : ∀ {left left' k k'}, InBox (size left) k → InBox (size left') k' →
      dst (copy left k) = dst (copy left' k') → left = left' ∧ k = k')
    (hloop : zLoop = true → l.blocks 2 * l.dims 2 = 1) {t t' : l.Thread} {c c' : α} (hc : c ∈ kernel t)
    (hc' : c' ∈ kernel t') (hdst : dst c = dst c') : t = t' := by
  obtain ⟨left, k, hk, ht, rfl⟩ := (h t c).mp hc
  obtain ⟨left', k', hk', ht', rfl⟩ := (h t' c').mp hc'
  obtain ⟨rfl, rfl⟩ := hcopy hk hk' hdst
  apply globalIdx_injective
  intro d
  by_cases hd : zLoop = true ∧ d = 2
  · obtain ⟨hz, rfl⟩ := hd
    have hlt := globalIdx_lt t 2
    have hlt' := globalIdx_lt t' 2
    have hone := hloop hz
    omega
  · have hgo : zLoop = true → d ≠ 2 := fun hz heq => hd ⟨hz, heq⟩
    rw [ht d hgo, ht' d hgo]

end Blocks

end Launch

end Ghexbench.Cartex
