import Ghexbench.Cartex.HaloPhases
import Mathlib.Data.Int.ModEq

/-!
# The rounds of the halo exchange

In a round all domains exchange their halos in one dimension. After the round the halo of this
dimension holds the values of the cells that it is a periodic image of, wherever the values of
these cells had arrived before: the corners are filled in the last round with what the neighbour
received in the earlier ones.
-/

namespace Ghexbench.Cartex

open Ghexbench.Common

namespace Setup

variable (su : Setup) {h : ℕ} {q : ℕ × ℕ} {dim : Fin 3} {left : Bool}

section Neighbours

variable {su}

/-- The neighborhood of a neighbour. -/
theorem d_target (hq : su.InRange q) (dim : Fin 3) (left : Bool) :
    (su.neighborhood (su.target q dim left)).d = (su.neighborhood q).target dim left := by
  rw [target, su.target_neighbor]
  exact (su.cfg.neighbor_eq_domain su.placement hq.1 hq.2 (direction_bound dim left)).symm

/-- Neighbours in one dimension are aligned in the others. -/
theorem aligned (hq : su.InRange q) (left : Bool) {d : Fin 3} (hd : d ≠ dim) :
    (su.neighborhood (su.source q dim left)).d.domainCoord d = (su.neighborhood q).d.domainCoord d ∧
    (su.neighborhood (su.source q dim left)).d.domainExt d = (su.neighborhood q).d.domainExt d := by
  rw [source_eq_target, d_target hq, su.target_neighbor]
  exact su.cfg.neighbor_aligned su.placement hq.1 hq.2 (direction_bound dim !left) (if_neg hd)

/-- A domain begins where its neighbour on the left ends. -/
theorem adjacent (hq : su.InRange q) (dim : Fin 3) :
    (su.neighborhood (su.source q dim true)).d.domainCoord dim ≡
      (su.neighborhood q).d.domainCoord dim + (su.neighborhood q).d.domainExt dim
      [MOD su.cfg.globalSize dim] := by
  rw [source_eq_target, d_target hq, su.target_neighbor]
  exact su.cfg.neighbor_adjacent su.placement hq.1 hq.2 (direction_bound dim false) (if_pos rfl)

/-- The members of a neighborhood are as the constructor makes them. -/
theorem neighborhood_built (su : Setup) (q : ℕ × ℕ) : (su.neighborhood q).Built := ⟨rfl, rfl⟩

end Neighbours

/-- Halos of equal width on all sides, and domains that are at least as large. -/
structure Uniform (h : ℕ) : Prop where
  pos : 1 ≤ h
  halos : ∀ i, su.halos i = h
  le : ∀ q, su.InRange q → ∀ d, h ≤ (su.neighborhood q).d.domainExt d

/-- Domains that are at least as large as their halos. -/
structure Fitting : Prop where
  left_le : ∀ q, su.InRange q → ∀ d, haloLeft su.halos d ≤ (su.neighborhood q).d.domainExt d
  right_le : ∀ q, su.InRange q → ∀ d, haloRight su.halos d ≤ (su.neighborhood q).d.domainExt d

variable {su}

/-- The halos of a thread. -/
theorem Fitting.neighborhood (w : su.Fitting) (hq : su.InRange q) : (su.neighborhood q).Fitting where
  toBuilt := su.neighborhood_built q
  left_le := w.left_le q hq
  right_le := w.right_le q hq

/-- Halos of equal width. -/
theorem Uniform.fitting (u : su.Uniform h) : su.Fitting where
  left_le q hq d := by
    rw [Neighborhood.haloLeft_of_forall u.halos]
    exact u.le q hq d
  right_le q hq d := by
    rw [Neighborhood.haloRight_of_forall u.halos]
    exact u.le q hq d

/-- All threads have the same halo widths. -/
@[simp] theorem neighborhood_halos (su : Setup) (q : ℕ × ℕ) : (su.neighborhood q).halos = su.halos := rfl

/-- The extended buffer has a halo on both sides of each dimension. -/
theorem extBuffer_apply (su : Setup) (q : ℕ × ℕ) (d : Fin 3) : (su.neighborhood q).extBuffer d =
    (su.neighborhood q).d.domainExt d + haloLeft su.halos d + haloRight su.halos d :=
  (su.neighborhood_built q).extBuffer_apply d

variable (su)

/-- The cell of the global domain that a cell of the extended buffer of a thread is a periodic
image of, for halos of equal width. -/
def image (h : ℕ) (q : ℕ × ℕ) (c : Arr ℕ) : Arr ℕ := fun d =>
  ((((su.neighborhood q).d.domainCoord d : ℤ) + c d - h) % (su.cfg.globalSize d : ℤ)).toNat

/-- A value is that of the periodic image of a cell in the interior of the domain that owns it, for
halos of equal width. -/
def Owned {V : Type*} (h : ℕ) (field : ℕ × ℕ → ℕ → V) (q : ℕ × ℕ) (c : Arr ℕ) (v : V) : Prop :=
  ∃ q', su.InRange q' ∧ (su.neighborhood q').d.Contains (su.image h q c) ∧
    v = field q' (index (su.neighborhood q').extBuffer fun d =>
      su.image h q c d - (su.neighborhood q').d.domainCoord d + h)

/-- The cell of the global domain that a cell of the extended buffer of a thread is a periodic
image of. -/
def periodicImage (q : ℕ × ℕ) (c : Arr ℕ) : Arr ℕ := fun d =>
  ((((su.neighborhood q).d.domainCoord d : ℤ) + c d - haloLeft su.halos d) %
    (su.cfg.globalSize d : ℤ)).toNat

/-- A value is that of the periodic image of a cell in the interior of the domain that owns it. -/
def OwnerValue {V : Type*} (field : ℕ × ℕ → ℕ → V) (q : ℕ × ℕ) (c : Arr ℕ) (v : V) : Prop :=
  ∃ q', su.InRange q' ∧ (su.neighborhood q').d.Contains (su.periodicImage q c) ∧
    v = field q' (index (su.neighborhood q').extBuffer fun d =>
      su.periodicImage q c d - (su.neighborhood q').d.domainCoord d + haloLeft su.halos d)

/-- Images for halos of equal width. -/
theorem image_eq (hhalos : ∀ i, su.halos i = h) (q : ℕ × ℕ) (c : Arr ℕ) :
    su.image h q c = su.periodicImage q c := by
  unfold image periodicImage
  rw [Neighborhood.haloLeft_of_forall hhalos]

/-- Values for halos of equal width. -/
theorem owned_iff {V : Type*} {field : ℕ × ℕ → ℕ → V} (hhalos : ∀ i, su.halos i = h) (q : ℕ × ℕ)
    (c : Arr ℕ) (v : V) : su.Owned h field q c v ↔ su.OwnerValue field q c v := by
  unfold Owned OwnerValue
  rw [su.image_eq hhalos, Neighborhood.haloLeft_of_forall hhalos]

/-- The message that a thread receives in a round. -/
def blockFrom {V : Type*} (dim : Fin 3) (field : ℕ × ℕ → ℕ → V) (q : ℕ × ℕ) (left : Bool) : List V :=
  let q' := su.source q dim left
  ((su.neighborhood q').packed dim left).read (su.neighborhood q').extBuffer (field q')

/-- All threads exchange the halos of a field in one dimension. -/
def haloRound {V : Type*} (dim : Fin 3) (field : ℕ × ℕ → ℕ → V) (q : ℕ × ℕ) : ℕ → V :=
  let nb := su.neighborhood q
  (nb.recvType dim false).write nb.extBuffer (su.blockFrom dim field q false)
    ((nb.recvType dim true).write nb.extBuffer (su.blockFrom dim field q true) (field q))

variable {su} {V : Type*} {field : ℕ × ℕ → ℕ → V} {c c' : Arr ℕ}

section Image

/-- An image is a cell of the global domain. -/
theorem periodicImage_inBox (q : ℕ × ℕ) (c : Arr ℕ) (hpos : ∀ d, 0 < su.cfg.globalSize d) :
    InBox su.cfg.globalSize (su.periodicImage q c) := by
  intro d
  have hG : (0 : ℤ) < su.cfg.globalSize d := Int.natCast_pos.mpr (hpos d)
  have hlow := Int.emod_nonneg (((su.neighborhood q).d.domainCoord d : ℤ) + c d -
    haloLeft su.halos d) hG.ne'
  have hhigh := Int.emod_lt_of_pos (((su.neighborhood q).d.domainCoord d : ℤ) + c d -
    haloLeft su.halos d) hG
  unfold periodicImage
  omega

/-- Cells that agree up to the size of the global domain are images of the same cell. -/
theorem periodicImage_congr {q' : ℕ × ℕ} (heq : ∀ d, ((su.neighborhood q').d.domainCoord d : ℤ) + c' d ≡
    (su.neighborhood q).d.domainCoord d + c d [ZMOD su.cfg.globalSize d]) :
    su.periodicImage q' c' = su.periodicImage q c := by
  funext d
  exact congrArg Int.toNat ((heq d).sub_right (haloLeft su.halos d))

/-- The cell of a neighbour on the right. -/
theorem periodicImage_right (hq : su.InRange q) (hc : (su.neighborhood q).d.domainExt dim ≤ c dim) :
    su.periodicImage (su.source q dim true)
      (Function.update c dim (c dim - (su.neighborhood q).d.domainExt dim)) = su.periodicImage q c := by
  apply periodicImage_congr
  intro d
  by_cases hd : d = dim
  · subst hd
    have hadjacent := Int.natCast_modEq_iff.mpr (adjacent hq d)
    rw [Function.update_self]
    have := hadjacent.add_right ((c d - (su.neighborhood q).d.domainExt d : ℕ) : ℤ)
    push_cast [hc] at this ⊢
    ring_nf at this ⊢
    exact this
  · rw [Function.update_of_ne hd, (aligned hq true hd).1]

/-- The cell of a neighbour on the left. -/
theorem periodicImage_left (hq : su.InRange q) (c : Arr ℕ) :
    su.periodicImage (su.source q dim false) (Function.update c dim
      (c dim + (su.neighborhood (su.source q dim false)).d.domainExt dim)) = su.periodicImage q c := by
  have hsource := source_inRange hq dim false
  have hback : su.source (su.source q dim false) dim true = q := by
    rw [source_eq_target]
    exact target_source hq dim false
  apply periodicImage_congr
  intro d
  by_cases hd : d = dim
  · subst hd
    have hadjacent := Int.natCast_modEq_iff.mpr (adjacent hsource d)
    rw [hback] at hadjacent
    rw [Function.update_self]
    have := (hadjacent.add_right (c d : ℤ)).symm
    push_cast at this ⊢
    ring_nf at this ⊢
    exact this
  · rw [Function.update_of_ne hd, (aligned hq false hd).1]

end Image

section Values

/-- A cell inside the domain in the dimensions that have not been exchanged, for halos of equal
width. -/
def InnerFrom (su : Setup) (h : ℕ) (q : ℕ × ℕ) (k : ℕ) (c : Arr ℕ) : Prop :=
  ∀ d : Fin 3, k ≤ d.val → h ≤ c d ∧ c d < h + (su.neighborhood q).d.domainExt d

/-- A cell inside the domain in the dimensions that have not been exchanged. -/
def InsideFrom (su : Setup) (q : ℕ × ℕ) (k : ℕ) (c : Arr ℕ) : Prop :=
  ∀ d : Fin 3, k ≤ d.val → haloLeft su.halos d ≤ c d ∧
    c d < haloLeft su.halos d + (su.neighborhood q).d.domainExt d

/-- The cells of a receive block. -/
theorem mem_recvType (hc : InBox (su.neighborhood q).extBuffer c)
    (hin : su.InsideFrom q (dim.val + 1) c) :
    ((su.neighborhood q).recvType dim left).Mem c ↔
      if left then haloLeft su.halos dim + (su.neighborhood q).d.domainExt dim ≤ c dim
      else c dim < haloLeft su.halos dim := by
  constructor
  · intro hmem
    have hdim := hmem dim
    rw [Neighborhood.recvType_offset, Neighborhood.recvType_size] at hdim
    cases left <;> simp at hdim ⊢ <;> omega
  · intro hdim d
    have hbox := hc d
    have hinner := hin d
    rw [su.extBuffer_apply] at hbox
    rw [Neighborhood.recvType_offset, Neighborhood.recvType_size, su.extBuffer_apply]
    rcases lt_trichotomy d dim with hlt | heq | hgt
    · simp only [hlt, if_true]
      omega
    · subst heq
      cases left <;> simp at hdim ⊢ <;> omega
    · have hnlt : ¬ d < dim := not_lt.mpr hgt.le
      simp only [hnlt, hgt.ne', if_false]
      exact hinner hgt

/-- The block of a message at the sender has the size of that at the receiver. -/
theorem packed_source_size (hq : su.InRange q) (dim : Fin 3) (left : Bool) :
    ((su.neighborhood (su.source q dim left)).packed dim left).size =
      ((su.neighborhood q).recvType dim left).size := by
  funext d
  rw [Neighborhood.packed_size, Neighborhood.recvType_size, Neighborhood.recvType_size,
    su.extBuffer_apply, su.extBuffer_apply]
  by_cases hd : d = dim
  · simp [hd]
  · rw [(aligned hq left hd).2, neighborhood_halos, neighborhood_halos]

/-- Cells inside the domain keep their values. -/
theorem haloRound_inner (hc : InBox (su.neighborhood q).extBuffer c)
    (hin : su.InsideFrom q dim.val c) :
    su.haloRound dim field q (index (su.neighborhood q).extBuffer c) =
      field q (index (su.neighborhood q).extBuffer c) := by
  have hdim := hin dim le_rfl
  have hout : su.InsideFrom q (dim.val + 1) c := fun d hd => hin d (Nat.le_of_succ_le hd)
  have hleft : ¬ ((su.neighborhood q).recvType dim false).Mem c := by
    rw [mem_recvType hc hout]
    simp
    omega
  have hright : ¬ ((su.neighborhood q).recvType dim true).Mem c := by
    rw [mem_recvType hc hout]
    simp
    omega
  simp only [haloRound]
  rw [Block.write_apply hc, if_neg hleft, Block.write_apply hc, if_neg hright]

/-- The halo on the left gets the last cells of the neighbour on the left. -/
theorem haloRound_left (hq : su.InRange q) (hc : InBox (su.neighborhood q).extBuffer c)
    (hin : su.InsideFrom q (dim.val + 1) c) (hlt : c dim < haloLeft su.halos dim) :
    su.haloRound dim field q (index (su.neighborhood q).extBuffer c) =
      field (su.source q dim false) (index (su.neighborhood (su.source q dim false)).extBuffer
        (Function.update c dim
          (c dim + (su.neighborhood (su.source q dim false)).d.domainExt dim))) := by
  have hmem : ((su.neighborhood q).recvType dim false).Mem c := by
    rw [mem_recvType hc hin]
    exact hlt
  simp only [haloRound, blockFrom]
  rw [Block.write_read_apply hc hmem (packed_source_size hq dim false)]
  congr 2
  funext d
  change Block.offset _ d + (c d - Block.offset _ d) = _
  rw [Neighborhood.packed_offset, Neighborhood.recvType_offset]
  rcases lt_trichotomy d dim with hd | rfl | hd
  · simp [hd, hd.ne]
  · simp [Nat.add_comm]
  · have hinner := (hin d hd).1
    simp [not_lt.mpr hd.le, hd.ne']
    omega

/-- The halo on the right gets the first cells of the neighbour on the right. -/
theorem haloRound_right (hq : su.InRange q) (hc : InBox (su.neighborhood q).extBuffer c)
    (hin : su.InsideFrom q (dim.val + 1) c)
    (hge : haloLeft su.halos dim + (su.neighborhood q).d.domainExt dim ≤ c dim) :
    su.haloRound dim field q (index (su.neighborhood q).extBuffer c) =
      field (su.source q dim true) (index (su.neighborhood (su.source q dim true)).extBuffer
        (Function.update c dim (c dim - (su.neighborhood q).d.domainExt dim))) := by
  have hmem : ((su.neighborhood q).recvType dim true).Mem c := by
    rw [mem_recvType hc hin]
    exact hge
  have hnot : ¬ ((su.neighborhood q).recvType dim false).Mem c := by
    rw [mem_recvType hc hin]
    simp
    omega
  simp only [haloRound, blockFrom]
  rw [Block.write_apply hc, if_neg hnot,
    Block.write_read_apply hc hmem (packed_source_size hq dim true)]
  congr 2
  funext d
  change Block.offset _ d + (c d - Block.offset _ d) = _
  rw [Neighborhood.packed_offset, Neighborhood.recvType_offset]
  rcases lt_trichotomy d dim with hd | rfl | hd
  · simp [hd, hd.ne]
  · simp
    omega
  · have hinner := (hin d hd).1
    simp [not_lt.mpr hd.le, hd.ne']
    omega

end Values

end Setup

end Ghexbench.Cartex
