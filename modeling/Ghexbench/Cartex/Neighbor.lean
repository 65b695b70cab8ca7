import Ghexbench.Cartex.Tiling
import Mathlib.Data.Nat.ModEq

/-!
# Neighbours agree about each other

`neighbor` computes the record of another domain without asking its owner. Both ways of finding
the rank, the shortcut for threads of the own rank and the mapping of ranks, lead to the owner
of the place in the periodic grid of domains, so that the record is the one the owner computes.
-/

namespace Ghexbench.Cartex

open Ghexbench.Common

section Wrap

variable {m c : ℕ} {offset : ℤ}

/-- A coordinate moved by an offset in a periodic grid with `m` places. -/
def shift (m : ℕ) (offset : ℤ) (c : ℕ) : ℕ := (Decomposition.wrap ((m : ℤ) - 1) (c + offset)).toNat

/-- The wrap-around leads back into the grid. -/
theorem shift_lt (hc : c < m) (hlow : -1 ≤ offset) (hhigh : offset ≤ 1) : shift m offset c < m := by
  unfold shift Decomposition.wrap
  split <;> dsimp only <;> split <;> omega

/-- Moving back and forth. -/
theorem shift_neg (hc : c < m) (hlow : -1 ≤ offset) (hhigh : offset ≤ 1) :
    shift m (-offset) (shift m offset c) = c := by
  unfold shift Decomposition.wrap
  dsimp only
  split <;> split <;> split <;> split <;> omega

/-- A zero offset stays. -/
theorem shift_zero (hc : c < m) : shift m 0 c = c := by
  unfold shift Decomposition.wrap
  dsimp only
  split <;> split <;> omega

/-- The next place, or the first one after the last. -/
theorem shift_one (hc : c < m) : shift m 1 c = if c + 1 = m then 0 else c + 1 := by
  unfold shift Decomposition.wrap
  dsimp only
  split <;> split <;> split <;> omega

/-- The next part begins where this one ends, up to multiples of the size of the row. -/
theorem start_shift_one (n : ℕ) (hc : c < m) :
    start n m (shift m 1 c) ≡ start n m c + share n m c [MOD n] := by
  rw [← start_succ, shift_one hc]
  split
  · next hlast =>
    rw [hlast, start_zero, start_last (Nat.zero_lt_of_lt hc)]
    exact (Nat.modEq_zero_iff_dvd.mpr dvd_rfl).symm
  · rfl

end Wrap

namespace Config

variable (cfg : Config) (placement : Placement cfg.rankGrid) {r t : ℕ} {offset : Arr ℤ}

/-- The place of a neighbour in the grid of domains. -/
def shiftCoord (offset : Arr ℤ) (c : Arr ℕ) : Arr ℕ := fun d => shift (cfg.dim d) (offset d) (c d)

/-- Neighbours are in the grid. -/
theorem shiftCoord_inBox {c : Arr ℕ} (hc : InBox cfg.dim c)
    (hoffset : ∀ d, -1 ≤ offset d ∧ offset d ≤ 1) : InBox cfg.dim (cfg.shiftCoord offset c) :=
  fun d => shift_lt (hc d) (hoffset d).1 (hoffset d).2

/-- The rank found by the shortcut is the one that the mapping gives. -/
theorem neighbor_rank (hr : r < cfg.numRanks) (c : Arr ℕ) :
    (if ∀ i, c i / cfg.threadGrid i * cfg.threadGrid i = placement.gridCoord r i * cfg.threadGrid i
      then r else placement.rank fun i => c i / cfg.threadGrid i) = cfg.rankAt placement c := by
  split
  · next hshortcut =>
    have hcoord : (fun i => c i / cfg.threadGrid i) = placement.gridCoord r := by
      funext i
      exact Nat.eq_of_mul_eq_mul_right (cfg.threadGrid_pos i) (hshortcut i)
    rw [rankAt, hcoord, placement.rank_eq, placement.gridCoord_eq]
    exact (placement.map.rank_coord r hr).symm
  · rfl

/-- The record of a neighbour is the domain at its place in the grid. -/
theorem neighbor_eq (hr : r < cfg.numRanks) (ht : t < cfg.numThreads)
    (hoffset : ∀ d, -1 ≤ offset d ∧ offset d ≤ 1) :
    (cfg.decomposition placement r).neighbor t offset = cfg.domainAt placement
      (cfg.shiftCoord offset ((cfg.decomposition placement r).coord t)) := by
  have hbox := cfg.shiftCoord_inBox (cfg.coord_inBox placement hr ht) hoffset
  let c := cfg.shiftCoord offset ((cfg.decomposition placement r).coord t)
  have hthread (d : Fin 3) :
      c d - c d / cfg.threadGrid d * cfg.threadGrid d = c d % cfg.threadGrid d := by
    have := Nat.div_add_mod (c d) (cfg.threadGrid d)
    rw [Nat.mul_comm] at this
    omega
  apply Domain.ext
  · rfl
  · exact cfg.neighbor_rank placement hr _
  · exact congrArg (index cfg.threadGrid) (funext hthread)
  · rfl
  · funext d
    exact cfg.domainCoord_getD placement (hbox d).le
  · funext d
    exact cfg.domainExt_getD placement (hbox d)

/-- The owner of a neighbour takes part in the run. -/
theorem neighbor_inRange (hr : r < cfg.numRanks) (ht : t < cfg.numThreads)
    (hoffset : ∀ d, -1 ≤ offset d ∧ offset d ≤ 1) :
    ((cfg.decomposition placement r).neighbor t offset).rank < cfg.numRanks ∧
      ((cfg.decomposition placement r).neighbor t offset).thread < cfg.numThreads := by
  rw [cfg.neighbor_eq placement hr ht hoffset]
  have hshift := cfg.shiftCoord_inBox (cfg.coord_inBox placement hr ht) hoffset
  exact ⟨cfg.rankAt_lt placement hshift, cfg.threadAt_lt _⟩

/-- The owner of a neighbour is at the place that the offset leads to. -/
theorem coord_neighbor (hr : r < cfg.numRanks) (ht : t < cfg.numThreads)
    (hoffset : ∀ d, -1 ≤ offset d ∧ offset d ≤ 1) :
    let n := (cfg.decomposition placement r).neighbor t offset
    (cfg.decomposition placement n.rank).coord n.thread =
      cfg.shiftCoord offset ((cfg.decomposition placement r).coord t) := by
  intro n
  have hn : n = cfg.domainAt placement _ := cfg.neighbor_eq placement hr ht hoffset
  rw [hn]
  exact cfg.coord_at placement (cfg.shiftCoord_inBox (cfg.coord_inBox placement hr ht) hoffset)

/-- The record of a neighbour is what its owner computes about itself. -/
theorem neighbor_eq_domain (hr : r < cfg.numRanks) (ht : t < cfg.numThreads)
    (hoffset : ∀ d, -1 ≤ offset d ∧ offset d ≤ 1) :
    let n := (cfg.decomposition placement r).neighbor t offset
    n = (cfg.decomposition placement n.rank).domain n.thread := by
  intro n
  obtain ⟨hrank, hthread⟩ := cfg.neighbor_inRange placement hr ht hoffset
  rw [cfg.domain_eq placement hrank hthread, cfg.coord_neighbor placement hr ht hoffset]
  exact cfg.neighbor_eq placement hr ht hoffset

/-- The opposite offset leads back. -/
theorem neighbor_neg (hr : r < cfg.numRanks) (ht : t < cfg.numThreads)
    (hoffset : ∀ d, -1 ≤ offset d ∧ offset d ≤ 1) :
    let n := (cfg.decomposition placement r).neighbor t offset
    (cfg.decomposition placement n.rank).neighbor n.thread (-offset) =
      (cfg.decomposition placement r).domain t := by
  intro n
  obtain ⟨hrank, hthread⟩ := cfg.neighbor_inRange placement hr ht hoffset
  have hback : ∀ d, -1 ≤ (-offset) d ∧ (-offset) d ≤ 1 := by
    intro d
    obtain ⟨hlow, hhigh⟩ := hoffset d
    exact ⟨neg_le_neg hhigh, neg_le.mp hlow⟩
  rw [cfg.neighbor_eq placement hrank hthread hback, cfg.coord_neighbor placement hr ht hoffset,
    cfg.domain_eq placement hr ht]
  congr 1
  funext d
  exact shift_neg (cfg.coord_inBox placement hr ht d) (hoffset d).1 (hoffset d).2

/-- Along a dimension with offset zero the two domains are aligned. -/
theorem neighbor_aligned (hr : r < cfg.numRanks) (ht : t < cfg.numThreads)
    (hoffset : ∀ d, -1 ≤ offset d ∧ offset d ≤ 1) {d : Fin 3} (hd : offset d = 0) :
    let n := (cfg.decomposition placement r).neighbor t offset
    let self := (cfg.decomposition placement r).domain t
    n.domainCoord d = self.domainCoord d ∧ n.domainExt d = self.domainExt d := by
  intro n self
  have hn : n = cfg.domainAt placement _ := cfg.neighbor_eq placement hr ht hoffset
  have hself : self = cfg.domainAt placement _ := cfg.domain_eq placement hr ht
  have hstay : cfg.shiftCoord offset ((cfg.decomposition placement r).coord t) d =
      (cfg.decomposition placement r).coord t d := by
    rw [shiftCoord, hd, shift_zero (cfg.coord_inBox placement hr ht d)]
  rw [hn, hself]
  simp only [domainAt, hstay, and_self]

/-- Along a dimension with offset one the neighbour begins where this domain ends. -/
theorem neighbor_adjacent (hr : r < cfg.numRanks) (ht : t < cfg.numThreads)
    (hoffset : ∀ d, -1 ≤ offset d ∧ offset d ≤ 1) {d : Fin 3} (hd : offset d = 1) :
    let n := (cfg.decomposition placement r).neighbor t offset
    let self := (cfg.decomposition placement r).domain t
    n.domainCoord d ≡ self.domainCoord d + self.domainExt d [MOD cfg.globalSize d] := by
  intro n self
  have hn : n = cfg.domainAt placement _ := cfg.neighbor_eq placement hr ht hoffset
  have hself : self = cfg.domainAt placement _ := cfg.domain_eq placement hr ht
  rw [hn, hself]
  change start _ _ (shift _ (offset d) _) ≡ _ [MOD _]
  rw [hd]
  exact start_shift_one _ (cfg.coord_inBox placement hr ht d)

/-- Along a dimension with offset minus one this domain begins where the neighbour ends. -/
theorem neighbor_adjacent_left (hr : r < cfg.numRanks) (ht : t < cfg.numThreads)
    (hoffset : ∀ d, -1 ≤ offset d ∧ offset d ≤ 1) {d : Fin 3} (hd : offset d = -1) :
    let n := (cfg.decomposition placement r).neighbor t offset
    let self := (cfg.decomposition placement r).domain t
    self.domainCoord d ≡ n.domainCoord d + n.domainExt d [MOD cfg.globalSize d] := by
  intro n self
  obtain ⟨hrank, hthread⟩ := cfg.neighbor_inRange placement hr ht hoffset
  have hback : ∀ d, -1 ≤ (-offset) d ∧ (-offset) d ≤ 1 := by
    intro d
    obtain ⟨hlow, hhigh⟩ := hoffset d
    exact ⟨neg_le_neg hhigh, neg_le.mp hlow⟩
  have hone : (-offset) d = 1 := by rw [Pi.neg_apply, hd, neg_neg]
  have hadjacent := cfg.neighbor_adjacent placement hrank hthread hback hone
  rwa [cfg.neighbor_neg placement hr ht hoffset,
    ← cfg.neighbor_eq_domain placement hr ht hoffset] at hadjacent

/-- A neighbour lies inside the global domain. -/
theorem neighbor_le (hr : r < cfg.numRanks) (ht : t < cfg.numThreads)
    (hoffset : ∀ d, -1 ≤ offset d ∧ offset d ≤ 1) (d : Fin 3) :
    let n := (cfg.decomposition placement r).neighbor t offset
    n.domainCoord d + n.domainExt d ≤ cfg.globalSize d := by
  intro n
  have hn : n = cfg.domainAt placement _ := cfg.neighbor_eq placement hr ht hoffset
  have hbox := cfg.shiftCoord_inBox (cfg.coord_inBox placement hr ht) hoffset
  rw [hn]
  exact (start_add_share_le (hbox d)).trans_eq (start_last (cfg.dim_pos d))

end Config

/-- The record of a neighbour equals in all fields what its owner computes about itself, the
opposite offset leads back, along a dimension with offset zero the two domains are aligned, and
along a dimension with offset one the neighbour begins where this domain ends. -/
theorem neighbor_agrees (cfg : Config) (placement : Placement cfg.rankGrid) (r t : ℕ)
    (offset : Arr ℤ) (hr : r < cfg.numRanks) (ht : t < cfg.numThreads)
    (hoffset : ∀ d, -1 ≤ offset d ∧ offset d ≤ 1) :
    let dec := cfg.decomposition placement
    let n := (dec r).neighbor t offset
    let self := (dec r).domain t
    (n.rank < cfg.numRanks ∧ n.thread < cfg.numThreads) ∧
    n = (dec n.rank).domain n.thread ∧
    (dec n.rank).neighbor n.thread (-offset) = self ∧
    (∀ d, offset d = 0 → n.domainCoord d = self.domainCoord d ∧ n.domainExt d = self.domainExt d) ∧
    (∀ d, offset d = 1 →
      n.domainCoord d ≡ self.domainCoord d + self.domainExt d [MOD cfg.globalSize d]) := by
  intro dec n self
  refine ⟨cfg.neighbor_inRange placement hr ht hoffset,
    cfg.neighbor_eq_domain placement hr ht hoffset, cfg.neighbor_neg placement hr ht hoffset, ?_, ?_⟩
  · intro d hd
    exact cfg.neighbor_aligned placement hr ht hoffset hd
  · intro d hd
    exact cfg.neighbor_adjacent placement hr ht hoffset hd

/-- The mapping that numbers the ranks along the first dimension first. -/
def RankMap.xyz (grid : Arr ℕ) (hpos : ∀ d, 0 < grid d) : RankMap grid where
  rankOf := index grid
  coordOf := unindex grid
  rank_lt _ := index_lt
  coord_inBox _ := unindex_inBox hpos
  coord_rank _ hc := unindex_index (hc 0) (hc 1)
  rank_coord r _ := index_unindex grid r

/-- The only rank of a single domain. -/
def cubePlacement (n : ℕ) : Placement (cube n).rankGrid :=
  .mpiCart (RankMap.xyz _ (cube n).rankGrid_pos)

/-- Two ranks of two threads each, in a global domain that is not divisible by the grid. -/
def twoRanks : Config where
  rankGrid := ![2, 1, 1]
  threadGrid := ![1, 2, 1]
  domainSize := ![5, 3, 2]
  isLocal := false
  rankGrid_pos := by decide
  threadGrid_pos := by decide

/-- The neighbour of thread 0 of rank 1 across two periodic boundaries is thread 1 of rank 0. -/
theorem neighbor_agrees_corner :
    let dec := twoRanks.decomposition (.mpiCart (RankMap.xyz _ twoRanks.rankGrid_pos))
    let n := (dec 1).neighbor 0 ![1, -1, 0]
    n = (dec n.rank).domain n.thread ∧ (n.rank, n.thread) = (0, 1) ∧
      (dec n.rank).neighbor n.thread (-![1, -1, 0]) = (dec 1).domain 0 := by
  have h := neighbor_agrees twoRanks (.mpiCart (RankMap.xyz _ twoRanks.rankGrid_pos)) 1 0 ![1, -1, 0]
    (by decide) (by decide) (by decide)
  exact ⟨h.2.1, rfl, h.2.2.1⟩

end Ghexbench.Cartex
