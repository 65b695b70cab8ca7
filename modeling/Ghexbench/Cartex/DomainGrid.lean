import Ghexbench.Cartex.Decomposition
import Ghexbench.Common.Partition

/-!
# The grid of domains

All domains of all ranks form one periodic grid, the rank grid refined by the thread grid. The
domain at a coordinate of this grid is determined by the coordinate alone; what a rank computes
about its own threads is the part of the grid that belongs to it.
-/

namespace Ghexbench.Cartex

open Ghexbench.Common

section Vectors

variable {n dim : ℕ}

/-- The two vectors of a dimension after `k` iterations of the loop that fills them. -/
structure Filled (n dim k : ℕ) (vectors : List ℕ × List ℕ) : Prop where
  coordLength : vectors.1.length = dim + 1
  extLength : vectors.2.length = dim
  coord : ∀ i ≤ k, vectors.1.getD i 0 = start n dim i
  ext : ∀ i < k, vectors.2.getD i 0 = share n dim i

/-- Reading a vector after a write. -/
theorem getD_set {l : List ℕ} {i j v : ℕ} (hi : i < l.length) :
    (l.set i v).getD j 0 = if i = j then v else l.getD j 0 := by
  rw [List.getD_eq_getElem?_getD, List.getElem?_set, List.getD_eq_getElem?_getD]
  split <;> rfl

/-- One iteration fills one more entry of each vector. -/
theorem Filled.step {k : ℕ} {vectors : List ℕ × List ℕ} (h : Filled n dim k vectors) (hk : k < dim) :
    Filled n dim (k + 1) (initStep (n / dim) (n % dim) vectors k) where
  coordLength := by rw [initStep, List.length_set, h.coordLength]
  extLength := by rw [initStep, List.length_set, h.extLength]
  coord i hi := by
    have hlength := h.coordLength
    rw [initStep, getD_set (by omega), h.coord k le_rfl]
    split
    · next heq =>
      rw [← heq, start_succ, share, Nat.add_assoc]
    · exact h.coord i (by omega)
  ext i hi := by
    have hlength := h.extLength
    rw [initStep, getD_set (by omega)]
    split
    · next heq =>
      rw [← heq, share]
    · exact h.ext i (by omega)

/-- The loop fills both vectors with the even distribution. -/
theorem initVectors_filled (n dim : ℕ) : Filled n dim dim (initVectors n dim) := by
  have hrun (k : ℕ) (hk : k ≤ dim) : Filled n dim k ((List.range k).foldl
      (initStep (n / dim) (n % dim)) (List.replicate (dim + 1) 0, List.replicate dim 0)) := by
    induction k with
    | zero =>
      refine ⟨List.length_replicate, List.length_replicate, ?_, ?_⟩
      · intro i hi
        rw [Nat.le_zero.mp hi, start_zero]
        rfl
      · intro i hi
        exact absurd hi (Nat.not_lt_zero i)
    | succ k ih =>
      rw [List.range_succ, List.foldl_append]
      exact (ih (Nat.le_of_succ_le hk)).step hk
  have hj : n - dim * (n / dim) = n % dim := by
    have := Nat.div_add_mod n dim
    omega
  change Filled n dim dim ((List.range dim).foldl
    (initStep (n / dim) (n - dim * (n / dim))) (List.replicate (dim + 1) 0, List.replicate dim 0))
  rw [hj]
  exact hrun dim le_rfl

/-- `m_domain_coord[d].back()` is the size of the global domain. -/
theorem initVectors_last (hdim : 0 < dim) : (initVectors n dim).1.getLastD 0 = n := by
  have hfilled := initVectors_filled n dim
  have hlength := hfilled.coordLength
  have hlast := hfilled.coord dim le_rfl
  rw [List.getD_eq_getElem?_getD, start_last hdim] at hlast
  rw [List.getLastD_eq_getLast?, List.getLast?_eq_getElem?, hlength, Nat.add_sub_cancel]
  exact hlast

end Vectors

namespace Config

variable (cfg : Config) (placement : Placement cfg.rankGrid)

/-- The number of domains in each dimension. -/
def dim : Arr ℕ := fun d => cfg.rankGrid d * cfg.threadGrid d

/-- The size of the global domain. -/
def globalSize : Arr ℕ := fun d =>
  if cfg.isLocal then cfg.dim d * cfg.domainSize d else cfg.domainSize d

/-- The number of ranks. -/
def numRanks : ℕ := volume cfg.rankGrid

/-- The number of threads of a rank. -/
def numThreads : ℕ := volume cfg.threadGrid

/-- There is a domain in each dimension. -/
theorem dim_pos (d : Fin 3) : 0 < cfg.dim d :=
  Nat.mul_pos (cfg.rankGrid_pos d) (cfg.threadGrid_pos d)

/-- There is a rank. -/
theorem numRanks_pos : 0 < cfg.numRanks :=
  Nat.mul_pos (Nat.mul_pos (cfg.rankGrid_pos 0) (cfg.rankGrid_pos 1)) (cfg.rankGrid_pos 2)

/-- There is a thread. -/
theorem numThreads_pos : 0 < cfg.numThreads :=
  Nat.mul_pos (Nat.mul_pos (cfg.threadGrid_pos 0) (cfg.threadGrid_pos 1)) (cfg.threadGrid_pos 2)

/-- The rank that owns the domain at a coordinate. -/
def rankAt (c : Arr ℕ) : ℕ := placement.rank fun d => c d / cfg.threadGrid d

/-- The thread that owns the domain at a coordinate. -/
def threadAt (c : Arr ℕ) : ℕ := index cfg.threadGrid fun d => c d % cfg.threadGrid d

/-- The domain at a coordinate of the grid of domains. -/
def domainAt (c : Arr ℕ) : Domain where
  id := index cfg.dim c
  rank := cfg.rankAt placement c
  thread := cfg.threadAt c
  coord := c
  domainCoord := fun d => start (cfg.globalSize d) (cfg.dim d) (c d)
  domainExt := fun d => share (cfg.globalSize d) (cfg.dim d) (c d)

end Config

section Placement

variable {grid : Arr ℕ} (placement : Placement grid)

/-- The mapping inside a placement. -/
def Placement.map : Placement grid → RankMap grid
  | .mpiCart cart => cart
  | .hwTopo topo => topo

/-- Both kinds of placement look up the rank in their mapping. -/
theorem Placement.rank_eq (c : Arr ℕ) : placement.rank c = placement.map.rankOf c := by
  cases placement <;> rfl

/-- Both kinds of placement look up the coordinate in their mapping. -/
theorem Placement.gridCoord_eq (r : ℕ) : placement.gridCoord r = placement.map.coordOf r := by
  cases placement <;> rfl

end Placement

namespace Config

variable (cfg : Config) (placement : Placement cfg.rankGrid)

/-- The coordinate of a domain is composed of the coordinate of the rank and the digits of the
thread id. -/
theorem coord_apply (r t : ℕ) (d : Fin 3) : (cfg.decomposition placement r).coord t d =
    placement.gridCoord r d * cfg.threadGrid d + unindex cfg.threadGrid t d := by
  fin_cases d <;> rfl

variable {r t : ℕ} {c : Arr ℕ}

/-- The digits of a thread id. -/
theorem digits_lt (ht : t < cfg.numThreads) (d : Fin 3) :
    unindex cfg.threadGrid t d < cfg.threadGrid d :=
  unindex_inBox cfg.threadGrid_pos ht d

/-- The rank part of the coordinate of a domain. -/
theorem coord_div (ht : t < cfg.numThreads) :
    (fun d => (cfg.decomposition placement r).coord t d / cfg.threadGrid d) =
      placement.gridCoord r := by
  funext d
  have hlt := cfg.digits_lt ht d
  rw [coord_apply, Nat.mul_comm, Nat.mul_add_div (cfg.threadGrid_pos d), Nat.div_eq_of_lt hlt,
    Nat.add_zero]

/-- The thread part of the coordinate of a domain. -/
theorem coord_mod (ht : t < cfg.numThreads) :
    (fun d => (cfg.decomposition placement r).coord t d % cfg.threadGrid d) =
      unindex cfg.threadGrid t := by
  funext d
  have hlt := cfg.digits_lt ht d
  rw [coord_apply, Nat.mul_comm, Nat.mul_add_mod, Nat.mod_eq_of_lt hlt]

/-- Every thread of every rank has its place in the grid of domains. -/
theorem coord_inBox (hr : r < cfg.numRanks) (ht : t < cfg.numThreads) :
    InBox cfg.dim ((cfg.decomposition placement r).coord t) := by
  intro d
  have hrank : placement.gridCoord r d < cfg.rankGrid d := by
    rw [placement.gridCoord_eq]
    exact placement.map.coord_inBox r hr d
  rw [coord_apply, dim, Nat.add_comm, Nat.mul_comm, Nat.mul_comm (cfg.rankGrid d)]
  exact digit_lt (cfg.digits_lt ht d) hrank

/-- The owner of the domain of a thread is that thread. -/
theorem rankAt_coord (hr : r < cfg.numRanks) (ht : t < cfg.numThreads) :
    cfg.rankAt placement ((cfg.decomposition placement r).coord t) = r := by
  rw [rankAt, coord_div cfg placement ht, placement.rank_eq, placement.gridCoord_eq]
  exact placement.map.rank_coord r hr

/-- The owner of the domain of a thread is that thread. -/
theorem threadAt_coord (ht : t < cfg.numThreads) :
    cfg.threadAt ((cfg.decomposition placement r).coord t) = t := by
  rw [threadAt, coord_mod cfg placement ht, index_unindex]

/-- The rank part of a coordinate is a coordinate of the rank grid. -/
theorem div_inBox (hc : InBox cfg.dim c) : InBox cfg.rankGrid fun d => c d / cfg.threadGrid d := by
  intro d
  have hlt := hc d
  rw [dim, Nat.mul_comm] at hlt
  exact Nat.div_lt_of_lt_mul hlt

/-- The thread part of a coordinate is a coordinate of the thread grid. -/
theorem mod_inBox (c : Arr ℕ) : InBox cfg.threadGrid fun d => c d % cfg.threadGrid d :=
  fun d => Nat.mod_lt _ (cfg.threadGrid_pos d)

/-- The owner of a domain is one of the ranks. -/
theorem rankAt_lt (hc : InBox cfg.dim c) : cfg.rankAt placement c < cfg.numRanks := by
  rw [rankAt, placement.rank_eq]
  exact placement.map.rank_lt _ (cfg.div_inBox hc)

/-- The owner of a domain is one of the threads. -/
theorem threadAt_lt (c : Arr ℕ) : cfg.threadAt c < cfg.numThreads := index_lt (cfg.mod_inBox c)

/-- Every place in the grid of domains belongs to the thread that owns it. -/
theorem coord_at (hc : InBox cfg.dim c) :
    (cfg.decomposition placement (cfg.rankAt placement c)).coord (cfg.threadAt c) = c := by
  have hrank : placement.gridCoord (cfg.rankAt placement c) = fun d => c d / cfg.threadGrid d := by
    rw [rankAt, placement.rank_eq, placement.gridCoord_eq]
    exact placement.map.coord_rank _ (cfg.div_inBox hc)
  have hthread : unindex cfg.threadGrid (cfg.threadAt c) = fun d => c d % cfg.threadGrid d :=
    unindex_index (cfg.mod_inBox c 0) (cfg.mod_inBox c 1)
  funext d
  rw [coord_apply, hrank, hthread, Nat.mul_comm]
  exact Nat.div_add_mod _ _

/-- The vectors of a dimension hold the even distribution of the global domain. -/
theorem domainCoord_getD {d : Fin 3} {i : ℕ} (hi : i ≤ cfg.dim d) :
    ((cfg.decomposition placement r).domainCoord d).getD i 0 =
      start (cfg.globalSize d) (cfg.dim d) i :=
  (initVectors_filled (cfg.globalSize d) (cfg.dim d)).coord i hi

/-- The vectors of a dimension hold the even distribution of the global domain. -/
theorem domainExt_getD {d : Fin 3} {i : ℕ} (hi : i < cfg.dim d) :
    ((cfg.decomposition placement r).domainExt d).getD i 0 =
      share (cfg.globalSize d) (cfg.dim d) i :=
  (initVectors_filled (cfg.globalSize d) (cfg.dim d)).ext i hi

/-- `last_domain_coord` is the last cell of the global domain. -/
theorem lastDomainCoord_eq (r : ℕ) :
    (cfg.decomposition placement r).lastDomainCoord = fun d => (cfg.globalSize d : ℤ) - 1 := by
  funext d
  change (((initVectors (cfg.globalSize d) (cfg.dim d)).1.getLastD 0 : ℕ) : ℤ) - 1 = _
  rw [initVectors_last (cfg.dim_pos d)]

/-- What a rank computes about the domain of one of its threads is the domain at its place in
the grid. -/
theorem domain_eq (hr : r < cfg.numRanks) (ht : t < cfg.numThreads) :
    (cfg.decomposition placement r).domain t =
      cfg.domainAt placement ((cfg.decomposition placement r).coord t) := by
  have hbox := cfg.coord_inBox placement hr ht
  apply Domain.ext
  · rfl
  · exact (cfg.rankAt_coord placement hr ht).symm
  · exact (cfg.threadAt_coord placement ht).symm
  · rfl
  · funext d
    exact cfg.domainCoord_getD placement (hbox d).le
  · funext d
    exact cfg.domainExt_getD placement (hbox d)

/-- A domain lies inside the global domain. -/
theorem domain_le (hr : r < cfg.numRanks) (ht : t < cfg.numThreads) (d : Fin 3) :
    ((cfg.decomposition placement r).domain t).domainCoord d +
      ((cfg.decomposition placement r).domain t).domainExt d ≤ cfg.globalSize d := by
  rw [cfg.domain_eq placement hr ht]
  exact (start_add_share_le (cfg.coord_inBox placement hr ht d)).trans_eq (start_last (cfg.dim_pos d))

end Config

end Ghexbench.Cartex
