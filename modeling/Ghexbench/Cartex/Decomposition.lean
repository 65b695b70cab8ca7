import Ghexbench.Common.Grid

/-!
# The domain decomposition

`decomposition` cuts the global domain into one domain per thread of every rank. The ranks
form a periodic grid, each rank is divided by a grid of threads, and the remainder of the
division of the global domain goes to the first domains of each dimension. The mapping between
ranks and coordinates comes from `MPI_Cart_create` or from hwcart and is a parameter.

All numbers are in the range of `int`.
-/

namespace Ghexbench.Cartex

open Ghexbench.Common

/-- A one-to-one mapping between the ranks and the coordinates of a grid. -/
structure RankMap (grid : Arr ℕ) where
  rankOf : Arr ℕ → ℕ
  coordOf : ℕ → Arr ℕ
  rank_lt : ∀ c, InBox grid c → rankOf c < volume grid
  coord_inBox : ∀ r, r < volume grid → InBox grid (coordOf r)
  coord_rank : ∀ c, InBox grid c → coordOf (rankOf c) = c
  rank_coord : ∀ r, r < volume grid → rankOf (coordOf r) = r

/-- The mapping in use: that of the MPI communicator with a Cartesian topology
(`m_use_mpi_cart`), or that of the hardware topology. -/
inductive Placement (grid : Arr ℕ)
  | mpiCart (cart : RankMap grid)
  | hwTopo (topo : RankMap grid)

/-- `MPI_Cart_rank`, or `hw_topo::rank`. -/
def Placement.rank {grid : Arr ℕ} : Placement grid → Arr ℕ → ℕ
  | .mpiCart cart, c => cart.rankOf c
  | .hwTopo topo, c => topo.rankOf c

/-- `MPI_Cart_coords`, or `hw_topo::grid_coord`. -/
def Placement.gridCoord {grid : Arr ℕ} : Placement grid → ℕ → Arr ℕ
  | .mpiCart cart, r => cart.coordOf r
  | .hwTopo topo, r => topo.coordOf r

/-- The arguments of the constructors of `decomposition`: positive grids of ranks and of
threads, and the size of each domain or of the global domain. -/
structure Config where
  rankGrid : Arr ℕ
  threadGrid : Arr ℕ
  domainSize : Arr ℕ
  isLocal : Bool
  rankGrid_pos : ∀ d, 0 < rankGrid d
  threadGrid_pos : ∀ d, 0 < threadGrid d

/-- A single domain of `n` cells in each dimension. -/
def cube (n : ℕ) : Config :=
  ⟨fun _ => 1, fun _ => 1, fun _ => n, true, fun _ => Nat.one_pos, fun _ => Nat.one_pos⟩

/-- `decomposition::domain_t`. -/
@[ext] structure Domain where
  id : ℕ
  rank : ℕ
  thread : ℕ
  coord : Arr ℕ
  domainCoord : Arr ℕ
  domainExt : Arr ℕ

/-- The members of `decomposition` on one rank. -/
structure Decomposition (rankGrid : Arr ℕ) where
  placement : Placement rankGrid
  threadDecomposition : Arr ℕ
  threadsPerRank : ℕ
  mCoord : Arr ℕ
  mRank : ℕ
  size : ℕ
  lastCoord : Arr ℤ
  globalDomain : Arr ℕ
  domainCoord : Fin 3 → List ℕ
  domainExt : Fin 3 → List ℕ
  lastDomainCoord : Arr ℤ

/-- One iteration of the loop in `init_domain` that fills the two vectors of a dimension. -/
def initStep (ext j : ℕ) (vectors : List ℕ × List ℕ) (i : ℕ) : List ℕ × List ℕ :=
  (vectors.1.set (i + 1) (vectors.1.getD i 0 + ext + if i < j then 1 else 0),
    vectors.2.set i (ext + if i < j then 1 else 0))

/-- The vectors `m_domain_coord[d]` and `m_domain_ext[d]` for `dim` domains of a global domain
of `n` cells. -/
def initVectors (n dim : ℕ) : List ℕ × List ℕ :=
  let ext := n / dim
  let j := n - dim * ext
  (List.range dim).foldl (initStep ext j) (List.replicate (dim + 1) 0, List.replicate dim 0)

/-- The constructors of `decomposition` with `init_domain`, on a given rank. -/
def Config.decomposition (cfg : Config) (placement : Placement cfg.rankGrid) (rank : ℕ) :
    Decomposition cfg.rankGrid :=
  let dim : Arr ℕ := fun d => cfg.rankGrid d * cfg.threadGrid d
  let globalDomain : Arr ℕ := fun d =>
    if cfg.isLocal then dim d * cfg.domainSize d else cfg.domainSize d
  let vectors := fun d => initVectors (globalDomain d) (dim d)
  { placement := placement
    threadDecomposition := cfg.threadGrid
    threadsPerRank := cfg.threadGrid 0 * cfg.threadGrid 1 * cfg.threadGrid 2
    mCoord := fun d => placement.gridCoord rank d * cfg.threadGrid d
    mRank := rank
    size := volume cfg.rankGrid
    lastCoord := fun d => ((cfg.rankGrid d * cfg.threadGrid d : ℕ) : ℤ) - 1
    globalDomain := globalDomain
    domainCoord := fun d => (vectors d).1
    domainExt := fun d => (vectors d).2
    lastDomainCoord := fun d => ((vectors d).1.getLastD 0 : ℤ) - 1 }

namespace Decomposition

variable {rankGrid : Arr ℕ} (dec : Decomposition rankGrid)

/-- `decomposition::num_domains`. -/
def numDomains : ℕ := dec.threadsPerRank * dec.size

/-- `decomposition::coord`: the digits of the thread id, the last one not reduced. -/
def coord (threadId : ℕ) : Arr ℕ :=
  let rest0 := threadId / dec.threadDecomposition 0
  let rest1 := rest0 / dec.threadDecomposition 1
  ![dec.mCoord 0 + threadId % dec.threadDecomposition 0,
    dec.mCoord 1 + rest0 % dec.threadDecomposition 1, dec.mCoord 2 + rest1]

/-- `decomposition::domain`. -/
def domain (threadId : ℕ) : Domain :=
  let c := dec.coord threadId
  { id := c 0 + rankGrid 0 * dec.threadDecomposition 0 *
      (c 1 + rankGrid 1 * dec.threadDecomposition 1 * c 2)
    rank := dec.mRank
    thread := threadId
    coord := c
    domainCoord := fun d => (dec.domainCoord d).getD (c d) 0
    domainExt := fun d => (dec.domainExt d).getD (c d) 0 }

/-- The coordinate of a neighbour, wrapped around at both ends. -/
def wrap (last c : ℤ) : ℤ :=
  let c := if c > last then c - (last + 1) else c
  if c < 0 then c + (last + 1) else c

/-- `decomposition::neighbor` with the offset `(dx, dy, dz)`. After the wrap-around the
coordinates are not negative. -/
def neighbor (threadId : ℕ) (offset : Arr ℤ) : Domain :=
  let c : Arr ℕ := fun i => (wrap (dec.lastCoord i) (dec.coord threadId i + offset i)).toNat
  let c0 : Arr ℕ := fun i => c i / dec.threadDecomposition i
  let ct : Arr ℕ := fun i => c i - c0 i * dec.threadDecomposition i
  { id := c 0 + rankGrid 0 * dec.threadDecomposition 0 *
      (c 1 + rankGrid 1 * dec.threadDecomposition 1 * c 2)
    rank := if ∀ i, c0 i * dec.threadDecomposition i = dec.mCoord i then dec.mRank
      else dec.placement.rank c0
    thread := ct 0 + dec.threadDecomposition 0 * (ct 1 + dec.threadDecomposition 1 * ct 2)
    coord := c
    domainCoord := fun d => (dec.domainCoord d).getD (c d) 0
    domainExt := fun d => (dec.domainExt d).getD (c d) 0 }

/-- `decomposition::domains`. -/
def domains : List Domain :=
  (List.range dec.threadsPerRank).foldl (fun res i => res ++ [dec.domain i]) []

end Decomposition

end Ghexbench.Cartex
