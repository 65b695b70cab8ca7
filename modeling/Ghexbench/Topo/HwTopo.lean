import Ghexbench.Cartex.Decomposition
import Ghexbench.Common.Loops

/-!
# The hardware topology

`hw_topo_builder` collects the grids of the hardware resources that are in use, the innermost one first, and
`hw_topo` arranges the ranks in the product of these grids. The mapping between ranks and coordinates comes
from hwcart and is a parameter. Since all extents are positive, they are natural numbers here, and none of
their products exceeds the number of ranks, which is an `int`.
-/

namespace Ghexbench.Topo

open Ghexbench.Common
open Ghexbench.Cartex (RankMap)

/-- `hwcart_split_t`. -/
inductive Split
  | hwthread
  | core
  | l3cache
  | numa
  | socket
  | node
  deriving DecidableEq

/-- `hw_topo_builder`: the grids of the resources. -/
structure Builder where
  nodeD : Arr ℤ
  socketD : Arr ℤ
  numaD : Arr ℤ
  l3D : Arr ℤ
  coreD : Arr ℤ
  hwthreadD : Arr ℤ

/-- `hw_topo_builder::check`. -/
def check (d : Arr ℤ) : Bool := d 0 > 0 && d 1 > 0 && d 2 > 0

/-- `m_level_grid`, with three positive numbers for each level, and `m_levels`. -/
structure Levels where
  levelGrid : List ℕ
  levels : List Split
  length_eq : levelGrid.length = levels.length * 3
  pos : ∀ n ∈ levelGrid, 0 < n

namespace Levels

/-- No levels. -/
def empty : Levels := ⟨[], [], rfl, fun _ h => absurd h List.not_mem_nil⟩

section Add

variable (ls : Levels) (d : Arr ℤ) (s : Split)

/-- The extents of one more level. -/
def extended : List ℕ := ls.levelGrid ++ [(d 0).toNat, (d 1).toNat, (d 2).toNat]

/-- One more level has three more extents. -/
theorem length_extended : (ls.extended d).length = (ls.levels ++ [s]).length * 3 := by
  simp only [extended, List.length_append, ls.length_eq, List.length_cons, List.length_nil]
  omega

variable {d}

/-- The extents of a level that is in use are positive. -/
theorem extended_pos (h : check d = true) : ∀ n ∈ ls.extended d, 0 < n := by
  intro n hn
  simp only [check, Bool.and_eq_true, decide_eq_true_eq] at h
  cases List.mem_append.mp hn with
  | inl hold => exact ls.pos n hold
  | inr hnew =>
    simp only [List.mem_cons, List.not_mem_nil, or_false] at hnew
    omega

variable (d)

/-- Add a level if its resource is in use. -/
def add : Levels :=
  if h : check d = true then
    ⟨ls.extended d, ls.levels ++ [s], ls.length_extended d s, ls.extended_pos h⟩
  else ls

end Add

variable (ls : Levels)

/-- The extent of a level in a dimension. -/
def extent (l : ℕ) (d : Fin 3) : ℕ := ls.levelGrid.getD (l * 3 + d) 0

/-- `m_grid`. -/
def grid : Arr ℕ := fun i => forRange ls.levels.length (fun j grid => grid * ls.extent j i) 1

/-- `hw_topo::size(int, int)`. -/
def sizeAt (l : ℕ) (d : Fin 3) : ℕ := forRange l (fun j count => count * ls.extent j d) 1

/-- `hw_topo::size(int)`. -/
def size (l : ℕ) : ℕ :=
  forRange l (fun j count => count * ls.extent j 0 * ls.extent j 1 * ls.extent j 2) 1

/-- `hw_topo::count(int)`. -/
def count (l : ℕ) : ℕ :=
  (List.range' l (ls.levels.length - l)).foldl
    (fun count j => count * ls.extent j 0 * ls.extent j 1 * ls.extent j 2) 1

/-- `hw_topo::get_level`. -/
def getLevel (resource : Split) : Option ℕ := ls.levels.findIdx? (· == resource)

end Levels

/-- The levels that `hw_topo_builder::build` makes. -/
def Builder.levels (b : Builder) : Levels :=
  (((((Levels.empty.add b.hwthreadD .hwthread).add b.coreD .core).add b.l3D .l3cache).add b.numaD .numa).add
    b.socketD .socket).add b.nodeD .node

/-- A level is added behind those that there are. -/
theorem Levels.sublist_add {ls : Levels} {l : List Split} (h : ls.levels.Sublist l) (d : Arr ℤ) (s : Split) :
    (ls.add d s).levels.Sublist (l ++ [s]) := by
  unfold add
  split
  · exact h.append_right [s]
  · exact h.trans (List.sublist_append_left l [s])

/-- The levels are some of the six resources, from the innermost one on. -/
theorem Builder.levels_sublist (b : Builder) :
    b.levels.levels.Sublist [.hwthread, .core, .l3cache, .numa, .socket, .node] := by
  have hnone : Levels.empty.levels.Sublist [] := List.nil_sublist []
  have hcore := Levels.sublist_add (Levels.sublist_add hnone b.hwthreadD .hwthread) b.coreD .core
  have hnuma := Levels.sublist_add (Levels.sublist_add hcore b.l3D .l3cache) b.numaD .numa
  exact Levels.sublist_add (Levels.sublist_add hnuma b.socketD .socket) b.nodeD .node

/-- The level of a resource that is in use is found. -/
theorem Builder.getLevel_eq (b : Builder) {l : ℕ} (hl : l < b.levels.levels.length) :
    b.levels.getLevel b.levels.levels[l] = some l := by
  have hnodup : b.levels.levels.Nodup := b.levels_sublist.nodup (by decide)
  rw [Levels.getLevel, List.findIdx?_eq_some_iff_getElem]
  refine ⟨hl, beq_self_eq_true _, fun j hj heq => ?_⟩
  have hsame : j = l := hnodup.getElem_inj_iff.mp (beq_iff_eq.mp heq)
  omega

/-- `hw_topo` on a rank. -/
structure HwTopo where
  levels : Levels
  hwcart : RankMap levels.grid
  mRank : ℕ

/-- `hw_topo_builder::build` on a rank. -/
def Builder.build (b : Builder) (hwcart : RankMap b.levels.grid) (rank : ℕ) : HwTopo :=
  ⟨b.levels, hwcart, rank⟩

namespace HwTopo

variable (t : HwTopo)

/-- `hw_topo::grid_coord`. -/
def gridCoord : Arr ℕ := t.hwcart.coordOf t.mRank

/-- `hw_topo::rank(arr const&)`. -/
def rankAt (coord : Arr ℕ) : ℕ := t.hwcart.rankOf coord

/-- The loop in `level_grid_coord`, which starts with the outermost level. -/
def levelLoop : ℕ → Arr ℕ → List (Arr ℕ) → List (Arr ℕ)
  | 0, _, res => res
  | l + 1, coord, res =>
    let larr : Arr ℕ := fun d => coord d / t.levels.sizeAt l d
    levelLoop l (fun d => coord d - larr d * t.levels.sizeAt l d) (res ++ [larr])

/-- `hw_topo::level_grid_coord`. -/
def levelGridCoord : List (Arr ℕ) := t.levelLoop t.levels.levels.length t.gridCoord []

/-- `hw_topo::rank(std::vector<arr> const&)`. -/
def rank (c : List (Arr ℕ)) : ℕ :=
  t.rankAt (forRange t.levels.levels.length
    (fun l coord d => coord d + c.getD (t.levels.levels.length - 1 - l) 0 d * t.levels.sizeAt l d) 0)

end HwTopo

end Ghexbench.Topo
