import Ghexbench.Cartex.Neighbor
import Ghexbench.Common.MixedRadix
import Ghexbench.Topo.HwTopo
import Mathlib.Algebra.BigOperators.Pi
import Mathlib.Data.List.GetD

/-!
# Level coordinates and ranks

In each dimension the coordinate of a rank is a number with one digit for every level, with the extents of
the levels as radices. `level_grid_coord` lists the digits from the outermost level on, and `rank` puts them
together again.
-/

namespace Ghexbench.Topo

open Ghexbench.Common Ghexbench.Common.MixedRadix
open Ghexbench.Cartex (RankMap)

namespace Levels

variable (ls : Levels)

/-- The extents of the levels in a dimension. -/
def radix (d : Fin 3) : ℕ → ℕ := fun l => ls.extent l d

/-- Coordinates for all levels, those for the outermost level first, lie within the grids of the levels. -/
structure InLevels (c : List (Arr ℕ)) : Prop where
  length_eq : c.length = ls.levels.length
  inBox : ∀ k < c.length, InBox (ls.extent (ls.levels.length - 1 - k)) (c.getD k 0)

variable {ls} {l : ℕ} {d : Fin 3}

/-- The extents are positive. -/
theorem extent_pos (hl : l < ls.levels.length) (d : Fin 3) : 0 < ls.extent l d := by
  have hlt : l * 3 + d.val < ls.levelGrid.length := by
    rw [ls.length_eq]
    omega
  rw [extent, List.getD_eq_getElem _ _ hlt]
  exact ls.pos _ (List.getElem_mem hlt)

/-- The size of a level in a dimension is the value of a place. -/
theorem sizeAt_eq (ls : Levels) (l : ℕ) (d : Fin 3) : ls.sizeAt l d = place (ls.radix d) l :=
  (forRange_mul _ l 1).trans (Nat.one_mul _)

/-- The total grid has the values of the place after the last. -/
theorem grid_eq (ls : Levels) (d : Fin 3) : ls.grid d = place (ls.radix d) ls.levels.length :=
  ls.sizeAt_eq _ d

/-- The size of a level is the product of the grids inside. -/
theorem size_eq_prod (ls : Levels) (l : ℕ) :
    ls.size l = ∏ j ∈ Finset.range l, volume (ls.extent j) := by
  have hsize : ls.size l = forRange l (fun j count => count * volume (ls.extent j)) 1 := by
    simp only [size, volume, Nat.mul_assoc]
  rw [hsize, forRange_mul, Nat.one_mul]

/-- The size of a level is the product of its sizes in the dimensions. -/
theorem size_eq (ls : Levels) (l : ℕ) : ls.size l = ls.sizeAt l 0 * ls.sizeAt l 1 * ls.sizeAt l 2 := by
  simp only [size_eq_prod, sizeAt_eq, place, volume, Finset.prod_mul_distrib]
  rfl

/-- The total grid consists of as many parts of the size of a level as there are. -/
theorem size_mul_count (hl : l ≤ ls.levels.length) : ls.size l * ls.count l = volume ls.grid := by
  have hcount : ls.count l = ∏ j ∈ Finset.Ico l ls.levels.length, volume (ls.extent j) := by
    have hloop := foldl_mul_range' (fun j => volume (ls.extent j)) l (ls.levels.length - l) 1
    rw [Nat.one_mul, Nat.add_sub_cancel' hl] at hloop
    rw [← hloop]
    simp only [count, volume, Nat.mul_assoc]
  have hgrid : volume ls.grid = ls.size ls.levels.length := (ls.size_eq _).symm
  rw [hgrid, hcount, size_eq_prod, size_eq_prod, Finset.prod_range_mul_prod_Ico _ hl]

end Levels

namespace HwTopo

variable (t : HwTopo)

/-- The loop lists the digits. -/
theorem levelLoop_eq (x : Arr ℕ) (l : ℕ) (res : List (Arr ℕ)) :
    t.levelLoop l (fun d => x d % place (t.levels.radix d) l) res =
      res ++ (List.range l).reverse.map fun j d => digit (t.levels.radix d) (x d) j := by
  induction l generalizing res with
  | zero => simp [levelLoop]
  | succ l ih =>
    have hdigit (d : Fin 3) : x d % place (t.levels.radix d) (l + 1) / t.levels.sizeAt l d =
        digit (t.levels.radix d) (x d) l := by
      rw [Levels.sizeAt_eq, mod_place_succ_div]
    have hrest (d : Fin 3) : x d % place (t.levels.radix d) (l + 1) -
        digit (t.levels.radix d) (x d) l * t.levels.sizeAt l d = x d % place (t.levels.radix d) l := by
      rw [← hdigit, ← Nat.mod_eq_sub_div_mul, Levels.sizeAt_eq, place_succ, Nat.mod_mul_right_mod]
    simp only [levelLoop, hdigit, hrest, ih]
    rw [List.range_succ, List.reverse_append, List.map_append, List.append_assoc]
    rfl

variable {t}

/-- The level coordinates are the digits of the coordinate. -/
theorem levelGridCoord_eq (hbox : InBox t.levels.grid t.gridCoord) : t.levelGridCoord =
    (List.range t.levels.levels.length).reverse.map fun j d =>
      digit (t.levels.radix d) (t.gridCoord d) j := by
  have hcoord : t.gridCoord =
      fun d => t.gridCoord d % place (t.levels.radix d) t.levels.levels.length := by
    funext d
    rw [← Levels.grid_eq, Nat.mod_eq_of_lt (hbox d)]
  rw [levelGridCoord, hcoord, levelLoop_eq, ← hcoord]
  rfl

/-- The rank for level coordinates is that of the coordinate that has them as digits. -/
theorem rank_eq (t : HwTopo) (c : List (Arr ℕ)) : t.rank c = t.hwcart.rankOf fun d =>
    number (t.levels.radix d) (fun l => c.getD (t.levels.levels.length - 1 - l) 0 d)
      t.levels.levels.length := by
  have hloop := forRange_add (M := Arr ℕ)
    (fun l d => c.getD (t.levels.levels.length - 1 - l) 0 d * t.levels.sizeAt l d) t.levels.levels.length 0
  refine congrArg t.hwcart.rankOf (hloop.trans ?_)
  funext d
  rw [zero_add, Finset.sum_apply]
  simp only [number, Levels.sizeAt_eq]

/-- The entries are the digits, from the last place on. -/
theorem levelGridCoord_getD (hbox : InBox t.levels.grid t.gridCoord) {k : ℕ}
    (hk : k < t.levels.levels.length) (d : Fin 3) : t.levelGridCoord.getD k 0 d =
      digit (t.levels.radix d) (t.gridCoord d) (t.levels.levels.length - 1 - k) := by
  rw [levelGridCoord_eq hbox]
  simp [List.getD_eq_getElem?_getD, hk]

/-- There is an entry for each level. -/
theorem length_levelGridCoord (hbox : InBox t.levels.grid t.gridCoord) :
    t.levelGridCoord.length = t.levels.levels.length := by
  rw [levelGridCoord_eq hbox]
  simp

/-- The level coordinates of a rank lie within the grids, and belong to this rank. -/
theorem rank_levelGridCoord (ht : t.mRank < volume t.levels.grid) :
    t.levels.InLevels t.levelGridCoord ∧ t.rank t.levelGridCoord = t.mRank := by
  have hbox : InBox t.levels.grid t.gridCoord := t.hwcart.coord_inBox _ ht
  constructor
  · refine ⟨length_levelGridCoord hbox, fun k hk d => ?_⟩
    rw [length_levelGridCoord hbox] at hk
    rw [levelGridCoord_getD hbox hk]
    exact Nat.mod_lt _ (Levels.extent_pos (by omega) d)
  · have hnumber (d : Fin 3) : number (t.levels.radix d)
        (fun l => t.levelGridCoord.getD (t.levels.levels.length - 1 - l) 0 d) t.levels.levels.length =
          t.gridCoord d := by
      have hdigits : ∀ l < t.levels.levels.length,
          t.levelGridCoord.getD (t.levels.levels.length - 1 - l) 0 d =
            digit (t.levels.radix d) (t.gridCoord d) l := by
        intro l hl
        rw [levelGridCoord_getD hbox (by omega), Nat.sub_sub_self (by omega)]
      rw [number_congr hdigits, number_digit, ← Levels.grid_eq, Nat.mod_eq_of_lt (hbox d)]
    rw [rank_eq, funext hnumber]
    exact t.hwcart.rank_coord _ ht

/-- Coordinates within the grids of the levels are those of the rank that belongs to them. -/
theorem levelGridCoord_rank {c : List (Arr ℕ)} (hc : t.levels.InLevels c) :
    t.rank c < volume t.levels.grid ∧ (t.mRank = t.rank c → t.levelGridCoord = c) := by
  have hdigits (d : Fin 3) : ∀ l < t.levels.levels.length,
      c.getD (t.levels.levels.length - 1 - l) 0 d < t.levels.radix d l := by
    intro l hl
    have hlt := hc.inBox (t.levels.levels.length - 1 - l) (by have := hc.length_eq; omega) d
    rwa [Nat.sub_sub_self (by omega)] at hlt
  have hbox : InBox t.levels.grid fun d => number (t.levels.radix d)
      (fun l => c.getD (t.levels.levels.length - 1 - l) 0 d) t.levels.levels.length := by
    intro d
    rw [Levels.grid_eq]
    exact number_lt (hdigits d)
  rw [rank_eq]
  refine ⟨t.hwcart.rank_lt _ hbox, fun hrank => ?_⟩
  have hcoord := (congrArg t.hwcart.coordOf hrank).trans (t.hwcart.coord_rank _ hbox)
  change t.gridCoord = _ at hcoord
  have hbox' : InBox t.levels.grid t.gridCoord := hcoord ▸ hbox
  apply List.ext_getElem
  · rw [length_levelGridCoord hbox', hc.length_eq]
  · intro k hk hk'
    have hlt : k < t.levels.levels.length := hc.length_eq ▸ hk'
    funext d
    rw [← List.getD_eq_getElem _ 0 hk, ← List.getD_eq_getElem _ 0 hk', levelGridCoord_getD hbox' hlt,
      hcoord, digit_number (hdigits d) (by omega), Nat.sub_sub_self (by omega)]

end HwTopo

/-- On every rank the level coordinates lie within the grids of the levels and belong to this rank. All
coordinates within the grids are those of the rank that belongs to them. The total grid consists of `count`
parts with `size` cells. -/
theorem level_coords_inverse (b : Builder) (hwcart : RankMap b.levels.grid) :
    (∀ r < volume b.levels.grid, b.levels.InLevels (b.build hwcart r).levelGridCoord ∧
      (b.build hwcart r).rank (b.build hwcart r).levelGridCoord = r) ∧
    (∀ r c, b.levels.InLevels c → (b.build hwcart r).rank c < volume b.levels.grid ∧
      (b.build hwcart ((b.build hwcart r).rank c)).levelGridCoord = c) ∧
    ∀ l ≤ b.levels.levels.length, b.levels.size l * b.levels.count l = volume b.levels.grid ∧
      b.levels.size l = b.levels.sizeAt l 0 * b.levels.sizeAt l 1 * b.levels.sizeAt l 2 := by
  refine ⟨fun r hr => ?_, fun r c hc => ?_, fun l hl => ?_⟩
  · exact HwTopo.rank_levelGridCoord (t := b.build hwcart r) hr
  · have hrank := HwTopo.levelGridCoord_rank (t := b.build hwcart ((b.build hwcart r).rank c)) hc
    exact ⟨hrank.1, hrank.2 rfl⟩
  · exact ⟨Levels.size_mul_count hl, b.levels.size_eq l⟩

/-- Two cores in a socket and six nodes with one socket each. -/
def sampleBuilder : Builder := ⟨![1, 3, 2], ![1, 1, 1], 0, 0, ![2, 1, 1], 0⟩

/-- The second core of the last node but one. -/
theorem level_coords_inverse_core :
    let topo := sampleBuilder.build (RankMap.xyz _ (by decide))
    (topo ((topo 0).rank [![0, 1, 1], 0, ![1, 0, 0]])).levelGridCoord = [![0, 1, 1], 0, ![1, 0, 0]] := by
  intro topo
  have hlevels : sampleBuilder.levels.InLevels [![0, 1, 1], 0, ![1, 0, 0]] := ⟨rfl, by decide⟩
  exact ((level_coords_inverse sampleBuilder _).2.1 0 _ hlevels).2

end Ghexbench.Topo
