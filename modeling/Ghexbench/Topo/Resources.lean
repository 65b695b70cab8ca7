import Ghexbench.Topo.LevelCoords
import Mathlib.Algebra.Order.BigOperators.Group.Finset
import Mathlib.Algebra.Order.BigOperators.Ring.Finset
import Mathlib.Data.Fintype.BigOperators

/-!
# Ranks and resources

The coordinates of a rank from some level on say in which resource of this level it is. `size` is the number
of ranks in such a resource, and `count` is the number of the resources, whatever the mapping between ranks
and coordinates is.
-/

namespace Ghexbench.Topo

open Ghexbench.Common Ghexbench.Common.MixedRadix
open Ghexbench.Cartex (RankMap)

namespace Levels

variable (ls : Levels)

/-- `hw_topo::size(hwcart_split_t)`. -/
def sizeOf (resource : Split) : Option ℕ := (ls.getLevel resource).map ls.size

/-- `hw_topo::count(hwcart_split_t)`. -/
def countOf (resource : Split) : Option ℕ := (ls.getLevel resource).map ls.count

variable {ls} {l : ℕ}

/-- A cell is in the same part of the size of a level as a cell of the grid only if it is in the grid. -/
theorem inBox_of_div_eq {c x : Arr ℕ} (hl : l ≤ ls.levels.length) (hx : InBox ls.grid x)
    (hpart : ∀ d, c d / ls.sizeAt l d = x d / ls.sizeAt l d) : InBox ls.grid c := by
  intro d
  obtain ⟨k, hk⟩ : ls.sizeAt l d ∣ ls.grid d := by
    rw [sizeAt_eq, grid_eq]
    exact place_dvd _ hl
  have hlt := hx d
  have hpos : 0 < ls.sizeAt l d := Nat.pos_of_ne_zero fun hzero => by simp [hk, hzero] at hlt
  rw [hk, Nat.mul_comm, ← Nat.div_lt_iff_lt_mul hpos] at hlt ⊢
  rwa [hpart d]

end Levels

namespace HwTopo

variable (t : HwTopo)

/-- The resource of a level that the rank is in: the coordinates from this level on. -/
def resource (l : ℕ) : List (Arr ℕ) := t.levelGridCoord.take (t.levels.levels.length - l)

variable {t} {l : ℕ}

/-- The coordinates from a level on, as digits. -/
theorem resource_eq (hbox : InBox t.levels.grid t.gridCoord) (hl : l ≤ t.levels.levels.length) :
    t.resource l = (List.range' l (t.levels.levels.length - l)).reverse.map fun j d =>
      digit (t.levels.radix d) (t.gridCoord d) j := by
  rw [resource, levelGridCoord_eq hbox, ← List.map_take, List.take_reverse, List.length_range]
  congr 2
  rw [List.range_eq_range', List.drop_range']
  congr 1 <;> omega

/-- Two ranks are in the same resource of a level if they are in the same part of the size of the level. -/
theorem resource_eq_iff {t' : HwTopo} (hlevels : t'.levels = t.levels) (hl : l ≤ t.levels.levels.length)
    (hbox : InBox t.levels.grid t.gridCoord) (hbox' : InBox t'.levels.grid t'.gridCoord) :
    t'.resource l = t.resource l ↔
      ∀ d, t'.gridCoord d / t.levels.sizeAt l d = t.gridCoord d / t.levels.sizeAt l d := by
  rw [resource_eq hbox hl, resource_eq hbox' (hlevels ▸ hl), hlevels, List.map_inj_left]
  have hdigits (d : Fin 3) := div_place_eq_iff (m := t.levels.radix d) hl
    (t.levels.grid_eq d ▸ hlevels ▸ hbox' d) (t.levels.grid_eq d ▸ hbox d)
  simp only [Levels.sizeAt_eq, hdigits, List.mem_reverse, List.mem_range'_1, funext_iff]
  constructor
  · intro h d j hj hjn
    exact h j ⟨hj, by omega⟩ d
  · intro h j hj d
    exact h d j hj.1 (by omega)

end HwTopo

section Counting

variable {b : Builder} {hwcart : RankMap b.levels.grid} {l r : ℕ}

/-- The ranks in the resource of a level that a rank is in. -/
theorem card_resource (hl : l ≤ b.levels.levels.length) (hr : r < volume b.levels.grid) :
    ((Finset.range (volume b.levels.grid)).filter fun r' =>
      (b.build hwcart r').resource l = (b.build hwcart r).resource l).card = b.levels.size l := by
  have hbox {r : ℕ} (hr : r < volume b.levels.grid) : InBox b.levels.grid (hwcart.coordOf r) :=
    hwcart.coord_inBox r hr
  have hmem {r' : ℕ} (hr' : r' < volume b.levels.grid) :
      (b.build hwcart r').resource l = (b.build hwcart r).resource l ↔
        ∀ d, hwcart.coordOf r' d / b.levels.sizeAt l d = hwcart.coordOf r d / b.levels.sizeAt l d :=
    HwTopo.resource_eq_iff (t := b.build hwcart r) rfl hl (hbox hr) (hbox hr')
  have hpos (d : Fin 3) : 0 < b.levels.sizeAt l d := by
    have hgrid : 0 < b.levels.grid d := Nat.zero_lt_of_lt (hbox hr d)
    rw [Levels.grid_eq] at hgrid
    rw [Levels.sizeAt_eq]
    exact Nat.pos_of_dvd_of_pos (place_dvd _ hl) hgrid
  -- the coordinates of these ranks are a box
  let part (d : Fin 3) : Finset ℕ :=
    let corner := hwcart.coordOf r d / b.levels.sizeAt l d * b.levels.sizeAt l d
    Finset.Ico corner (corner + b.levels.sizeAt l d)
  have hpart (d : Fin 3) (x : ℕ) :
      x ∈ part d ↔ x / b.levels.sizeAt l d = hwcart.coordOf r d / b.levels.sizeAt l d := by
    have hd := hpos d
    rw [Finset.mem_Ico, Nat.div_eq_iff hd]
    omega
  have hcard : (Fintype.piFinset part).card = b.levels.size l := by
    rw [Fintype.card_piFinset, Fin.prod_univ_three, Levels.size_eq]
    simp [part]
  rw [← hcard]
  apply Finset.card_nbij' hwcart.coordOf hwcart.rankOf
  · intro r' hr'
    simp only [Finset.coe_filter, Finset.mem_range, Set.mem_ofPred_eq] at hr'
    simp only [Finset.mem_coe, Fintype.mem_piFinset, hpart]
    exact (hmem hr'.1).mp hr'.2
  · intro c hc
    simp only [Finset.mem_coe, Fintype.mem_piFinset, hpart] at hc
    have hin : InBox b.levels.grid c := Levels.inBox_of_div_eq hl (hbox hr) hc
    have hlt := hwcart.rank_lt c hin
    simp only [Finset.coe_filter, Finset.mem_range, Set.mem_ofPred_eq]
    refine ⟨hlt, (hmem hlt).mpr fun d => ?_⟩
    rw [hwcart.coord_rank c hin]
    exact hc d
  · intro r' hr'
    simp only [Finset.coe_filter, Finset.mem_range, Set.mem_ofPred_eq] at hr'
    exact hwcart.rank_coord r' hr'.1
  · intro c hc
    simp only [Finset.mem_coe, Fintype.mem_piFinset, hpart] at hc
    exact hwcart.coord_rank c (Levels.inBox_of_div_eq hl (hbox hr) hc)

/-- The resources of a level that ranks are in. -/
theorem card_resources (hl : l ≤ b.levels.levels.length) :
    ((Finset.range (volume b.levels.grid)).image fun r => (b.build hwcart r).resource l).card =
      b.levels.count l := by
  set ranks := Finset.range (volume b.levels.grid) with hranks
  have hfiber : ∀ c ∈ ranks.image fun r => (b.build hwcart r).resource l,
      (ranks.filter fun r' => (b.build hwcart r').resource l = c).card = b.levels.size l := by
    intro c hc
    obtain ⟨r, hr, rfl⟩ := Finset.mem_image.mp hc
    exact card_resource hl (Finset.mem_range.mp hr)
  have htotal : b.levels.size l * (ranks.image fun r => (b.build hwcart r).resource l).card =
      b.levels.size l * b.levels.count l := by
    rw [Levels.size_mul_count hl, ← Finset.card_range (volume b.levels.grid)]
    exact le_antisymm (Finset.mul_card_image_le_card _ _ fun c hc => (hfiber c hc).ge)
      (Finset.card_le_mul_card_image _ _ fun c hc => (hfiber c hc).le)
  have hpos : 0 < b.levels.size l := by
    rw [Levels.size_eq_prod]
    refine Finset.prod_pos fun j hj => ?_
    have hextent := Levels.extent_pos (lt_of_lt_of_le (Finset.mem_range.mp hj) hl)
    exact Nat.mul_pos (Nat.mul_pos (hextent 0) (hextent 1)) (hextent 2)
  exact Nat.eq_of_mul_eq_mul_left hpos htotal

end Counting

/-- `size` of a resource that is in use is the number of ranks in the same such resource as any rank, and
`count` is the number of these resources, for every mapping between ranks and coordinates. For a resource
that is not in use there is neither. -/
theorem resources_counted (b : Builder) (hwcart : RankMap b.levels.grid) :
    let ranks := Finset.range (volume b.levels.grid)
    (∀ l, (hl : l < b.levels.levels.length) →
      (∀ r ∈ ranks, b.levels.sizeOf b.levels.levels[l] = some (ranks.filter fun r' =>
        (b.build hwcart r').resource l = (b.build hwcart r).resource l).card) ∧
      b.levels.countOf b.levels.levels[l] =
        some (ranks.image fun r => (b.build hwcart r).resource l).card) ∧
    ∀ s ∉ b.levels.levels, b.levels.sizeOf s = none ∧ b.levels.countOf s = none := by
  intro ranks
  refine ⟨fun l hl => ⟨fun r hr => ?_, ?_⟩, fun s hs => ?_⟩
  · rw [Levels.sizeOf, b.getLevel_eq hl, card_resource hl.le (Finset.mem_range.mp hr), Option.map_some]
  · rw [Levels.countOf, b.getLevel_eq hl, card_resources hl.le, Option.map_some]
  · have hnone : b.levels.getLevel s = none := by
      rw [Levels.getLevel, List.findIdx?_eq_none_iff]
      intro s' hs'
      exact beq_eq_false_iff_ne.mpr fun heq => hs (heq ▸ hs')
    simp [Levels.sizeOf, Levels.countOf, hnone]

/-- The six nodes of the sample. -/
theorem resources_counted_nodes : ((Finset.range 12).image fun r =>
    (sampleBuilder.build (RankMap.xyz _ (by decide)) r).resource 2).card = 6 := by
  have hnodes := ((resources_counted sampleBuilder (RankMap.xyz _ (by decide))).1 2 (by decide)).2
  exact (Option.some.inj hnodes).symm

end Ghexbench.Topo
