import Ghexbench.Cartex.Fields
import Ghexbench.Common.Arithmetic
import Ghexbench.Common.MixedRadix
import Mathlib.Data.List.Nodup

/-!
# Views of memory

`memory_view` addresses the elements of a `memory` by coordinates in any number of dimensions. The strides
are partial products of the extents, and all numbers are of type `unsigned int`. As long as the product of
the extents fits, the coordinates in range are numbered from zero on, and `print` visits each of them once.
-/

namespace Ghexbench.Cartex

open Ghexbench.Common Ghexbench.Common.MixedRadix

/-- `memory_view::array_type`, for `n + 1` dimensions. -/
abbrev Coord (n : ℕ) := Fin (n + 1) → UInt32

/-- `m_strides`: the partial products of the extents. -/
def strides {n : ℕ} (dims : Coord n) : Coord n :=
  Fin.induction (motive := fun _ => UInt32) (dims 0) fun d stride => stride * dims d.succ

/-- `memory_view`, which asserts that the memory has as many elements as the last stride. -/
structure MemoryView (T : Type*) (n : ℕ) where
  m : List T
  dims : Coord n
  size_eq : (strides dims (Fin.last n)).toNat = m.length

/-- What `print` writes: blanks, an element at some coordinates, or the end of a line. -/
inductive Item (T : Type*) (n : ℕ)
  | blanks (width : ℤ)
  | element (width : ℕ) (coord : Coord n) (value : Option T)
  | newline

/-- The coordinates that are visited. -/
def Item.coord? {T : Type*} {n : ℕ} : Item T n → Option (Coord n)
  | element _ coord _ => some coord
  | _ => none

namespace MemoryView

variable {T : Type*} {n : ℕ} (v : MemoryView T n)

/-- `s_w`. -/
def sW : ℕ := 6

/-- The linear index in `operator()` after the pass for a dimension. -/
def indexUpTo (coord : Coord n) : Coord n :=
  Fin.induction (motive := fun _ => UInt32) (coord 0) fun d i =>
    i + coord d.succ * strides v.dims d.castSucc

/-- The linear index in `operator()`. -/
def linearIndex (coord : Coord n) : UInt32 := v.indexUpTo coord (Fin.last n)

/-- `operator()`: a read outside the memory has no result. -/
def get (coord : Coord n) : Option T := v.m[(v.linearIndex coord).toNat]?

/-- `print(0, coord)`. -/
def printRow (coord : Coord n) : List (Item T n) :=
  .blanks (if h : 1 < n + 1 then toInt (coord ⟨1, h⟩ + 1).toNat else 1) ::
    (List.range (v.dims 0).toNat).map fun x =>
      .element sW (Function.update coord 0 (.ofNat x)) (v.get (Function.update coord 0 (.ofNat x)))

/-- `print(d, coord)`. The branches for dimension 1 and for those above are the same. -/
def printFrom : Fin (n + 1) → Coord n → List (Item T n) :=
  Fin.induction (motive := fun _ => Coord n → List (Item T n)) v.printRow fun d print coord =>
    (List.range (v.dims d.succ).toNat).flatMap fun i =>
      print (Function.update coord d.succ (v.dims d.succ - 1 - .ofNat i)) ++ [.newline]

/-- `print`. -/
def print : List (Item T n) := v.printFrom (Fin.last n) fun _ => 0

/-- Coordinates in range. -/
def InRange (coord : Coord n) : Prop := ∀ d, coord d < v.dims d

/-- The coordinates that `print(d, coord)` visits, in order. -/
def visitedFrom (d : Fin (n + 1)) (coord : Coord n) : List (Coord n) :=
  (v.printFrom d coord).filterMap Item.coord?

/-- The coordinates that `print` visits, in order. -/
def visited : List (Coord n) := v.print.filterMap Item.coord?

end MemoryView

/-- Coordinates or extents as numbers. -/
def values {n : ℕ} (a : Coord n) : Fin (n + 1) → ℕ := fun d => (a d).toNat

section Values

variable {n : ℕ}

/-- A number below one of the type is a value of the type. -/
theorem toNat_ofNat_of_lt_toNat {m : UInt32} {x : ℕ} (hx : x < m.toNat) : (UInt32.ofNat x).toNat = x :=
  UInt32.toNat_ofNat_of_lt' (hx.trans m.toNat_lt)

/-- The coordinates in range as numbers are the arrays of digits below the extents. -/
theorem bijOn_values (dims : Coord n) : Set.BijOn values {c : Coord n | ∀ d, c d < dims d}
    {a | ∀ d, a d < values dims d} := by
  refine ⟨fun c hc d => UInt32.lt_iff_toNat_lt.mp (hc d), ?_, ?_⟩
  · intro c _ c' _ heq
    funext d
    exact UInt32.toNat_inj.mp (congrFun heq d)
  · intro a ha
    have hvalue (d : Fin (n + 1)) : (UInt32.ofNat (a d)).toNat = a d := toNat_ofNat_of_lt_toNat (ha d)
    refine ⟨fun d => .ofNat (a d), fun d => ?_, funext hvalue⟩
    rw [UInt32.lt_iff_toNat_lt, hvalue]
    exact ha d

/-- A stride is the value of the next place, as far as it fits. -/
theorem toNat_strides (dims : Coord n) (d : Fin (n + 1)) :
    (strides dims d).toNat = place (padded (values dims)) (d + 1) % 2 ^ 32 := by
  induction d using Fin.induction with
  | zero =>
    have hplace : place (padded (values dims)) 1 = (dims 0).toNat :=
      (Finset.prod_range_one _).trans (padded_val _ 0)
    change (dims 0).toNat = place (padded (values dims)) 1 % 2 ^ 32
    rw [hplace, Nat.mod_eq_of_lt (dims 0).toNat_lt]
  | succ d ih =>
    have hdim : padded (values dims) (d.val + 1) = (dims d.succ).toNat := padded_val _ d.succ
    have hplace : place (padded (values dims)) (d.val + 1 + 1) =
        place (padded (values dims)) (d.val + 1) * (dims d.succ).toNat :=
      place_succ.trans (congrArg _ hdim)
    change (strides dims d.castSucc * dims d.succ).toNat = _
    rw [UInt32.toNat_mul, ih, Fin.val_succ, hplace, Fin.val_castSucc, Nat.mod_mul_mod]

/-- The last stride is the product of the extents if it fits. -/
theorem toNat_strides_last {dims : Coord n} (hfits : ∏ d, values dims d < 2 ^ 32) :
    (strides dims (Fin.last n)).toNat = ∏ d, values dims d := by
  rw [toNat_strides, Fin.val_last, place_padded, Nat.mod_eq_of_lt hfits]

end Values

namespace MemoryView

variable {T : Type*} {n : ℕ} {v : MemoryView T n} {coord : Coord n}

/-- The index after a pass is the number of the coordinates so far, as far as it fits. -/
theorem toNat_indexUpTo (v : MemoryView T n) (coord : Coord n) (d : Fin (n + 1)) :
    (v.indexUpTo coord d).toNat =
      number (padded (values v.dims)) (padded (values coord)) (d + 1) % 2 ^ 32 := by
  induction d using Fin.induction with
  | zero =>
    have hnumber : number (padded (values v.dims)) (padded (values coord)) 1 = (coord 0).toNat := by
      rw [number, Finset.sum_range_one, place, Finset.prod_range_zero, Nat.mul_one]
      exact padded_val _ 0
    change (coord 0).toNat = number (padded (values v.dims)) (padded (values coord)) 1 % 2 ^ 32
    rw [hnumber, Nat.mod_eq_of_lt (coord 0).toNat_lt]
  | succ d ih =>
    have hcoord : padded (values coord) (d.val + 1) = (coord d.succ).toNat := padded_val _ d.succ
    have hnumber : number (padded (values v.dims)) (padded (values coord)) (d.val + 1 + 1) =
        number (padded (values v.dims)) (padded (values coord)) (d.val + 1) +
          (coord d.succ).toNat * place (padded (values v.dims)) (d.val + 1) :=
      number_succ.trans (congrArg (fun x => _ + x * _) hcoord)
    change (v.indexUpTo coord d.castSucc + coord d.succ * strides v.dims d.castSucc).toNat = _
    rw [UInt32.toNat_add, UInt32.toNat_mul, ih, toNat_strides, Fin.val_succ, hnumber, Fin.val_castSucc,
      Nat.mul_mod_mod, ← Nat.add_mod]

/-- The memory has as many elements as there are coordinates in range. -/
theorem length_eq (hfits : ∏ d, values v.dims d < 2 ^ 32) : v.m.length = ∏ d, values v.dims d :=
  v.size_eq.symm.trans (toNat_strides_last hfits)

/-- The index of coordinates in range is their number. -/
theorem toNat_linearIndex (hfits : ∏ d, values v.dims d < 2 ^ 32) (hcoord : v.InRange coord) :
    (v.linearIndex coord).toNat = number (padded (values v.dims)) (padded (values coord)) (n + 1) := by
  have hlt := (bijOn_number (values v.dims)).mapsTo ((bijOn_values v.dims).mapsTo hcoord)
  rw [linearIndex, toNat_indexUpTo, Fin.val_last]
  exact Nat.mod_eq_of_lt (hlt.trans hfits)

/-- The coordinates in range are numbered from zero on. -/
theorem bijOn_linearIndex (hfits : ∏ d, values v.dims d < 2 ^ 32) :
    Set.BijOn (fun c => (v.linearIndex c).toNat) {c | v.InRange c} (Set.Iio v.m.length) := by
  rw [length_eq hfits]
  exact ((bijOn_number (values v.dims)).comp (bijOn_values v.dims)).congr fun c hc =>
    (toNat_linearIndex hfits hc).symm

section Print

variable {m y : UInt32} {i : ℕ} {d : Fin (n + 1)} {c : Coord n}

/-- Counting up to an extent. -/
theorem exists_ofNat_iff : (∃ x < m.toNat, .ofNat x = y) ↔ y < m := by
  rw [UInt32.lt_iff_toNat_lt]
  constructor
  · rintro ⟨x, hx, rfl⟩
    rwa [toNat_ofNat_of_lt_toNat hx]
  · intro hy
    exact ⟨y.toNat, hy, UInt32.ofNat_toNat⟩

/-- Counting down from an extent. -/
theorem toNat_countDown (hi : i < m.toNat) : (m - 1 - .ofNat i : UInt32).toNat = m.toNat - 1 - i := by
  have hone : (1 : UInt32) ≤ m := UInt32.le_iff_toNat_le.mpr (Nat.one_le_of_lt hi)
  have hsub : (m - 1).toNat = m.toNat - 1 := UInt32.toNat_sub_of_le _ _ hone
  have hvalue := toNat_ofNat_of_lt_toNat hi
  have hle : UInt32.ofNat i ≤ m - 1 := by
    rw [UInt32.le_iff_toNat_le, hvalue, hsub]
    omega
  rw [UInt32.toNat_sub_of_le _ _ hle, hsub, hvalue]

/-- Counting down from an extent. -/
theorem exists_countDown_iff : (∃ i < m.toNat, m - 1 - .ofNat i = y) ↔ y < m := by
  rw [UInt32.lt_iff_toNat_lt]
  constructor
  · rintro ⟨i, hi, rfl⟩
    rw [toNat_countDown hi]
    omega
  · intro hy
    have hlt : m.toNat - 1 - y.toNat < m.toNat := by omega
    refine ⟨_, hlt, UInt32.toNat_inj.mp ?_⟩
    rw [toNat_countDown hlt]
    omega

/-- In the first dimension a row is visited. -/
theorem visitedFrom_zero (v : MemoryView T n) (coord : Coord n) : v.visitedFrom 0 coord =
    (List.range (v.dims 0).toNat).map fun x => Function.update coord 0 (.ofNat x) := by
  change (v.printRow coord).filterMap Item.coord? = _
  simp only [printRow, List.filterMap_cons, Item.coord?, List.filterMap_map, Function.comp_def,
    List.filterMap_eq_map']

/-- In another dimension what is below is visited for every coordinate. -/
theorem visitedFrom_succ (v : MemoryView T n) (d : Fin n) (coord : Coord n) : v.visitedFrom d.succ coord =
    (List.range (v.dims d.succ).toNat).flatMap fun i => v.visitedFrom d.castSucc
      (Function.update coord d.succ (v.dims d.succ - 1 - .ofNat i)) := by
  have hline : [Item.newline].filterMap (Item.coord? (T := T) (n := n)) = [] := rfl
  change ((List.range (v.dims d.succ).toNat).flatMap fun i => v.printFrom d.castSucc
    (Function.update coord d.succ (v.dims d.succ - 1 - .ofNat i)) ++ [.newline]).filterMap Item.coord? = _
  simp only [List.filterMap_flatMap, List.filterMap_append, hline, List.append_nil]
  rfl

/-- Visited are the coordinates that are in range up to a dimension and fixed above. -/
theorem mem_visitedFrom : c ∈ v.visitedFrom d coord ↔
    (∀ e ≤ d, c e < v.dims e) ∧ ∀ e, d < e → c e = coord e := by
  induction d using Fin.induction generalizing coord with
  | zero =>
    simp only [visitedFrom_zero, List.mem_map, List.mem_range]
    constructor
    · rintro ⟨x, hx, rfl⟩
      constructor
      · intro e he
        rw [Fin.le_zero_iff.mp he, Function.update_self]
        exact exists_ofNat_iff.mp ⟨x, hx, rfl⟩
      · intro e he
        rw [Function.update_of_ne he.ne']
    · rintro ⟨hbelow, hfixed⟩
      obtain ⟨x, hx, heq⟩ := exists_ofNat_iff.mpr (hbelow 0 le_rfl)
      refine ⟨x, hx, (Function.eq_update_iff.mpr ⟨heq.symm, fun e he => ?_⟩).symm⟩
      exact hfixed e (Fin.pos_iff_ne_zero.mpr he)
  | succ d ih =>
    simp only [visitedFrom_succ, List.mem_flatMap, List.mem_range, ih, Fin.castSucc_lt_iff_succ_le]
    constructor
    · rintro ⟨i, hi, hbelow, hfixed⟩
      have hlast := hfixed d.succ le_rfl
      rw [Function.update_self] at hlast
      constructor
      · intro e he
        cases he.lt_or_eq with
        | inl hlt => exact hbelow e (Fin.le_castSucc_iff.mpr hlt)
        | inr heq => exact heq ▸ exists_countDown_iff.mp ⟨i, hi, hlast.symm⟩
      · intro e he
        rw [hfixed e he.le, Function.update_of_ne he.ne']
    · rintro ⟨hbelow, hfixed⟩
      obtain ⟨i, hi, heq⟩ := exists_countDown_iff.mpr (hbelow d.succ le_rfl)
      refine ⟨i, hi, fun e he => hbelow e (he.trans d.castSucc_le_succ), fun e he => ?_⟩
      cases he.lt_or_eq with
      | inl hlt => rw [Function.update_of_ne hlt.ne', hfixed e hlt]
      | inr hsame => rw [← hsame, Function.update_self, heq]

/-- Nothing is visited twice. -/
theorem nodup_visitedFrom (v : MemoryView T n) (d : Fin (n + 1)) (coord : Coord n) :
    (v.visitedFrom d coord).Nodup := by
  induction d using Fin.induction generalizing coord with
  | zero =>
    rw [visitedFrom_zero]
    refine List.Nodup.map_on ?_ List.nodup_range
    intro x hx x' hx' heq
    have hvalue := congrArg UInt32.toNat (Function.update_injective coord 0 heq)
    rwa [toNat_ofNat_of_lt_toNat (List.mem_range.mp hx), toNat_ofNat_of_lt_toNat (List.mem_range.mp hx')]
      at hvalue
  | succ d ih =>
    rw [visitedFrom_succ, List.nodup_flatMap]
    refine ⟨fun i _ => ih _, List.nodup_range.pairwise_of_forall_ne fun i hi i' hi' hne => ?_⟩
    -- the coordinate in this dimension tells the passes of the loop apart
    refine List.disjoint_left.mpr fun c hc hc' => hne ?_
    have hlast := (mem_visitedFrom.mp hc).2 d.succ d.castSucc_lt_succ
    have hlast' := (mem_visitedFrom.mp hc').2 d.succ d.castSucc_lt_succ
    rw [Function.update_self] at hlast hlast'
    have hvalue := congrArg UInt32.toNat (hlast.symm.trans hlast')
    rw [List.mem_range] at hi hi'
    rw [toNat_countDown hi, toNat_countDown hi'] at hvalue
    omega

end Print

/-- In three dimensions the index is the one of the offsets into the fields. -/
theorem toNat_linearIndex_three {v : MemoryView T 2} {c : Coord 2}
    (hfits : ∏ d, values v.dims d < 2 ^ 32) (hc : v.InRange c) :
    (v.linearIndex c).toNat = index (values v.dims) (values c) := by
  rw [toNat_linearIndex hfits hc, ← viewIndex_eq, viewIndex]
  simp [number, place, padded, Finset.sum_range_succ, Finset.prod_range_succ]

end MemoryView

/-- If the product of the extents fits in `unsigned int`, the coordinates in range are numbered from zero to
the size of the memory, `operator()` reads the element with the number of its coordinates, and `print` visits
each of them once. In three dimensions the number is the offset in a field. -/
theorem view_index_bijective {T : Type*} {n : ℕ} (v : MemoryView T n)
    (hfits : ∏ d, values v.dims d < 2 ^ 32) :
    v.m.length = ∏ d, values v.dims d ∧
    Set.BijOn (fun c => (v.linearIndex c).toNat) {c | v.InRange c} (Set.Iio v.m.length) ∧
    (∀ c, v.InRange c → ∃ h : (v.linearIndex c).toNat < v.m.length,
      v.get c = some v.m[(v.linearIndex c).toNat]) ∧
    (v.visited.Nodup ∧ ∀ c, c ∈ v.visited ↔ v.InRange c) ∧
    ∀ w : MemoryView T 2, ∏ d, values w.dims d < 2 ^ 32 → ∀ c, w.InRange c →
      (w.linearIndex c).toNat = index (values w.dims) (values c) := by
  have hbij := MemoryView.bijOn_linearIndex hfits
  refine ⟨MemoryView.length_eq hfits, hbij, ?_, ⟨v.nodup_visitedFrom _ _, fun c => ?_⟩, ?_⟩
  · intro c hc
    have hlt : (v.linearIndex c).toNat < v.m.length := hbij.mapsTo hc
    exact ⟨hlt, List.getElem?_eq_getElem hlt⟩
  · have hvisited : c ∈ v.visited ↔ _ := MemoryView.mem_visitedFrom
    rw [hvisited]
    constructor
    · intro h d
      exact h.1 d (Fin.le_last d)
    · intro h
      exact ⟨fun d _ => h d, fun d hd => absurd (Fin.le_last d) (not_le.mpr hd)⟩
  · intro w hw c hc
    exact MemoryView.toNat_linearIndex_three hw hc

/-- A view of twelve elements. -/
def twelveElements : MemoryView ℕ 2 := ⟨List.range 12, ![2, 3, 2], rfl⟩

/-- The last element of the view, and the one before it in the second dimension. -/
theorem view_index_last : twelveElements.get ![1, 2, 1] = some 11 ∧ twelveElements.get ![1, 1, 1] = some 9 ∧
    (twelveElements.linearIndex ![1, 2, 1]).toNat = index ![2, 3, 2] ![1, 2, 1] := by
  have hlast : twelveElements.InRange ![1, 2, 1] := fun d => by fin_cases d <;> decide
  have hbefore : twelveElements.InRange ![1, 1, 1] := fun d => by fin_cases d <;> decide
  obtain ⟨-, -, hget, -, hthree⟩ := view_index_bijective twelveElements (by decide)
  obtain ⟨_, hread⟩ := hget _ hlast
  obtain ⟨_, hread'⟩ := hget _ hbefore
  exact ⟨hread.trans rfl, hread'.trans rfl,
    (hthree twelveElements (by decide) _ hlast).trans (by decide)⟩

end Ghexbench.Cartex
