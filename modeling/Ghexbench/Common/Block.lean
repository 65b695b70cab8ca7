import Ghexbench.Common.Grid
import Ghexbench.Common.Loops
import Mathlib.Tactic.Ring

/-!
# Blocks of an array

A three-dimensional array is stored with the first dimension running fastest. A block is a box of
its cells, given by its first cell and its size. The elements of a block are read into a list and
written from a list in the order in which they are stored. These are the subarray types of MPI in
Fortran order; loop nests that copy blocks are compared with them.
-/

namespace Ghexbench.Common

/-- A box of cells in an array. -/
structure Block where
  offset : Arr ℕ
  size : Arr ℕ

namespace Block

variable {V : Type*} (b : Block) {b' : Block} {dims c k : Arr ℕ} {a : ℕ → V} {data : List V}

/-- A cell of the block. -/
def Mem (c : Arr ℕ) : Prop := ∀ d, b.offset d ≤ c d ∧ c d < b.offset d + b.size d

instance (c : Arr ℕ) : Decidable (b.Mem c) := by unfold Mem; infer_instance

/-- The cell at a position in the block. -/
def cell (k : Arr ℕ) : Arr ℕ := fun d => b.offset d + k d

/-- The position of a cell in the block. -/
def rel (c : Arr ℕ) : Arr ℕ := fun d => c d - b.offset d

/-- The elements of the block. -/
def read (dims : Arr ℕ) (a : ℕ → V) : List V :=
  contents (volume b.size) fun k => a (index dims (b.cell (unindex b.size k)))

/-- Overwrite the elements of the block, as far as there are data. -/
def write (dims : Arr ℕ) (data : List V) (a : ℕ → V) (i : ℕ) : V :=
  if b.Mem (unindex dims i) then data.getD (index b.size (b.rel (unindex dims i))) (a i) else a i

/-- The block lies inside an array. -/
def Fits (dims : Arr ℕ) : Prop := ∀ d, b.offset d + b.size d ≤ dims d

/-- Two blocks without common cells. -/
def Disjoint (b b' : Block) : Prop := ∀ c, b.Mem c → ¬ b'.Mem c

variable {b}

/-- Positions belong to cells of the block. -/
theorem mem_cell (hk : InBox b.size k) : b.Mem (b.cell k) :=
  fun d => ⟨Nat.le_add_right _ _, Nat.add_lt_add_left (hk d) _⟩

/-- Cells of the block have positions. -/
theorem Mem.rel_inBox (hc : b.Mem c) : InBox b.size (b.rel c) := by
  intro d
  obtain ⟨hle, hlt⟩ := hc d
  change c d - b.offset d < b.size d
  omega

/-- The cell at the position of a cell. -/
theorem Mem.cell_rel (hc : b.Mem c) : b.cell (b.rel c) = c := by
  funext d
  exact Nat.add_sub_cancel' (hc d).1

/-- The position of the cell at a position. -/
theorem rel_cell (b : Block) (k : Arr ℕ) : b.rel (b.cell k) = k := by
  funext d
  exact Nat.add_sub_cancel_left _ _

/-- Cells of a block inside an array are cells of the array. -/
theorem Mem.inBox (hc : b.Mem c) (hfits : b.Fits dims) : InBox dims c :=
  fun d => lt_of_lt_of_le (hc d).2 (hfits d)

@[simp] theorem length_read (b : Block) (dims : Arr ℕ) (a : ℕ → V) :
    (b.read dims a).length = volume b.size := by simp [read]

/-- An element of the block. -/
theorem getD_read (hk : InBox b.size k) (v : V) :
    (b.read dims a).getD (index b.size k) v = a (index dims (b.cell k)) := by
  rw [read, getD_contents (index_lt hk), unindex_index (hk 0) (hk 1)]

/-- An element of the block, at its position in the list. -/
theorem getElem?_read (hk : InBox b.size k) :
    (b.read dims a)[index b.size k]? = some (a (index dims (b.cell k))) := by
  have hlt := index_lt hk
  simp [read, contents, hlt, unindex_index (hk 0) (hk 1)]

/-- An element of an array in which a block has been overwritten. -/
theorem write_apply (hc : InBox dims c) : b.write dims data a (index dims c) =
    if b.Mem c then data.getD (index b.size (b.rel c)) (a (index dims c)) else a (index dims c) := by
  rw [write, unindex_index (hc 0) (hc 1)]

/-- A block that has been overwritten with another one. -/
theorem write_read_apply (hc : InBox dims c) (hmem : b.Mem c) (hsize : b'.size = b.size)
    {dims' : Arr ℕ} {a' : ℕ → V} : b.write dims (b'.read dims' a') a (index dims c) =
      a' (index dims' (b'.cell (b.rel c))) := by
  rw [write_apply hc, if_pos hmem, ← hsize, getD_read]
  rw [hsize]
  exact hmem.rel_inBox

/-- A block is not changed by data for another one. -/
theorem read_write (hdisj : b.Disjoint b') (hfits : b.Fits dims) :
    b.read dims (b'.write dims data a) = b.read dims a := by
  unfold read contents
  apply List.map_congr_left
  intro i hi
  have hmem : b.Mem (b.cell (unindex b.size i)) := by
    apply mem_cell
    exact inBox_unindex (List.mem_range.mp hi)
  rw [write_apply (hmem.inBox hfits), if_neg (hdisj _ hmem)]

/-- Two blocks may be overwritten in any order. -/
theorem write_comm (hdisj : b.Disjoint b') {data' : List V} :
    b.write dims data (b'.write dims data' a) = b'.write dims data' (b.write dims data a) := by
  funext i
  unfold write
  by_cases hmem : b.Mem (unindex dims i)
  · simp [hmem, hdisj _ hmem]
  · simp [hmem]

section Elements

/-- The places of the elements of the block in memory. -/
def elements (b : Block) (dims : Arr ℕ) : Set ℕ := {i | ∃ c, b.Mem c ∧ index dims c = i}

/-- An element of the array belongs to the block if its cell does. -/
theorem mem_elements_iff (hfits : b.Fits dims) (hc : InBox dims c) :
    index dims c ∈ b.elements dims ↔ b.Mem c := by
  constructor
  · rintro ⟨c', hc', heq⟩
    have hbox := hc'.inBox hfits
    rwa [← unindex_index (hc 0) (hc 1), ← heq, unindex_index (hbox 0) (hbox 1)]
  · intro hmem
    exact ⟨c, hmem, rfl⟩

/-- Blocks without common cells have no common elements. -/
theorem not_mem_elements {i : ℕ} (hdisj : b.Disjoint b') (hfits : b.Fits dims)
    (hfits' : b'.Fits dims) (hi : i ∈ b.elements dims) : i ∉ b'.elements dims := by
  obtain ⟨c, hc, rfl⟩ := hi
  rw [mem_elements_iff hfits' (hc.inBox hfits)]
  exact hdisj c hc

/-- Overwriting a block changes only its elements. -/
theorem write_of_not_mem {i : ℕ} (hi : i ∉ b.elements dims) : b.write dims data a i = a i := by
  apply if_neg
  intro hmem
  exact hi ⟨_, hmem, index_unindex dims i⟩

/-- Reading a block depends only on its elements. -/
theorem read_congr {a' : ℕ → V} (h : ∀ i ∈ b.elements dims, a i = a' i) :
    b.read dims a = b.read dims a' := by
  apply List.map_congr_left
  intro k hk
  apply h
  exact ⟨_, mem_cell (inBox_unindex (List.mem_range.mp hk)), rfl⟩

/-- The places of the elements of the block in memory, in the order in which they are stored. -/
def places (b : Block) (dims : Arr ℕ) : List ℕ :=
  contents (volume b.size) fun i => index dims (b.cell (unindex b.size i))

@[simp] theorem length_places (b : Block) (dims : Arr ℕ) : (b.places dims).length = volume b.size := by
  simp [places]

/-- The places of a block inside an array are all different. -/
theorem nodup_places (hfits : b.Fits dims) : (b.places dims).Nodup := by
  apply List.Nodup.map_on _ List.nodup_range
  intro n hn n' hn' heq
  have hbox := inBox_unindex (List.mem_range.mp hn)
  have hbox' := inBox_unindex (List.mem_range.mp hn')
  have hin := (mem_cell hbox).inBox hfits
  have hin' := (mem_cell hbox').inBox hfits
  have hcell : b.cell (unindex b.size n) = b.cell (unindex b.size n') := by
    rw [← unindex_index (hin 0) (hin 1), heq, unindex_index (hin' 0) (hin' 1)]
  have hpos : unindex b.size n = unindex b.size n' := by
    rw [← b.rel_cell (unindex b.size n), hcell, b.rel_cell]
  rw [← index_unindex b.size n, hpos, index_unindex]

/-- The elements of the block are those at its places. -/
theorem map_places (b : Block) (dims : Arr ℕ) (a : ℕ → V) : (b.places dims).map a = b.read dims a :=
  List.map_map

/-- A loop nest visits the places of a block in order. -/
theorem flatMap_eq_places {x y z : ℕ} (hsize : b.size = ![x, y, z]) {f : ℕ → ℕ → ℕ → ℕ}
    (hf : ∀ k, f (k 0) (k 1) (k 2) = index dims (b.cell k)) :
    ((List.range z).flatMap fun z => (List.range y).flatMap fun y => (List.range x).map fun x =>
      f x y z) = b.places dims := by
  have hvolume : volume b.size = x * y * z := by
    rw [hsize]
    rfl
  simp only [flatMap_range_map x y fun i j => f i j _,
    flatMap_range_map (x * y) z fun i j => f (i % x) (i / x) j, places, contents, hvolume]
  apply List.map_congr_left
  intro i _
  rw [← hf, hsize, Nat.mod_mul_right_mod, Nat.mod_mul_right_div_self,
    ← Nat.div_div_eq_div_mul]
  rfl

/-- The elements that go to the places of a block. -/
theorem mem_zip_places {i : ℕ} {v : V} (hlength : data.length = volume b.size) :
    (i, v) ∈ (b.places dims).zip data ↔
      ∃ k, InBox b.size k ∧ i = index dims (b.cell k) ∧ data[index b.size k]? = some v := by
  rw [List.mem_iff_getElem?]
  constructor
  · rintro ⟨n, hn⟩
    obtain ⟨hplace, hdata⟩ := List.getElem?_zip_eq_some.mp hn
    have hlt : n < volume b.size := hlength ▸ (List.getElem?_eq_some_iff.mp hdata).1
    refine ⟨unindex b.size n, inBox_unindex hlt, ?_, ?_⟩
    · simp [places, contents, hlt] at hplace
      exact hplace.symm
    · rw [index_unindex]
      exact hdata
  · rintro ⟨k, hk, rfl, hdata⟩
    refine ⟨index b.size k, List.getElem?_zip_eq_some.mpr ⟨?_, hdata⟩⟩
    simp [places, contents, index_lt hk, unindex_index (hk 0) (hk 1)]

/-- Overwriting the elements at the places of a block, one after another. -/
theorem assign_places (hfits : b.Fits dims) (hlength : data.length = volume b.size) (a : ℕ → V) :
    assign ((b.places dims).zip data) a = b.write dims data a := by
  funext i
  by_cases hmem : b.Mem (unindex dims i)
  · have hrel := hmem.rel_inBox
    obtain ⟨v, hv⟩ : ∃ v, data[index b.size (b.rel (unindex dims i))]? = some v :=
      ⟨_, List.getElem?_eq_getElem (hlength ▸ index_lt hrel)⟩
    rw [write, if_pos hmem, List.getD_eq_getElem?_getD, hv, Option.getD_some]
    apply assign_of_mem
    · exact (mem_zip_places hlength).mpr
        ⟨_, hrel, by rw [hmem.cell_rel, index_unindex], hv⟩
    · rintro ⟨j, v'⟩ hw rfl
      obtain ⟨k, hk, hj, hv'⟩ := (mem_zip_places hlength).mp hw
      have hbox := (mem_cell hk).inBox hfits
      dsimp only at hv ⊢
      rw [hj, unindex_index (hbox 0) (hbox 1), rel_cell, hv'] at hv
      exact Option.some.inj hv
  · rw [write, if_neg hmem]
    apply assign_of_forall_ne
    rintro ⟨j, v⟩ hw rfl
    obtain ⟨k, hk, hj, -⟩ := (mem_zip_places hlength).mp hw
    have hbox := (mem_cell hk).inBox hfits
    apply hmem
    rw [hj, unindex_index (hbox 0) (hbox 1)]
    exact mem_cell hk

end Elements

section Loops

variable {writes : List (ℕ × V)} {buffer : ℕ → V}

/-- Assignments that copy a block into a buffer. -/
theorem contents_assign (h : ∀ w, w ∈ writes ↔
    ∃ k, InBox b.size k ∧ w = (index b.size k, a (index dims (b.cell k)))) :
    contents (volume b.size) (assign writes buffer) = b.read dims a := by
  unfold read contents
  apply List.map_congr_left
  intro i hi
  have hbox : InBox b.size (unindex b.size i) := inBox_unindex (List.mem_range.mp hi)
  have hindex := index_unindex b.size i
  apply assign_of_mem
  · rw [h]
    exact ⟨_, hbox, by rw [hindex]⟩
  · intro w hw hwi
    obtain ⟨k, hk, rfl⟩ := (h w).mp hw
    have hki : k = unindex b.size i := by rw [← hwi, unindex_index (hk 0) (hk 1)]
    rw [hki]

/-- A loop nest that copies a block into a buffer. -/
theorem contents_forRange {x y z : ℕ} (hsize : b.size = ![x, y, z]) {dst src : ℕ → ℕ → ℕ → ℕ}
    (hdst : ∀ k, dst (k 0) (k 1) (k 2) = index b.size k)
    (hsrc : ∀ k, src (k 0) (k 1) (k 2) = index dims (b.cell k)) :
    contents (volume b.size) (forRange z (fun z => forRange y fun y => forRange x fun x buffer =>
      Function.update buffer (dst x y z) (a (src x y z))) buffer) = b.read dims a := by
  rw [Assigns.forRange fun z => .forRange fun y => .forRange fun x => .update _ _]
  apply contents_assign
  intro w
  simp only [List.mem_flatMap, List.mem_range, List.mem_singleton]
  rw [exists_inBox, ← hsize]
  simp only [hdst, hsrc]

/-- A loop nest that assigns a value to each element of a block. -/
theorem forRange_apply {x y z : ℕ} (hsize : b.size = ![x, y, z]) (hfits : b.Fits dims)
    {dst : ℕ → ℕ → ℕ → ℕ} (hdst : ∀ k, dst (k 0) (k 1) (k 2) = index dims (b.cell k))
    (val : ℕ → ℕ → ℕ → V) (hk : InBox b.size k) :
    forRange z (fun z => forRange y fun y => forRange x fun x a =>
      Function.update a (dst x y z) (val x y z)) a (index dims (b.cell k)) =
      val (k 0) (k 1) (k 2) := by
  rw [Assigns.forRange fun z => .forRange fun y => .forRange fun x => .update _ _]
  have hwrites (w : ℕ × V) : w ∈ ((List.range z).flatMap fun z => (List.range y).flatMap fun y =>
      (List.range x).flatMap fun x => [(dst x y z, val x y z)]) ↔
      ∃ k, InBox b.size k ∧ w = (index dims (b.cell k), val (k 0) (k 1) (k 2)) := by
    simp only [List.mem_flatMap, List.mem_range, List.mem_singleton]
    rw [exists_inBox, ← hsize]
    simp only [hdst]
  apply assign_of_mem
  · rw [hwrites]
    exact ⟨k, hk, rfl⟩
  · intro w hw hwi
    obtain ⟨k', hk', rfl⟩ := (hwrites w).mp hw
    have hbox := (mem_cell hk).inBox hfits
    have hbox' := (mem_cell hk').inBox hfits
    have hcell : b.cell k' = b.cell k := by
      rw [← unindex_index (hbox' 0) (hbox' 1), ← unindex_index (hbox 0) (hbox 1)]
      exact congrArg (unindex dims) hwi
    have hkk : k' = k := by rw [← rel_cell b k', ← rel_cell b k, hcell]
    rw [hkk]

/-- Assignments that copy two buffers into two blocks. -/
theorem assign_eq_write (hfits : b.Fits dims) (hfits' : b'.Fits dims) (hdisj : b.Disjoint b')
    {buffer' : ℕ → V} (h : ∀ w, w ∈ writes ↔
      (∃ k, InBox b.size k ∧ w = (index dims (b.cell k), buffer (index b.size k))) ∨
      ∃ k, InBox b'.size k ∧ w = (index dims (b'.cell k), buffer' (index b'.size k))) :
    assign writes a = b'.write dims (contents (volume b'.size) buffer')
      (b.write dims (contents (volume b.size) buffer) a) := by
  have hplace {x : Block} (hx : x.Fits dims) {k : Arr ℕ} (hk : InBox x.size k) {i : ℕ}
      (hi : index dims (x.cell k) = i) : x.cell k = unindex dims i := by
    have hbox := (mem_cell hk).inBox hx
    rw [← hi, unindex_index (hbox 0) (hbox 1)]
  funext i
  have hindex := index_unindex dims i
  by_cases hmem : b.Mem (unindex dims i)
  · rw [write, if_neg (hdisj _ hmem), write, if_pos hmem, getD_contents (index_lt hmem.rel_inBox)]
    apply assign_of_mem
    · rw [h]
      exact Or.inl ⟨_, hmem.rel_inBox, by rw [hmem.cell_rel, hindex]⟩
    · intro w hw hwi
      rcases (h w).mp hw with ⟨k, hk, rfl⟩ | ⟨k, hk, rfl⟩
      · rw [← hplace hfits hk hwi, rel_cell]
      · exact absurd (hplace hfits' hk hwi ▸ mem_cell hk) (hdisj _ hmem)
  · by_cases hmem' : b'.Mem (unindex dims i)
    · rw [write, if_pos hmem', getD_contents (index_lt hmem'.rel_inBox)]
      apply assign_of_mem
      · rw [h]
        exact Or.inr ⟨_, hmem'.rel_inBox, by rw [hmem'.cell_rel, hindex]⟩
      · intro w hw hwi
        rcases (h w).mp hw with ⟨k, hk, rfl⟩ | ⟨k, hk, rfl⟩
        · exact absurd (hplace hfits hk hwi ▸ mem_cell hk) hmem
        · rw [← hplace hfits' hk hwi, rel_cell]
    · rw [write, if_neg hmem', write, if_neg hmem]
      apply assign_of_forall_ne
      intro w hw hwi
      rcases (h w).mp hw with ⟨k, hk, rfl⟩ | ⟨k, hk, rfl⟩
      · exact hmem (hplace hfits hk hwi ▸ mem_cell hk)
      · exact hmem' (hplace hfits' hk hwi ▸ mem_cell hk)

/-- Loop nests that copy two buffers into two blocks. -/
theorem assign_loops_eq_write (hfits : b.Fits dims) (hfits' : b'.Fits dims) (hdisj : b.Disjoint b')
    {buffer' : ℕ → V} {x y z x' y' z' : ℕ} (hsize : b.size = ![x, y, z])
    (hsize' : b'.size = ![x', y', z']) {dst src dst' src' : ℕ → ℕ → ℕ → ℕ}
    (hdst : ∀ k, dst (k 0) (k 1) (k 2) = index dims (b.cell k))
    (hsrc : ∀ k, src (k 0) (k 1) (k 2) = index b.size k)
    (hdst' : ∀ k, dst' (k 0) (k 1) (k 2) = index dims (b'.cell k))
    (hsrc' : ∀ k, src' (k 0) (k 1) (k 2) = index b'.size k)
    (h : ∀ w, w ∈ writes ↔
      (∃ k2 < z, ∃ k1 < y, ∃ k0 < x, w = (dst k0 k1 k2, buffer (src k0 k1 k2))) ∨
      ∃ k2 < z', ∃ k1 < y', ∃ k0 < x', w = (dst' k0 k1 k2, buffer' (src' k0 k1 k2))) :
    assign writes a = b'.write dims (contents (volume b'.size) buffer')
      (b.write dims (contents (volume b.size) buffer) a) := by
  apply assign_eq_write hfits hfits' hdisj
  intro w
  rw [h, exists_inBox, exists_inBox, ← hsize, ← hsize']
  simp only [hdst, hsrc, hdst', hsrc']

end Loops

section Planes

variable {x y first n : ℕ}

/-- Consecutive planes of an array. -/
def planes (x y first n : ℕ) : Block := ⟨![0, 0, first], ![x, y, n]⟩

/-- The index of a cell of consecutive planes. -/
theorem index_planes (hx : dims 0 = x) (hy : dims 1 = y) (first n : ℕ) (c : Arr ℕ) :
    index dims ((planes x y first n).cell c) = x * y * first + index (planes x y first n).size c := by
  simp only [index, cell, hx, hy, planes, Matrix.cons_val_zero, Matrix.cons_val_one, Matrix.cons_val]
  ring

/-- Consecutive planes are consecutive in memory. -/
theorem read_planes (hx : dims 0 = x) (hy : dims 1 = y) (first n : ℕ) (a : ℕ → V) :
    (planes x y first n).read dims a = readRange (x * y * first) (x * y * n) a := by
  unfold read readRange
  congr 1
  funext k
  rw [index_planes hx hy, index_unindex]

/-- Nothing is written to consecutive planes without elements. -/
theorem write_planes_empty (hempty : x * y = 0) (first n : ℕ) (data : List V) (a : ℕ → V) :
    (planes x y first n).write dims data a = writeRange (x * y * first) (x * y * n) data a := by
  funext i
  have hmem : ¬ (planes x y first n).Mem (unindex dims i) := by
    intro h
    have h0 := h 0
    have h1 := h 1
    simp only [planes, Matrix.cons_val_zero, Matrix.cons_val_one] at h0 h1
    cases Nat.mul_eq_zero.mp hempty with
    | inl hx => omega
    | inr hy => omega
  unfold write writeRange
  rw [if_neg hmem, hempty, Nat.zero_mul, Nat.zero_mul, if_neg]
  omega

/-- Consecutive planes with elements are consecutive in memory. -/
theorem write_planes_pos (hx : dims 0 = x) (hy : dims 1 = y) (hpos : 0 < x * y)
    (first n : ℕ) (data : List V) (a : ℕ → V) :
    (planes x y first n).write dims data a = writeRange (x * y * first) (x * y * n) data a := by
  funext i
  have hi := index_unindex dims i
  have hxpos : 0 < x := Nat.pos_of_mul_pos_right hpos
  have hypos : 0 < y := Nat.pos_of_mul_pos_left hpos
  have hz : unindex dims i 2 = i / (x * y) := by
    rw [← hx, ← hy, ← Nat.div_div_eq_div_mul]
    rfl
  have hmem : (planes x y first n).Mem (unindex dims i) ↔
      x * y * first ≤ i ∧ i < x * y * first + x * y * n := by
    have h0 : unindex dims i 0 < x := hx ▸ Nat.mod_lt _ (hx ▸ hxpos)
    have h1 : unindex dims i 1 < y := hy ▸ Nat.mod_lt _ (hy ▸ hypos)
    rw [← Nat.mul_add, Nat.mul_comm _ first, Nat.mul_comm _ (first + n),
      ← Nat.le_div_iff_mul_le hpos, ← Nat.div_lt_iff_lt_mul hpos, ← hz]
    constructor
    · intro h
      exact h 2
    · intro h d
      fin_cases d
      · exact ⟨Nat.zero_le _, by simpa [planes] using h0⟩
      · exact ⟨Nat.zero_le _, by simpa [planes] using h1⟩
      · exact h
  unfold write writeRange
  rw [if_congr hmem rfl rfl]
  split
  · next h =>
    congr 1
    have h2 := (hmem.mpr h 2).1
    simp only [planes, Matrix.cons_val] at h2
    obtain ⟨z, hz'⟩ := Nat.exists_eq_add_of_le h2
    simp only [index, rel, hx, hy, planes, Matrix.cons_val_zero, Matrix.cons_val_one,
      Matrix.cons_val, Nat.sub_zero, hz', Nat.add_sub_cancel_left] at hi ⊢
    apply Nat.eq_sub_of_add_eq
    nth_rewrite 3 [← hi]
    ring
  · rfl

/-- Consecutive planes are consecutive in memory. -/
theorem write_planes (hx : dims 0 = x) (hy : dims 1 = y) (first n : ℕ) (data : List V) (a : ℕ → V) :
    (planes x y first n).write dims data a = writeRange (x * y * first) (x * y * n) data a := by
  cases Nat.eq_zero_or_pos (x * y) with
  | inl hempty => exact write_planes_empty hempty first n data a
  | inr hpos => exact write_planes_pos hx hy hpos first n data a

end Planes

end Block

end Ghexbench.Common
