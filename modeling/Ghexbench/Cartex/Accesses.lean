import Ghexbench.Cartex.HaloPhases
import Ghexbench.Common.Copies

/-!
# The accesses of the packing functions

The packing functions copy elements between a field and two buffers. Their traces are the copies in the
order in which the loops make them. Of each block that is packed or unpacked all elements are copied, in
the order in which they are stored.
-/

namespace Ghexbench.Cartex

open Ghexbench.Common

variable {V : Type*}

/-- The arrays that the packing functions work on. -/
inductive Buffer
  | field
  | bufferLeft
  | bufferRight
deriving DecidableEq

/-- An element of one of the arrays. -/
abbrev Place := Buffer × ℕ

/-- The contents of the arrays. -/
def arrays (field bufferLeft bufferRight : ℕ → V) : Place → V
  | (.field, i) => field i
  | (.bufferLeft, i) => bufferLeft i
  | (.bufferRight, i) => bufferRight i

section Arrays

variable {field bufferLeft bufferRight : ℕ → V} {i j : ℕ}

/-- An assignment to an element of the field. -/
theorem arrays_update_field (v : V) : arrays (Function.update field i v) bufferLeft bufferRight =
    Function.update (arrays field bufferLeft bufferRight) (.field, i) v := by
  funext p
  obtain ⟨buffer, k⟩ := p
  cases buffer <;> simp [arrays, Function.update_apply]

/-- An assignment to an element of a buffer. -/
theorem arrays_update_left (v : V) : arrays field (Function.update bufferLeft i v) bufferRight =
    Function.update (arrays field bufferLeft bufferRight) (.bufferLeft, i) v := by
  funext p
  obtain ⟨buffer, k⟩ := p
  cases buffer <;> simp [arrays, Function.update_apply]

/-- An assignment to an element of a buffer. -/
theorem arrays_update_right (v : V) : arrays field bufferLeft (Function.update bufferRight i v) =
    Function.update (arrays field bufferLeft bufferRight) (.bufferRight, i) v := by
  funext p
  obtain ⟨buffer, k⟩ := p
  cases buffer <;> simp [arrays, Function.update_apply]

/-- An element of the field is copied to `buffer_left`. -/
theorem follows_packLeft : Follows (fun bufferLeft => arrays field bufferLeft bufferRight)
    (fun buffer => Function.update buffer i (field j)) [⟨(.bufferLeft, i), (.field, j)⟩] :=
  fun _ => arrays_update_left _

/-- An element of the field is copied to `buffer_right`. -/
theorem follows_packRight : Follows (fun bufferRight => arrays field bufferLeft bufferRight)
    (fun buffer => Function.update buffer i (field j)) [⟨(.bufferRight, i), (.field, j)⟩] :=
  fun _ => arrays_update_right _

/-- An element of `buffer_left` is copied to the field. -/
theorem follows_unpackLeft : Follows (fun field => arrays field bufferLeft bufferRight)
    (fun field => Function.update field i (bufferLeft j)) [⟨(.field, i), (.bufferLeft, j)⟩] :=
  fun _ => arrays_update_field _

/-- An element of `buffer_right` is copied to the field. -/
theorem follows_unpackRight : Follows (fun field => arrays field bufferLeft bufferRight)
    (fun field => Function.update field i (bufferRight j)) [⟨(.field, i), (.bufferRight, j)⟩] :=
  fun _ => arrays_update_field _

/-- Statements on both buffers. -/
theorem follows_prodMap {f g : (ℕ → V) → ℕ → V} {l l' : List (Copy Place)}
    (hf : ∀ bufferRight, Follows (fun bufferLeft => arrays field bufferLeft bufferRight) f l)
    (hg : ∀ bufferLeft, Follows (fun bufferRight => arrays field bufferLeft bufferRight) g l') :
    Follows (fun buffers => arrays field buffers.1 buffers.2) (Prod.map f g) (l ++ l') := by
  intro buffers
  rw [Copy.runAll_append, ← hf, ← hg]
  rfl

end Arrays

namespace Neighborhood

variable (nb : Neighborhood)

section Traces

/-- The copies of `pack_x`. -/
def packXTrace : List (Copy Place) :=
  (List.range (nb.d.domainExt 2)).flatMap fun z => (List.range (nb.d.domainExt 1)).flatMap fun y =>
    let offset := nb.extBuffer 0 * (y + nb.halos 2 + (z + nb.halos 4) * nb.extBuffer 1)
    let offsetL := nb.halos 0 * (y + nb.d.domainExt 1 * z)
    let offsetR := nb.halos 1 * (y + nb.d.domainExt 1 * z)
    ((List.range (nb.halos 0)).map fun x =>
      ⟨(.bufferLeft, x + offsetL), (.field, x + nb.d.domainExt 0 + offset)⟩) ++
    (List.range (nb.halos 1)).map fun x =>
      ⟨(.bufferRight, x + offsetR), (.field, x + nb.halos 0 + offset)⟩

/-- The copies of `unpack_x`. -/
def unpackXTrace : List (Copy Place) :=
  (List.range (nb.d.domainExt 2)).flatMap fun z => (List.range (nb.d.domainExt 1)).flatMap fun y =>
    let offset := nb.extBuffer 0 * (y + nb.halos 2 + (z + nb.halos 4) * nb.extBuffer 1)
    let offsetL := nb.halos 0 * (y + nb.d.domainExt 1 * z)
    let offsetR := nb.halos 1 * (y + nb.d.domainExt 1 * z)
    ((List.range (nb.halos 0)).map fun x =>
      ⟨(.field, x + offset), (.bufferLeft, x + offsetL)⟩) ++
    (List.range (nb.halos 1)).map fun x =>
      ⟨(.field, x + nb.halos 0 + nb.d.domainExt 0 + offset), (.bufferRight, x + offsetR)⟩

/-- The copies of `pack_y`. -/
def packYTrace : List (Copy Place) :=
  (List.range (nb.d.domainExt 2)).flatMap fun z =>
    ((List.range (nb.halos 2)).flatMap fun y =>
      let offset := nb.extBuffer 0 * (y + nb.d.domainExt 1 + (z + nb.halos 4) * nb.extBuffer 1)
      let offsetL := nb.extBuffer 0 * (y + nb.halos 2 * z)
      (List.range (nb.extBuffer 0)).map fun x =>
        ⟨(.bufferLeft, x + offsetL), (.field, x + offset)⟩) ++
    (List.range (nb.halos 3)).flatMap fun y =>
      let offset := nb.extBuffer 0 * (y + nb.halos 2 + (z + nb.halos 4) * nb.extBuffer 1)
      let offsetR := nb.extBuffer 0 * (y + nb.halos 3 * z)
      (List.range (nb.extBuffer 0)).map fun x =>
        ⟨(.bufferRight, x + offsetR), (.field, x + offset)⟩

/-- The copies of `unpack_y`. -/
def unpackYTrace : List (Copy Place) :=
  (List.range (nb.d.domainExt 2)).flatMap fun z =>
    ((List.range (nb.halos 2)).flatMap fun y =>
      let offset := nb.extBuffer 0 * (y + (z + nb.halos 4) * nb.extBuffer 1)
      let offsetL := nb.extBuffer 0 * (y + nb.halos 2 * z)
      (List.range (nb.extBuffer 0)).map fun x =>
        ⟨(.field, x + offset), (.bufferLeft, x + offsetL)⟩) ++
    (List.range (nb.halos 3)).flatMap fun y =>
      let offset := nb.extBuffer 0 *
        (y + nb.halos 2 + nb.d.domainExt 1 + (z + nb.halos 4) * nb.extBuffer 1)
      let offsetR := nb.extBuffer 0 * (y + nb.halos 3 * z)
      (List.range (nb.extBuffer 0)).map fun x =>
        ⟨(.field, x + offset), (.bufferRight, x + offsetR)⟩

/-- The copies of `pack_z`. -/
def packZTrace : List (Copy Place) :=
  ((List.range (nb.halos 4)).flatMap fun z => (List.range (nb.extBuffer 1)).flatMap fun y =>
    let offset := nb.extBuffer 0 * (y + nb.extBuffer 1 * (z + nb.d.domainExt 2))
    let offsetL := nb.extBuffer 0 * (y + nb.extBuffer 1 * z)
    (List.range (nb.extBuffer 0)).map fun x =>
      ⟨(.bufferLeft, x + offsetL), (.field, x + offset)⟩) ++
  (List.range (nb.halos 5)).flatMap fun z => (List.range (nb.extBuffer 1)).flatMap fun y =>
    let offset := nb.extBuffer 0 * (y + nb.extBuffer 1 * (z + nb.halos 4))
    let offsetR := nb.extBuffer 0 * (y + nb.extBuffer 1 * z)
    (List.range (nb.extBuffer 0)).map fun x =>
      ⟨(.bufferRight, x + offsetR), (.field, x + offset)⟩

/-- The copies of `unpack_z`. -/
def unpackZTrace : List (Copy Place) :=
  ((List.range (nb.halos 4)).flatMap fun z => (List.range (nb.extBuffer 1)).flatMap fun y =>
    let offset := nb.extBuffer 0 * (y + nb.extBuffer 1 * z)
    let offsetL := nb.extBuffer 0 * (y + nb.extBuffer 1 * z)
    (List.range (nb.extBuffer 0)).map fun x =>
      ⟨(.field, x + offset), (.bufferLeft, x + offsetL)⟩) ++
  (List.range (nb.halos 5)).flatMap fun z => (List.range (nb.extBuffer 1)).flatMap fun y =>
    let offset := nb.extBuffer 0 * (y + nb.extBuffer 1 * (z + nb.d.domainExt 2 + nb.halos 4))
    let offsetR := nb.extBuffer 0 * (y + nb.extBuffer 1 * z)
    (List.range (nb.extBuffer 0)).map fun x =>
      ⟨(.field, x + offset), (.bufferRight, x + offsetR)⟩

/-- The copies of the packing function of a dimension. -/
def packTrace (dim : Fin 3) : List (Copy Place) := ![nb.packXTrace, nb.packYTrace, nb.packZTrace] dim

/-- The copies of the unpacking function of a dimension. -/
def unpackTrace (dim : Fin 3) : List (Copy Place) :=
  ![nb.unpackXTrace, nb.unpackYTrace, nb.unpackZTrace] dim

end Traces

section Follows

variable {field bufferLeft bufferRight : ℕ → V}

/-- The copies of `pack_x` are those of its trace. -/
theorem packX_follows : Follows (fun buffers => arrays field buffers.1 buffers.2)
    (fun buffers => nb.packX field buffers.1 buffers.2) nb.packXTrace :=
  .forRange fun _ => .forRange fun _ => follows_prodMap
    (fun _ => .forRange_map fun _ => follows_packLeft)
    (fun _ => .forRange_map fun _ => follows_packRight)

/-- The copies of `pack_y` are those of its trace. -/
theorem packY_follows : Follows (fun buffers => arrays field buffers.1 buffers.2)
    (fun buffers => nb.packY field buffers.1 buffers.2) nb.packYTrace :=
  .forRange fun _ => follows_prodMap
    (fun _ => .forRange fun _ => .forRange_map fun _ => follows_packLeft)
    (fun _ => .forRange fun _ => .forRange_map fun _ => follows_packRight)

/-- The copies of `pack_z` are those of its trace. -/
theorem packZ_follows : Follows (fun buffers => arrays field buffers.1 buffers.2)
    (fun buffers => nb.packZ field buffers.1 buffers.2) nb.packZTrace :=
  follows_prodMap
    (fun _ => .forRange fun _ => .forRange fun _ => .forRange_map fun _ => follows_packLeft)
    (fun _ => .forRange fun _ => .forRange fun _ => .forRange_map fun _ => follows_packRight)

/-- The copies of `unpack_x` are those of its trace. -/
theorem unpackX_follows : Follows (fun field => arrays field bufferLeft bufferRight)
    (fun field => nb.unpackX field bufferLeft bufferRight) nb.unpackXTrace :=
  .forRange fun _ => .forRange fun _ => .comp (.forRange_map fun _ => follows_unpackLeft)
    (.forRange_map fun _ => follows_unpackRight)

/-- The copies of `unpack_y` are those of its trace. -/
theorem unpackY_follows : Follows (fun field => arrays field bufferLeft bufferRight)
    (fun field => nb.unpackY field bufferLeft bufferRight) nb.unpackYTrace :=
  .forRange fun _ => .comp (.forRange fun _ => .forRange_map fun _ => follows_unpackLeft)
    (.forRange fun _ => .forRange_map fun _ => follows_unpackRight)

/-- The copies of `unpack_z` are those of its trace. -/
theorem unpackZ_follows : Follows (fun field => arrays field bufferLeft bufferRight)
    (fun field => nb.unpackZ field bufferLeft bufferRight) nb.unpackZTrace :=
  .comp (.forRange fun _ => .forRange fun _ => .forRange_map fun _ => follows_unpackLeft)
    (.forRange fun _ => .forRange fun _ => .forRange_map fun _ => follows_unpackRight)

/-- The packing functions make the copies of their traces. -/
theorem pack_follows (dim : Fin 3) : Follows (fun buffers => arrays field buffers.1 buffers.2)
    (fun buffers => nb.pack dim field buffers.1 buffers.2) (nb.packTrace dim) := by
  fin_cases dim
  · exact nb.packX_follows
  · exact nb.packY_follows
  · exact nb.packZ_follows

/-- The unpacking functions make the copies of their traces. -/
theorem unpack_follows (dim : Fin 3) : Follows (fun field => arrays field bufferLeft bufferRight)
    (fun field => nb.unpack dim field bufferLeft bufferRight) (nb.unpackTrace dim) := by
  fin_cases dim
  · exact nb.unpackX_follows
  · exact nb.unpackY_follows
  · exact nb.unpackZ_follows

end Follows

section Sides

/-- The buffer of the messages in a direction. -/
def bufferFor (left : Bool) : Buffer := if left then .bufferRight else .bufferLeft

/-- The elements of the field that the packing function reads for the messages in a direction, in the
order of the loops. -/
def packReads (dim : Fin 3) (left : Bool) : List ℕ :=
  ((nb.packTrace dim).filter fun c => c.dst.1 = bufferFor left).map fun c => c.src.2

/-- The elements of the field that the unpacking function writes for the messages in a direction, in the
order of the loops. -/
def unpackWrites (dim : Fin 3) (left : Bool) : List ℕ :=
  ((nb.unpackTrace dim).filter fun c => c.src.1 = bufferFor left).map fun c => c.dst.2

/-- Loops on the other side. -/
theorem flatMap_nil {α β : Type*} (l : List α) : (l.flatMap fun _ => ([] : List β)) = [] :=
  List.flatMap_eq_nil_iff.mpr fun _ _ => rfl

/-- The place of an element of a block that is packed. -/
theorem index_packed (dim : Fin 3) (left : Bool) (k : Arr ℕ) :
    index nb.extBuffer ((nb.packed dim left).cell k) =
      (if dim = 0 then if left then nb.halos 0 else nb.d.domainExt 0 else 0) + k 0 + nb.extBuffer 0 *
        ((if dim = 0 then nb.halos 2 else if dim = 1 then if left then nb.halos 2
          else nb.d.domainExt 1 else 0) + k 1 + nb.extBuffer 1 *
        ((if dim = 2 then if left then nb.halos 4 else nb.d.domainExt 2 else nb.halos 4) + k 2)) := by
  fin_cases dim <;> cases left <;> rfl

/-- The place of an element of a block that is unpacked. -/
theorem index_recvType (dim : Fin 3) (left : Bool) (k : Arr ℕ) :
    index nb.extBuffer ((nb.recvType dim left).cell k) =
      (if dim = 0 then if left then nb.halos 0 + nb.d.domainExt 0 else 0 else 0) + k 0 +
        nb.extBuffer 0 * ((if dim = 0 then nb.halos 2 else if dim = 1 then if left
          then nb.halos 2 + nb.d.domainExt 1 else 0 else 0) + k 1 + nb.extBuffer 1 *
        ((if dim = 2 then if left then nb.halos 4 + nb.d.domainExt 2 else 0 else nb.halos 4) + k 2)) := by
  fin_cases dim <;> cases left <;> rfl

/-- The packing functions read the elements of a block in order. -/
theorem packReads_eq (dim : Fin 3) (left : Bool) :
    nb.packReads dim left = (nb.packed dim left).places nb.extBuffer := by
  fin_cases dim <;> cases left <;>
    simp [packReads, packTrace, packXTrace, packYTrace, packZTrace, bufferFor, List.filter_flatMap,
      List.map_flatMap, List.filter_map, Function.comp_def, flatMap_nil]
  all_goals
    apply Block.flatMap_eq_places rfl
    intro k
    simp only [index_packed, Fin.isValue, Fin.reduceEq, if_true, if_false, Bool.false_eq_true]
    ring

/-- The unpacking functions write the elements of a block in order. -/
theorem unpackWrites_eq (dim : Fin 3) (left : Bool) :
    nb.unpackWrites dim left = (nb.recvType dim left).places nb.extBuffer := by
  fin_cases dim <;> cases left <;>
    simp [unpackWrites, unpackTrace, unpackXTrace, unpackYTrace, unpackZTrace, bufferFor,
      List.filter_flatMap, List.map_flatMap, List.filter_map, Function.comp_def, flatMap_nil]
  all_goals
    apply Block.flatMap_eq_places rfl
    intro k
    simp only [index_recvType, Fin.isValue, Fin.reduceEq, if_true, if_false, Bool.false_eq_true]
    ring

end Sides

section Elements

/-- The copy of an element of a block that is packed. -/
def packCopy (dim : Fin 3) (left : Bool) (k : Arr ℕ) : Copy Place where
  dst := (bufferFor left, index (nb.recvType dim left).size k)
  src := (.field, index nb.extBuffer ((nb.packed dim left).cell k))

/-- The copy of an element of a block that is unpacked. -/
def unpackCopy (dim : Fin 3) (left : Bool) (k : Arr ℕ) : Copy Place where
  dst := (.field, index nb.extBuffer ((nb.recvType dim left).cell k))
  src := (bufferFor left, index (nb.recvType dim left).size k)

variable {nb} {dim : Fin 3} {c : Copy Place}

/-- Copies of elements of a block, given in two ways. -/
theorem exists_copy_congr {size : Arr ℕ} {b b' : Buffer} {i j : Arr ℕ → ℕ} {target : Arr ℕ → Copy Place}
    (htarget : ∀ k, target k = ⟨(b, i k), (b', j k)⟩) {i' j' : Arr ℕ → ℕ} (hi : ∀ k, i' k = i k)
    (hj : ∀ k, j' k = j k) : (∃ k, InBox size k ∧ (⟨(b, i' k), (b', j' k)⟩ : Copy Place) = c) ↔
      ∃ k, InBox size k ∧ c = target k := by
  simp only [htarget, hi, hj, eq_comm]

/-- The packing functions copy the elements of two blocks. -/
theorem mem_packTrace : c ∈ nb.packTrace dim ↔
    ∃ left k, InBox (nb.recvType dim left).size k ∧ c = nb.packCopy dim left k := by
  rw [Bool.exists_bool]
  fin_cases dim <;>
    simp [packTrace, packXTrace, packYTrace, packZTrace, and_or_left, exists_or, exists_inBox]
  all_goals
    apply or_congr <;> apply exists_copy_congr (fun _ => rfl) (fun _ => rfl)
  all_goals
    intro k
    simp only [index_packed, Fin.isValue, Fin.reduceEq, if_true, if_false, Bool.false_eq_true]
    ring

/-- The unpacking functions copy the elements of two blocks. -/
theorem mem_unpackTrace : c ∈ nb.unpackTrace dim ↔
    ∃ left k, InBox (nb.recvType dim left).size k ∧ c = nb.unpackCopy dim left k := by
  rw [Bool.exists_bool]
  fin_cases dim <;>
    simp [unpackTrace, unpackXTrace, unpackYTrace, unpackZTrace, and_or_left, exists_or, exists_inBox]
  all_goals
    apply or_congr <;> refine exists_copy_congr (fun _ => rfl) ?_ (fun _ => rfl)
  all_goals
    intro k
    simp only [index_recvType, Fin.isValue, Fin.reduceEq, if_true, if_false, Bool.false_eq_true]
    ring

variable {left left' : Bool} {k k' : Arr ℕ}

/-- The messages in the two directions have buffers of their own. -/
theorem bufferFor_injective (h : bufferFor left = bufferFor left') : left = left' := by
  cases left <;> cases left' <;> first | rfl | cases h

/-- No buffer is the field. -/
theorem bufferFor_ne_field (left : Bool) : bufferFor left ≠ .field := by
  cases left <;> decide

/-- Every element of a buffer is packed once. -/
theorem packCopy_dst_injective (hk : InBox (nb.recvType dim left).size k)
    (hk' : InBox (nb.recvType dim left').size k')
    (h : (nb.packCopy dim left k).dst = (nb.packCopy dim left' k').dst) : left = left' ∧ k = k' := by
  obtain rfl := bufferFor_injective (congrArg Prod.fst h)
  have hindex : index (nb.recvType dim left).size k = index (nb.recvType dim left).size k' :=
    congrArg Prod.snd h
  refine ⟨rfl, ?_⟩
  rw [← unindex_index (hk 0) (hk 1), hindex, unindex_index (hk' 0) (hk' 1)]

/-- Every element of the field is unpacked once at most. -/
theorem Built.unpackCopy_dst_injective (b : nb.Built) (hk : InBox (nb.recvType dim left).size k)
    (hk' : InBox (nb.recvType dim left').size k')
    (h : (nb.unpackCopy dim left k).dst = (nb.unpackCopy dim left' k').dst) :
    left = left' ∧ k = k' := by
  have hmem := Block.mem_cell hk
  have hmem' := Block.mem_cell hk'
  have hbox := hmem.inBox (b.recvType_fits dim left)
  have hbox' := hmem'.inBox (b.recvType_fits dim left')
  have hcell : (nb.recvType dim left).cell k = (nb.recvType dim left').cell k' := by
    rw [← unindex_index (hbox 0) (hbox 1), ← unindex_index (hbox' 0) (hbox' 1)]
    exact congrArg (fun p : Place => unindex nb.extBuffer p.2) h
  have hleft : left = left' := by
    cases left <;> cases left'
    · rfl
    · exact absurd (hcell ▸ hmem') (nb.recvType_disjoint dim _ hmem)
    · exact absurd (hcell ▸ hmem) (nb.recvType_disjoint dim _ hmem')
    · rfl
  subst hleft
  exact ⟨rfl, by rw [← Block.rel_cell _ k, hcell, Block.rel_cell]⟩

/-- The copies of the packing functions may be made in any order. -/
theorem pack_independent (nb : Neighborhood) (dim : Fin 3) :
    Copy.Independent {c | c ∈ nb.packTrace dim} := by
  constructor
  · intro c hc c' hc' heq
    obtain ⟨left, k, hk, rfl⟩ := mem_packTrace.mp hc
    obtain ⟨left', k', hk', rfl⟩ := mem_packTrace.mp hc'
    exact bufferFor_ne_field left' (congrArg Prod.fst heq).symm
  · intro c hc c' hc' heq
    obtain ⟨left, k, hk, rfl⟩ := mem_packTrace.mp hc
    obtain ⟨left', k', hk', rfl⟩ := mem_packTrace.mp hc'
    obtain ⟨rfl, rfl⟩ := packCopy_dst_injective hk hk' heq
    rfl

/-- The copies of the unpacking functions may be made in any order. -/
theorem Built.unpack_independent (b : nb.Built) (dim : Fin 3) :
    Copy.Independent {c | c ∈ nb.unpackTrace dim} := by
  constructor
  · intro c hc c' hc' heq
    obtain ⟨left, k, hk, rfl⟩ := mem_unpackTrace.mp hc
    obtain ⟨left', k', hk', rfl⟩ := mem_unpackTrace.mp hc'
    exact bufferFor_ne_field left (congrArg Prod.fst heq)
  · intro c hc c' hc' heq
    obtain ⟨left, k, hk, rfl⟩ := mem_unpackTrace.mp hc
    obtain ⟨left', k', hk', rfl⟩ := mem_unpackTrace.mp hc'
    obtain ⟨rfl, rfl⟩ := b.unpackCopy_dst_injective hk hk' heq
    rfl

end Elements

section Bounds

/-- The numbers of elements of the arrays of a dimension. -/
def arraySize (dim : Fin 3) : Buffer → ℕ
  | .field => volume nb.extBuffer
  | .bufferLeft => nb.bufferSize (bufferOf dim false)
  | .bufferRight => nb.bufferSize (bufferOf dim true)

/-- A copy between elements of the arrays. -/
def InArrays (dim : Fin 3) (c : Copy Place) : Prop :=
  c.dst.2 < nb.arraySize dim c.dst.1 ∧ c.src.2 < nb.arraySize dim c.src.1

variable {nb} {dim : Fin 3} {left : Bool} {k : Arr ℕ} (b : nb.Built)
  (hk : InBox (nb.recvType dim left).size k)
include b

/-- The buffers have the sizes of the blocks. -/
theorem Built.arraySize_bufferFor (dim : Fin 3) (left : Bool) :
    nb.arraySize dim (bufferFor left) = volume (nb.recvType dim left).size := by
  cases left
  · exact b.bufferSize_eq dim false
  · exact b.bufferSize_eq dim true

/-- A block has at most as many elements as the field. -/
theorem Built.volume_recvType_le (dim : Fin 3) (left : Bool) :
    volume (nb.recvType dim left).size ≤ volume nb.extBuffer := by
  have hle (d : Fin 3) : (nb.recvType dim left).size d ≤ nb.extBuffer d :=
    (Nat.le_add_left _ _).trans (b.recvType_fits dim left d)
  exact Nat.mul_le_mul (Nat.mul_le_mul (hle 0) (hle 1)) (hle 2)

/-- No array has more elements than the field. -/
theorem Built.arraySize_le (dim : Fin 3) (buffer : Buffer) :
    nb.arraySize dim buffer ≤ volume nb.extBuffer := by
  cases buffer with
  | field => exact le_rfl
  | bufferLeft => exact (b.arraySize_bufferFor dim false).trans_le (b.volume_recvType_le dim false)
  | bufferRight => exact (b.arraySize_bufferFor dim true).trans_le (b.volume_recvType_le dim true)

include hk

/-- The packing functions access elements of the arrays only. -/
theorem Built.packCopy_inArrays : nb.InArrays dim (nb.packCopy dim left k) := by
  constructor
  · exact (index_lt hk).trans_eq (b.arraySize_bufferFor dim left).symm
  · have hcell : (nb.packed dim left).Mem ((nb.packed dim left).cell k) :=
      Block.mem_cell (nb.packed_size dim left ▸ hk)
    exact index_lt (hcell.inBox (b.packed_fits dim left))

/-- The unpacking functions access elements of the arrays only. -/
theorem Built.unpackCopy_inArrays : nb.InArrays dim (nb.unpackCopy dim left k) :=
  ⟨index_lt ((Block.mem_cell hk).inBox (b.recvType_fits dim left)),
    (index_lt hk).trans_eq (b.arraySize_bufferFor dim left).symm⟩

end Bounds

end Neighborhood

end Ghexbench.Cartex
