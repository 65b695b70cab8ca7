import Ghexbench.Cartex.Halo

/-!
# The phases of the halo exchange

If a domain is at least as large as its halos, the packing versions of `exchange` do the same in a
phase: the outermost cells of the domain go to the neighbours, and what comes from them is put into
the halo. Messages are read from places where no message arrives. The version with MPI datatypes
does the same if both halos of each dimension have the same width.
-/

namespace Ghexbench.Cartex

open Ghexbench.Common

namespace Neighborhood

variable {V : Type*} {nb : Neighborhood}

section Geometry

/-- The packed blocks lie inside the extended buffer. -/
theorem Built.packed_fits (b : nb.Built) (dim : Fin 3) (left : Bool) :
    (nb.packed dim left).Fits nb.extBuffer := by
  intro d
  rw [packed_size, packed_offset, recvType_size, b.extBuffer_apply]
  split
  · omega
  · split
    · cases left <;> simp
    · omega

/-- The blocks that are sent contain no cells of the blocks that are received. -/
theorem Fitting.packed_disjoint (w : nb.Fitting) (dim : Fin 3) (left left' : Bool) :
    (nb.packed dim left).Disjoint (nb.recvType dim left') := by
  intro c hsend hrecv
  have hsend := hsend dim
  have hrecv := hrecv dim
  have hleft := w.left_le dim
  have hright := w.right_le dim
  rw [packed_size, packed_offset, recvType_size] at hsend
  rw [recvType_offset, recvType_size] at hrecv
  cases left <;> cases left' <;> simp at hsend hrecv <;> omega

/-- The buffers have the sizes of the blocks. -/
theorem Built.bufferSize_eq (h : nb.Built) (dim : Fin 3) (left : Bool) :
    nb.bufferSize (bufferOf dim left) = volume (nb.recvType dim left).size := by
  have h0 : nb.extBuffer 0 = nb.d.domainExt 0 + nb.halos 0 + nb.halos 1 := congrFun h.extBuffer 0
  have h1 : nb.extBuffer 1 = nb.d.domainExt 1 + nb.halos 2 + nb.halos 3 := congrFun h.extBuffer 1
  have hy (halo : ℕ) : halo * (nb.d.domainExt 0 + nb.halos 0 + nb.halos 1) * nb.d.domainExt 2 =
      nb.extBuffer 0 * halo * nb.d.domainExt 2 := by
    rw [h0, Nat.mul_comm halo]
  have hz (halo : ℕ) : halo * (nb.d.domainExt 0 + nb.halos 0 + nb.halos 1) *
      (nb.d.domainExt 1 + nb.halos 2 + nb.halos 3) = nb.extBuffer 0 * nb.extBuffer 1 * halo := by
    rw [h0, h1, Nat.mul_assoc, Nat.mul_comm]
  fin_cases dim <;> cases left
  · rfl
  · rfl
  · exact hy _
  · exact hy _
  · exact hz _
  · exact hz _

/-- Different directions have different buffers. -/
theorem bufferOf_ne (dim : Fin 3) : bufferOf dim false ≠ bufferOf dim true := by
  fin_cases dim <;> decide

end Geometry

section Packing

variable (field bufferLeft bufferRight : ℕ → V)

/-- What the packing functions put into the buffers. -/
theorem contents_pack (nb : Neighborhood) (dim : Fin 3) :
    contents (volume (nb.packed dim false).size) (nb.pack dim field bufferLeft bufferRight).1 =
      (nb.packed dim false).read nb.extBuffer field ∧
    contents (volume (nb.packed dim true).size) (nb.pack dim field bufferLeft bufferRight).2 =
      (nb.packed dim true).read nb.extBuffer field := by
  fin_cases dim
  · exact contents_packX field bufferLeft bufferRight
  · exact contents_packY field bufferLeft bufferRight
  · exact contents_packZ field bufferLeft bufferRight

/-- What the unpacking functions leave in the field. -/
theorem Built.unpack_eq (h : nb.Built) (dim : Fin 3) : nb.unpack dim field bufferLeft bufferRight =
    (nb.recvType dim true).write nb.extBuffer (contents (volume (nb.recvType dim true).size) bufferRight)
      ((nb.recvType dim false).write nb.extBuffer
        (contents (volume (nb.recvType dim false).size) bufferLeft) field) := by
  fin_cases dim
  · exact h.unpackX_eq field bufferLeft bufferRight
  · exact h.unpackY_eq field bufferLeft bufferRight
  · exact h.unpackZ_eq field bufferLeft bufferRight

end Packing

/-- A phase exchanges the blocks of a dimension of one field. -/
structure Exchanges (nb : Neighborhood) (fieldId : ℕ) (dim : Fin 3) (ph : Phase (Memory V) (List V)) :
    Prop where
  outgoing_prepare : ∀ left m, ph.outgoing left (ph.prepare m) =
    (nb.packed dim left).read nb.extBuffer (m.fields fieldId)
  field : ∀ l r m, l.length = volume (nb.recvType dim true).size →
    r.length = volume (nb.recvType dim false).size →
    (ph.conclude (ph.incoming false r (ph.incoming true l (ph.prepare m)))).fields fieldId =
      (nb.recvType dim false).write nb.extBuffer r
        ((nb.recvType dim true).write nb.extBuffer l (m.fields fieldId))
  others : ∀ l r m f, f ≠ fieldId →
    (ph.conclude (ph.incoming false r (ph.incoming true l (ph.prepare m)))).fields f = m.fields f
  outgoing_incoming : ∀ left left' data m,
    ph.outgoing left (ph.incoming left' data m) = ph.outgoing left m
  incoming_comm : ∀ l r m, ph.incoming true l (ph.incoming false r m) =
    ph.incoming false r (ph.incoming true l m)

section Versions

/-- A phase that communicates directly from and into the field. -/
def inPlacePhase (nb : Neighborhood) (fieldId : ℕ) (dim : Fin 3) : Phase (Memory V) (List V) where
  prepare := id
  outgoing left m := (nb.packed dim left).read nb.extBuffer (m.fields fieldId)
  incoming left data m :=
    m.setField fieldId ((nb.recvType dim left).write nb.extBuffer data (m.fields fieldId))
  conclude := id

/-- Phases without buffers exchange the blocks if no message arrives where one is read. -/
theorem Fitting.inPlace_exchanges (w : nb.Fitting) (fieldId : ℕ) (dim : Fin 3) :
    Exchanges nb fieldId dim (nb.inPlacePhase (V := V) fieldId dim) where
  outgoing_prepare left m := rfl
  field l r m _ _ := by simp [inPlacePhase, Memory.setField]
  others l r m f hf := by simp [inPlacePhase, Memory.setField, hf]
  outgoing_incoming left left' data m := by
    simp only [inPlacePhase, Memory.setField, Function.update_self]
    exact Block.read_write (w.packed_disjoint dim left left') (w.packed_fits dim left)
  incoming_comm l r m := by
    simp only [inPlacePhase, Memory.setField, Function.update_self, Function.update_idem]
    rw [Block.write_comm (nb.recvType_disjoint dim)]

/-- The phases with MPI datatypes, if both halos of each dimension have the same width. -/
theorem datatypes_eq (heq : haloLeft nb.halos = haloRight nb.halos) (fieldId : ℕ) (dim : Fin 3) :
    nb.datatypesPhase (V := V) fieldId dim = nb.inPlacePhase fieldId dim := by
  unfold datatypesPhase inPlacePhase
  simp only [sendType_eq_packed heq]

/-- The z phase without packing. -/
theorem Built.direct_eq (b : nb.Built) (fieldId : ℕ) :
    nb.directPhase (V := V) fieldId = nb.inPlacePhase fieldId 2 := by
  have hread (first n : ℕ) (a : ℕ → V) : readRange (nb.zPlane * first) (nb.zPlane * n) a =
      (Block.planes (nb.extBuffer 0) (nb.extBuffer 1) first n).read nb.extBuffer a := by
    rw [Block.read_planes rfl rfl, b.zPlane]
  have hwrite (first n : ℕ) (data : List V) (a : ℕ → V) :
      writeRange (nb.zPlane * first) (nb.zPlane * n) data a =
        (Block.planes (nb.extBuffer 0) (nb.extBuffer 1) first n).write nb.extBuffer data a := by
    rw [Block.write_planes rfl rfl, b.zPlane]
  have hsendR : nb.packed 2 false =
      Block.planes (nb.extBuffer 0) (nb.extBuffer 1) (nb.d.domainExt 2) (nb.halos 4) := by
    unfold packed Block.planes
    simp only [Bool.false_eq_true, if_false]
    congr 1
    funext d
    fin_cases d <;> rfl
  unfold directPhase inPlacePhase
  dsimp only
  congr 1
  · funext left m
    cases left with
    | false => exact (hread _ _ _).trans (by rw [hsendR])
    | true => exact hread _ _ _
  · funext left data m
    cases left with
    | false => exact congrArg (m.setField fieldId) (hwrite 0 _ data _)
    | true => exact congrArg (m.setField fieldId) (hwrite _ _ data _)

/-- The phases with buffers. -/
theorem Built.packed_exchanges (b : nb.Built) (fieldId : ℕ) (dim : Fin 3) :
    Exchanges nb fieldId dim (nb.packedPhase (V := V) fieldId dim) where
  outgoing_prepare left m := by
    obtain ⟨hfalse, htrue⟩ := contents_pack (m.fields fieldId)
      (m.sendBuffers fieldId (bufferOf dim false)) (m.sendBuffers fieldId (bufferOf dim true)) nb dim
    simp only [packedPhase, Memory.setSend, readRange, Nat.zero_add, b.bufferSize_eq, ← packed_size]
    cases left with
    | false => simp [bufferOf_ne, hfalse]
    | true => simp [htrue]
  field l r m hl hr := by
    simp only [packedPhase, Memory.setField, Memory.setRecv, Memory.setSend, b.unpack_eq, b.bufferSize_eq]
    simp [bufferOf_ne, (bufferOf_ne dim).symm, contents_writeRange, hl, hr]
    rw [Block.write_comm (nb.recvType_disjoint dim)]
  others l r m f hf := by
    simp [packedPhase, Memory.setField, Memory.setRecv, Memory.setSend, hf]
  outgoing_incoming left left' data m := rfl
  incoming_comm l r m := by
    simp [packedPhase, Memory.setRecv, bufferOf_ne, (bufferOf_ne dim).symm]
    rw [Function.update_comm (bufferOf_ne dim)]

/-- All versions exchange the same blocks, the one with MPI datatypes if both halos of each dimension
have the same width. -/
theorem Fitting.exchanges (w : nb.Fitting) {path : Path}
    (hpath : path = .datatypes → haloLeft nb.halos = haloRight nb.halos) (fieldId : ℕ) (dim : Fin 3) :
    Exchanges nb fieldId dim (nb.phase (V := V) path fieldId dim) := by
  cases path with
  | datatypes =>
    change Exchanges nb fieldId dim (nb.datatypesPhase fieldId dim)
    rw [datatypes_eq (hpath rfl)]
    exact w.inPlace_exchanges fieldId dim
  | packedZ => exact w.packed_exchanges fieldId dim
  | packed =>
    fin_cases dim
    · exact w.packed_exchanges fieldId 0
    · exact w.packed_exchanges fieldId 1
    · change Exchanges nb fieldId 2 (nb.directPhase fieldId)
      rw [w.direct_eq]
      exact w.inPlace_exchanges fieldId 2

end Versions

end Neighborhood

end Ghexbench.Cartex
