import Ghexbench.Cartex.Neighborhood
import Ghexbench.Common.Block

/-!
# Packing and unpacking

The MPI datatypes of a neighborhood describe the blocks of a field that are exchanged with the
neighbours. The functions `pack_x` to `unpack_z` copy the blocks to and from buffers, one element
after the other.
-/

namespace Ghexbench.Cartex.Neighborhood

open Ghexbench.Common

variable {V : Type*} (nb : Neighborhood)

section Datatypes

/-- `x_recv_l`. -/
def xRecvL : Block where
  offset := ![0, nb.halos 2, nb.halos 4]
  size := ![nb.halos 0, nb.d.domainExt 1, nb.d.domainExt 2]

/-- `x_recv_r`. -/
def xRecvR : Block where
  offset := ![nb.halos 0 + nb.d.domainExt 0, nb.halos 2, nb.halos 4]
  size := ![nb.halos 1, nb.d.domainExt 1, nb.d.domainExt 2]

/-- `x_send_l`. -/
def xSendL : Block where
  offset := ![nb.halos 0, nb.halos 2, nb.halos 4]
  size := nb.xRecvR.size

/-- `x_send_r`. -/
def xSendR : Block where
  offset := ![nb.halos 0 + nb.d.domainExt 0 - nb.halos 1, nb.halos 2, nb.halos 4]
  size := nb.xRecvL.size

/-- `y_recv_l`. -/
def yRecvL : Block where
  offset := ![0, 0, nb.halos 4]
  size := ![nb.extBuffer 0, nb.halos 2, nb.d.domainExt 2]

/-- `y_recv_r`. -/
def yRecvR : Block where
  offset := ![0, nb.halos 2 + nb.d.domainExt 1, nb.halos 4]
  size := ![nb.extBuffer 0, nb.halos 3, nb.d.domainExt 2]

/-- `y_send_l`. -/
def ySendL : Block where
  offset := ![0, nb.halos 2, nb.halos 4]
  size := nb.yRecvR.size

/-- `y_send_r`. -/
def ySendR : Block where
  offset := ![0, nb.halos 2 + nb.d.domainExt 1 - nb.halos 3, nb.halos 4]
  size := nb.yRecvL.size

/-- `z_recv_l`. -/
def zRecvL : Block where
  offset := ![0, 0, 0]
  size := ![nb.extBuffer 0, nb.extBuffer 1, nb.halos 4]

/-- `z_recv_r`. -/
def zRecvR : Block where
  offset := ![0, 0, nb.halos 4 + nb.d.domainExt 2]
  size := ![nb.extBuffer 0, nb.extBuffer 1, nb.halos 5]

/-- `z_send_l`. -/
def zSendL : Block where
  offset := ![0, 0, nb.halos 4]
  size := nb.zRecvR.size

/-- `z_send_r`. -/
def zSendR : Block where
  offset := ![0, 0, nb.halos 4 + nb.d.domainExt 2 - nb.halos 5]
  size := nb.zRecvL.size

/-- The datatype of the messages in a direction at the sender. -/
def sendType (dim : Fin 3) (left : Bool) : Block :=
  if left then ![nb.xSendL, nb.ySendL, nb.zSendL] dim else ![nb.xSendR, nb.ySendR, nb.zSendR] dim

/-- The datatype of the messages in a direction at the receiver. -/
def recvType (dim : Fin 3) (left : Bool) : Block :=
  if left then ![nb.xRecvR, nb.yRecvR, nb.zRecvR] dim else ![nb.xRecvL, nb.yRecvL, nb.zRecvL] dim

end Datatypes

section Functions

/-- `pack_x`. -/
def packX (field bufferLeft bufferRight : ℕ → V) : (ℕ → V) × (ℕ → V) :=
  forRange (nb.d.domainExt 2) (fun z => forRange (nb.d.domainExt 1) fun y =>
    let offset := nb.extBuffer 0 * (y + nb.halos 2 + (z + nb.halos 4) * nb.extBuffer 1)
    let offsetL := nb.halos 0 * (y + nb.d.domainExt 1 * z)
    let offsetR := nb.halos 1 * (y + nb.d.domainExt 1 * z)
    Prod.map
      (forRange (nb.halos 0) fun x buffer =>
        Function.update buffer (x + offsetL) (field (x + nb.d.domainExt 0 + offset)))
      (forRange (nb.halos 1) fun x buffer =>
        Function.update buffer (x + offsetR) (field (x + nb.halos 0 + offset))))
    (bufferLeft, bufferRight)

/-- `unpack_x`. -/
def unpackX (field bufferLeft bufferRight : ℕ → V) : ℕ → V :=
  forRange (nb.d.domainExt 2) (fun z => forRange (nb.d.domainExt 1) fun y field =>
    let offset := nb.extBuffer 0 * (y + nb.halos 2 + (z + nb.halos 4) * nb.extBuffer 1)
    let offsetL := nb.halos 0 * (y + nb.d.domainExt 1 * z)
    let offsetR := nb.halos 1 * (y + nb.d.domainExt 1 * z)
    let field := forRange (nb.halos 0) (fun x field =>
      Function.update field (x + offset) (bufferLeft (x + offsetL))) field
    forRange (nb.halos 1) (fun x field => Function.update field
      (x + nb.halos 0 + nb.d.domainExt 0 + offset) (bufferRight (x + offsetR))) field) field

/-- `pack_y`. -/
def packY (field bufferLeft bufferRight : ℕ → V) : (ℕ → V) × (ℕ → V) :=
  forRange (nb.d.domainExt 2) (fun z => Prod.map
    (forRange (nb.halos 2) fun y =>
      let offset := nb.extBuffer 0 * (y + nb.d.domainExt 1 + (z + nb.halos 4) * nb.extBuffer 1)
      let offsetL := nb.extBuffer 0 * (y + nb.halos 2 * z)
      forRange (nb.extBuffer 0) fun x buffer =>
        Function.update buffer (x + offsetL) (field (x + offset)))
    (forRange (nb.halos 3) fun y =>
      let offset := nb.extBuffer 0 * (y + nb.halos 2 + (z + nb.halos 4) * nb.extBuffer 1)
      let offsetR := nb.extBuffer 0 * (y + nb.halos 3 * z)
      forRange (nb.extBuffer 0) fun x buffer =>
        Function.update buffer (x + offsetR) (field (x + offset))))
    (bufferLeft, bufferRight)

/-- `unpack_y`. -/
def unpackY (field bufferLeft bufferRight : ℕ → V) : ℕ → V :=
  forRange (nb.d.domainExt 2) (fun z field =>
    let field := forRange (nb.halos 2) (fun y field =>
      let offset := nb.extBuffer 0 * (y + (z + nb.halos 4) * nb.extBuffer 1)
      let offsetL := nb.extBuffer 0 * (y + nb.halos 2 * z)
      forRange (nb.extBuffer 0) (fun x field =>
        Function.update field (x + offset) (bufferLeft (x + offsetL))) field) field
    forRange (nb.halos 3) (fun y field =>
      let offset := nb.extBuffer 0 *
        (y + nb.halos 2 + nb.d.domainExt 1 + (z + nb.halos 4) * nb.extBuffer 1)
      let offsetR := nb.extBuffer 0 * (y + nb.halos 3 * z)
      forRange (nb.extBuffer 0) (fun x field =>
        Function.update field (x + offset) (bufferRight (x + offsetR))) field) field) field

/-- `pack_z`. -/
def packZ (field bufferLeft bufferRight : ℕ → V) : (ℕ → V) × (ℕ → V) :=
  (forRange (nb.halos 4) (fun z => forRange (nb.extBuffer 1) fun y =>
      let offset := nb.extBuffer 0 * (y + nb.extBuffer 1 * (z + nb.d.domainExt 2))
      let offsetL := nb.extBuffer 0 * (y + nb.extBuffer 1 * z)
      forRange (nb.extBuffer 0) fun x buffer =>
        Function.update buffer (x + offsetL) (field (x + offset))) bufferLeft,
    forRange (nb.halos 5) (fun z => forRange (nb.extBuffer 1) fun y =>
      let offset := nb.extBuffer 0 * (y + nb.extBuffer 1 * (z + nb.halos 4))
      let offsetR := nb.extBuffer 0 * (y + nb.extBuffer 1 * z)
      forRange (nb.extBuffer 0) fun x buffer =>
        Function.update buffer (x + offsetR) (field (x + offset))) bufferRight)

/-- `unpack_z`. -/
def unpackZ (field bufferLeft bufferRight : ℕ → V) : ℕ → V :=
  let field := forRange (nb.halos 4) (fun z => forRange (nb.extBuffer 1) fun y field =>
    let offset := nb.extBuffer 0 * (y + nb.extBuffer 1 * z)
    let offsetL := nb.extBuffer 0 * (y + nb.extBuffer 1 * z)
    forRange (nb.extBuffer 0) (fun x field =>
      Function.update field (x + offset) (bufferLeft (x + offsetL))) field) field
  forRange (nb.halos 5) (fun z => forRange (nb.extBuffer 1) fun y field =>
    let offset := nb.extBuffer 0 * (y + nb.extBuffer 1 * (z + nb.d.domainExt 2 + nb.halos 4))
    let offsetR := nb.extBuffer 0 * (y + nb.extBuffer 1 * z)
    forRange (nb.extBuffer 0) (fun x field =>
      Function.update field (x + offset) (bufferRight (x + offsetR))) field) field

end Functions

section Blocks

/-- The block that the packing function copies into `buffer_left`, for the messages to the right, or
into `buffer_right`, for those to the left. -/
def packed (dim : Fin 3) (left : Bool) : Block :=
  if left then nb.sendType dim true
  else { nb.sendType dim false with
    offset := Function.update (nb.sendType dim false).offset dim (nb.d.domainExt dim) }

variable {nb} (field bufferLeft bufferRight : ℕ → V)

/-- What `pack_x` puts into the buffers. -/
theorem contents_packX :
    contents (volume (nb.packed 0 false).size) (nb.packX field bufferLeft bufferRight).1 =
      (nb.packed 0 false).read nb.extBuffer field ∧
    contents (volume (nb.packed 0 true).size) (nb.packX field bufferLeft bufferRight).2 =
      (nb.packed 0 true).read nb.extBuffer field := by
  simp only [packX, forRange_prodMap, Prod.map]
  constructor
  · apply Block.contents_forRange rfl
    · intro k
      rfl
    · intro k
      change _ = nb.d.domainExt 0 + k 0 + nb.extBuffer 0 *
        (nb.halos 2 + k 1 + nb.extBuffer 1 * (nb.halos 4 + k 2))
      ring
  · apply Block.contents_forRange rfl
    · intro k
      rfl
    · intro k
      change _ = nb.halos 0 + k 0 + nb.extBuffer 0 *
        (nb.halos 2 + k 1 + nb.extBuffer 1 * (nb.halos 4 + k 2))
      ring

/-- What `pack_y` puts into the buffers. -/
theorem contents_packY :
    contents (volume (nb.packed 1 false).size) (nb.packY field bufferLeft bufferRight).1 =
      (nb.packed 1 false).read nb.extBuffer field ∧
    contents (volume (nb.packed 1 true).size) (nb.packY field bufferLeft bufferRight).2 =
      (nb.packed 1 true).read nb.extBuffer field := by
  simp only [packY, forRange_prodMap, Prod.map]
  constructor
  · apply Block.contents_forRange rfl
    · intro k
      rfl
    · intro k
      change _ = 0 + k 0 + nb.extBuffer 0 *
        (nb.d.domainExt 1 + k 1 + nb.extBuffer 1 * (nb.halos 4 + k 2))
      ring
  · apply Block.contents_forRange rfl
    · intro k
      rfl
    · intro k
      change _ = 0 + k 0 + nb.extBuffer 0 *
        (nb.halos 2 + k 1 + nb.extBuffer 1 * (nb.halos 4 + k 2))
      ring

/-- What `pack_z` puts into the buffers. -/
theorem contents_packZ :
    contents (volume (nb.packed 2 false).size) (nb.packZ field bufferLeft bufferRight).1 =
      (nb.packed 2 false).read nb.extBuffer field ∧
    contents (volume (nb.packed 2 true).size) (nb.packZ field bufferLeft bufferRight).2 =
      (nb.packed 2 true).read nb.extBuffer field := by
  simp only [packZ]
  constructor
  · apply Block.contents_forRange rfl
    · intro k
      rfl
    · intro k
      change _ = 0 + k 0 + nb.extBuffer 0 *
        (0 + k 1 + nb.extBuffer 1 * (nb.d.domainExt 2 + k 2))
      ring
  · apply Block.contents_forRange rfl
    · intro k
      rfl
    · intro k
      change _ = 0 + k 0 + nb.extBuffer 0 *
        (0 + k 1 + nb.extBuffer 1 * (nb.halos 4 + k 2))
      ring

/-- What the constructor makes of the extents and the halo widths. -/
structure Built (nb : Neighborhood) : Prop where
  extBuffer : nb.extBuffer = ![nb.d.domainExt 0 + nb.halos 0 + nb.halos 1,
    nb.d.domainExt 1 + nb.halos 2 + nb.halos 3, nb.d.domainExt 2 + nb.halos 4 + nb.halos 5]
  zPlane : nb.zPlane = nb.extBuffer 0 * nb.extBuffer 1

/-- The receive blocks lie inside the extended buffer. -/
theorem Built.recvType_fits (h : nb.Built) (dim : Fin 3) (left : Bool) :
    (nb.recvType dim left).Fits nb.extBuffer := by
  intro d
  have hd := congrFun h.extBuffer d
  have h0 := congrFun h.extBuffer 0
  have h1 := congrFun h.extBuffer 1
  fin_cases dim <;> cases left <;> fin_cases d <;>
    simp [recvType, xRecvL, xRecvR, yRecvL, yRecvR, zRecvL, zRecvR] at hd h0 h1 ⊢ <;> omega

/-- The receive blocks of a dimension lie on both sides of the domain. -/
theorem recvType_disjoint (nb : Neighborhood) (dim : Fin 3) :
    (nb.recvType dim false).Disjoint (nb.recvType dim true) := by
  intro c hleft hright
  have hleft := (hleft dim).2
  have hright := (hright dim).1
  fin_cases dim <;>
    simp [recvType, xRecvL, xRecvR, yRecvL, yRecvR, zRecvL, zRecvR] at hleft hright <;> omega

/-- What `unpack_x` leaves in the field. -/
theorem Built.unpackX_eq (h : nb.Built) : nb.unpackX field bufferLeft bufferRight =
    (nb.recvType 0 true).write nb.extBuffer (contents (volume (nb.recvType 0 true).size) bufferRight)
      ((nb.recvType 0 false).write nb.extBuffer
        (contents (volume (nb.recvType 0 false).size) bufferLeft) field) := by
  unfold unpackX
  rw [Assigns.forRange fun z => .forRange fun y =>
    .comp (.forRange fun x => .update _ _) (.forRange fun x => .update _ _)]
  apply Block.assign_loops_eq_write (h.recvType_fits 0 false) (h.recvType_fits 0 true)
    (nb.recvType_disjoint 0) rfl rfl
  case h =>
    intro w
    conv_lhs => simp only [List.mem_flatMap, List.mem_append, List.mem_range, List.mem_singleton,
      and_or_left, exists_or]
  all_goals intro k
  case hdst =>
    change _ = 0 + k 0 + nb.extBuffer 0 * (nb.halos 2 + k 1 + nb.extBuffer 1 * (nb.halos 4 + k 2))
    ring
  case hsrc => rfl
  case hdst' =>
    change _ = nb.halos 0 + nb.d.domainExt 0 + k 0 + nb.extBuffer 0 *
      (nb.halos 2 + k 1 + nb.extBuffer 1 * (nb.halos 4 + k 2))
    ring
  case hsrc' => rfl

/-- What `unpack_y` leaves in the field. -/
theorem Built.unpackY_eq (h : nb.Built) : nb.unpackY field bufferLeft bufferRight =
    (nb.recvType 1 true).write nb.extBuffer (contents (volume (nb.recvType 1 true).size) bufferRight)
      ((nb.recvType 1 false).write nb.extBuffer
        (contents (volume (nb.recvType 1 false).size) bufferLeft) field) := by
  unfold unpackY
  rw [Assigns.forRange fun z => .comp (.forRange fun y => .forRange fun x => .update _ _)
    (.forRange fun y => .forRange fun x => .update _ _)]
  apply Block.assign_loops_eq_write (h.recvType_fits 1 false) (h.recvType_fits 1 true)
    (nb.recvType_disjoint 1) rfl rfl
  case h =>
    intro w
    conv_lhs => simp only [List.mem_flatMap, List.mem_append, List.mem_range, List.mem_singleton,
      and_or_left, exists_or]
  all_goals intro k
  case hdst =>
    change _ = 0 + k 0 + nb.extBuffer 0 * (0 + k 1 + nb.extBuffer 1 * (nb.halos 4 + k 2))
    ring
  case hsrc => rfl
  case hdst' =>
    change _ = 0 + k 0 + nb.extBuffer 0 *
      (nb.halos 2 + nb.d.domainExt 1 + k 1 + nb.extBuffer 1 * (nb.halos 4 + k 2))
    ring
  case hsrc' => rfl

/-- What `unpack_z` leaves in the field. -/
theorem Built.unpackZ_eq (h : nb.Built) : nb.unpackZ field bufferLeft bufferRight =
    (nb.recvType 2 true).write nb.extBuffer (contents (volume (nb.recvType 2 true).size) bufferRight)
      ((nb.recvType 2 false).write nb.extBuffer
        (contents (volume (nb.recvType 2 false).size) bufferLeft) field) := by
  unfold unpackZ
  rw [Assigns.forRange fun z => .forRange fun y => .forRange fun x => .update _ _,
    Assigns.forRange fun z => .forRange fun y => .forRange fun x => .update _ _, assign_append]
  apply Block.assign_loops_eq_write (h.recvType_fits 2 false) (h.recvType_fits 2 true)
    (nb.recvType_disjoint 2) rfl rfl
  case h =>
    intro w
    conv_lhs => simp only [List.mem_flatMap, List.mem_append, List.mem_range, List.mem_singleton]
  all_goals intro k
  case hdst =>
    change _ = 0 + k 0 + nb.extBuffer 0 * (0 + k 1 + nb.extBuffer 1 * (0 + k 2))
    ring
  case hsrc => rfl
  case hdst' =>
    change _ = 0 + k 0 + nb.extBuffer 0 *
      (0 + k 1 + nb.extBuffer 1 * (nb.halos 4 + nb.d.domainExt 2 + k 2))
    ring
  case hsrc' => rfl

end Blocks

end Ghexbench.Cartex.Neighborhood
