import Ghexbench.Cartex.Pack
import Ghexbench.Common.Staged

/-!
# The halo exchange

`step` exchanges the halos of one field after the other, each in three phases, one for each
dimension. A phase either communicates directly from and into the field, or through buffers that
are packed before and unpacked afterwards. Every receive gets the block of the neighbour that it
names; when the blocks are read and when they arrive is up to the MPI library.
-/

namespace Ghexbench.Cartex

open Ghexbench.Common

/-- The versions of `exchange`: with MPI datatypes, packed with direct transfer in z, and packed in
all dimensions (`CARTEX_MPI_PACK_Z`). -/
inductive Path
  | datatypes
  | packed
  | packedZ
  deriving DecidableEq, Repr

/-- The fields of a thread, and its buffers for each of them (`CARTEX_MPI_MANY_BUFFERS`). -/
structure Memory (V : Type*) where
  fields : ℕ → ℕ → V
  sendBuffers : ℕ → Fin 6 → ℕ → V
  recvBuffers : ℕ → Fin 6 → ℕ → V

namespace Memory

variable {V : Type*} (m : Memory V)

/-- Replace a field. -/
def setField (fieldId : ℕ) (field : ℕ → V) : Memory V :=
  { m with fields := Function.update m.fields fieldId field }

/-- Replace a send buffer. -/
def setSend (fieldId : ℕ) (i : Fin 6) (buffer : ℕ → V) : Memory V :=
  { m with sendBuffers :=
      Function.update m.sendBuffers fieldId (Function.update (m.sendBuffers fieldId) i buffer) }

/-- Replace a receive buffer. -/
def setRecv (fieldId : ℕ) (i : Fin 6) (buffer : ℕ → V) : Memory V :=
  { m with recvBuffers :=
      Function.update m.recvBuffers fieldId (Function.update (m.recvBuffers fieldId) i buffer) }

end Memory

namespace Neighborhood

variable {V : Type*} (nb : Neighborhood)

/-- The sizes of the send and receive buffers. -/
def bufferSize : Fin 6 → ℕ :=
  let xExt := nb.d.domainExt 0 + nb.halos 0 + nb.halos 1
  let yExt := nb.d.domainExt 1 + nb.halos 2 + nb.halos 3
  ![nb.halos 0 * nb.d.domainExt 1 * nb.d.domainExt 2, nb.halos 1 * nb.d.domainExt 1 * nb.d.domainExt 2,
    nb.halos 2 * xExt * nb.d.domainExt 2, nb.halos 3 * xExt * nb.d.domainExt 2,
    nb.halos 4 * xExt * yExt, nb.halos 5 * xExt * yExt]

/-- The buffers of the messages in a direction. -/
def bufferOf (dim : Fin 3) (left : Bool) : Fin 6 := if left then ![1, 3, 5] dim else ![0, 2, 4] dim

/-- The packing function of a dimension. -/
def pack (dim : Fin 3) : (ℕ → V) → (ℕ → V) → (ℕ → V) → (ℕ → V) × (ℕ → V) :=
  ![nb.packX, nb.packY, nb.packZ] dim

/-- The unpacking function of a dimension. -/
def unpack (dim : Fin 3) : (ℕ → V) → (ℕ → V) → (ℕ → V) → ℕ → V :=
  ![nb.unpackX, nb.unpackY, nb.unpackZ] dim

/-- A phase of `exchange` with MPI datatypes. -/
def datatypesPhase (fieldId : ℕ) (dim : Fin 3) : Phase (Memory V) (List V) where
  prepare := id
  outgoing left m := (nb.sendType dim left).read nb.extBuffer (m.fields fieldId)
  incoming left data m :=
    m.setField fieldId ((nb.recvType dim left).write nb.extBuffer data (m.fields fieldId))
  conclude := id

/-- A phase of `exchange` with buffers. -/
def packedPhase (fieldId : ℕ) (dim : Fin 3) : Phase (Memory V) (List V) where
  prepare m :=
    let buffers := nb.pack dim (m.fields fieldId) (m.sendBuffers fieldId (bufferOf dim false))
      (m.sendBuffers fieldId (bufferOf dim true))
    (m.setSend fieldId (bufferOf dim false) buffers.1).setSend fieldId (bufferOf dim true) buffers.2
  outgoing left m := readRange 0 (nb.bufferSize (bufferOf dim left))
    (m.sendBuffers fieldId (bufferOf dim left))
  incoming left data m := m.setRecv fieldId (bufferOf dim left)
    (writeRange 0 (nb.bufferSize (bufferOf dim left)) data (m.recvBuffers fieldId (bufferOf dim left)))
  conclude m := m.setField fieldId (nb.unpack dim (m.fields fieldId)
    (m.recvBuffers fieldId (bufferOf dim false)) (m.recvBuffers fieldId (bufferOf dim true)))

/-- The z phase of `exchange` without packing, between the planes `z0` to `z3` of the field. -/
def directPhase (fieldId : ℕ) : Phase (Memory V) (List V) :=
  let z0 := 0
  let z1 := nb.zPlane * nb.halos 4
  let z2 := nb.zPlane * nb.d.domainExt 2
  let z3 := nb.zPlane * (nb.halos 4 + nb.d.domainExt 2)
  let leftSize := nb.zPlane * nb.halos 5
  let rightSize := nb.zPlane * nb.halos 4
  { prepare := id
    outgoing := fun left m =>
      if left then readRange z1 leftSize (m.fields fieldId)
      else readRange z2 rightSize (m.fields fieldId)
    incoming := fun left data m => m.setField fieldId
      (if left then writeRange z3 leftSize data (m.fields fieldId)
        else writeRange z0 rightSize data (m.fields fieldId))
    conclude := id }

/-- A phase of `exchange`. -/
def phase : Path → ℕ → Fin 3 → Phase (Memory V) (List V)
  | .datatypes, fieldId, dim => nb.datatypesPhase fieldId dim
  | .packed, fieldId, 2 => nb.directPhase fieldId
  | .packed, fieldId, dim => nb.packedPhase fieldId dim
  | .packedZ, fieldId, dim => nb.packedPhase fieldId dim

end Neighborhood

namespace Setup

variable (su : Setup)

/-- The dimension of a phase. -/
def phaseDim (p : ℕ) : Fin 3 := Fin.ofNat 3 p

/-- The first three phases are those of the dimensions. -/
theorem phaseDim_val (dim : Fin 3) : phaseDim dim.val = dim := Fin.ofNat_val_eq_self dim

/-- All threads of all ranks call `step` once. A message is read and arrives as a whole. With MPI
datatypes and a halo that is wider on the left than on the right, the block that is sent and the one
that is received have cells in common, and MPI leaves open what is sent from these: the runs here are
then some of those that MPI allows. -/
def exchange (V : Type*) (path : Path) : Staged (ℕ × ℕ) (Memory V) (List V) where
  phase p q := (su.neighborhood q).phase path (p / 3) (phaseDim p)
  source p q left := su.source q (phaseDim p) left
  members := Finset.range su.cfg.numRanks ×ˢ Finset.range su.cfg.numThreads
  total := 3 * su.numFields

end Setup

namespace Neighborhood

variable {V : Type*} {nb : Neighborhood} {h : ℕ}

/-- The halo widths are all equal, and the domain is at least as large. -/
structure Uniform (nb : Neighborhood) (h : ℕ) : Prop extends Built nb where
  halos : ∀ i, nb.halos i = h
  pos : 1 ≤ h
  le : ∀ d, h ≤ nb.d.domainExt d

/-- The domain is at least as large as its halos. -/
structure Fitting (nb : Neighborhood) : Prop extends Built nb where
  left_le : ∀ d, haloLeft nb.halos d ≤ nb.d.domainExt d
  right_le : ∀ d, haloRight nb.halos d ≤ nb.d.domainExt d

/-- Equal widths on the left. -/
theorem haloLeft_of_forall {halos : Fin 6 → ℕ} (h' : ∀ i, halos i = h) : haloLeft halos = fun _ => h := by
  funext d
  fin_cases d <;> simp [haloLeft, h']

/-- Equal widths on the right. -/
theorem haloRight_of_forall {halos : Fin 6 → ℕ} (h' : ∀ i, halos i = h) :
    haloRight halos = fun _ => h := by
  funext d
  fin_cases d <;> simp [haloRight, h']

/-- Halos of equal width. -/
theorem Uniform.fitting (u : nb.Uniform h) : nb.Fitting where
  toBuilt := u.toBuilt
  left_le d := by
    rw [haloLeft_of_forall u.halos]
    exact u.le d
  right_le d := by
    rw [haloRight_of_forall u.halos]
    exact u.le d

/-- The extended buffer has a halo on both sides of each dimension. -/
theorem Built.extBuffer_apply (b : nb.Built) (d : Fin 3) :
    nb.extBuffer d = nb.d.domainExt d + haloLeft nb.halos d + haloRight nb.halos d := by
  rw [b.extBuffer]
  fin_cases d <;> rfl

/-- The receive blocks begin with the halo of dimensions that have been exchanged. -/
theorem recvType_offset (nb : Neighborhood) (dim d : Fin 3) (left : Bool) :
    (nb.recvType dim left).offset d =
      if d < dim then 0
      else if d = dim then (if left then haloLeft nb.halos d + nb.d.domainExt d else 0)
      else haloLeft nb.halos d := by
  fin_cases dim <;> fin_cases d <;> cases left <;> rfl

/-- The receive blocks are one halo wide. -/
theorem recvType_size (nb : Neighborhood) (dim d : Fin 3) (left : Bool) :
    (nb.recvType dim left).size d =
      if d < dim then nb.extBuffer d
      else if d = dim then (if left then haloRight nb.halos d else haloLeft nb.halos d)
      else nb.d.domainExt d := by
  fin_cases dim <;> fin_cases d <;> cases left <;> rfl

/-- The packed blocks are the outermost cells of the domain. -/
theorem packed_offset (nb : Neighborhood) (dim d : Fin 3) (left : Bool) :
    (nb.packed dim left).offset d =
      if d < dim then 0
      else if d = dim then (if left then haloLeft nb.halos d else nb.d.domainExt d)
      else haloLeft nb.halos d := by
  fin_cases dim <;> fin_cases d <;> cases left <;> rfl

/-- The datatypes of the sends begin where the halo on the other side would have to begin if both
halos had the same width. -/
theorem sendType_offset (nb : Neighborhood) (dim d : Fin 3) (left : Bool) :
    (nb.sendType dim left).offset d =
      if d < dim then 0
      else if d = dim then (if left then haloLeft nb.halos d
        else haloLeft nb.halos d + nb.d.domainExt d - haloRight nb.halos d)
      else haloLeft nb.halos d := by
  fin_cases dim <;> fin_cases d <;> cases left <;> rfl

/-- With halos of the same width on both sides the datatypes of the sends describe the packed
blocks. -/
theorem sendType_eq_packed (heq : haloLeft nb.halos = haloRight nb.halos) (dim : Fin 3)
    (left : Bool) : nb.sendType dim left = nb.packed dim left := by
  cases left with
  | true => rfl
  | false =>
    have hoffset : (nb.sendType dim false).offset = (nb.packed dim false).offset := by
      funext d
      rw [sendType_offset, packed_offset, ← heq]
      simp
    rw [packed]
    exact congrArg (fun o => Block.mk o (nb.sendType dim false).size) hoffset

/-- A message has the size of the block that it is received in. -/
theorem packed_size (nb : Neighborhood) (dim : Fin 3) (left : Bool) :
    (nb.packed dim left).size = (nb.recvType dim left).size := by
  fin_cases dim <;> cases left <;> rfl

end Neighborhood

end Ghexbench.Cartex
