import Ghexbench.Cartex.Accesses
import Ghexbench.Cartex.LaunchParams

/-!
# The packing kernels

On a GPU each thread of a launch copies a few elements, those that belong to its index. The first threads
of one dimension copy the halo on the left and the others the halo on the right, and threads outside the
ranges of the other dimensions do nothing. The indices are natural numbers here; `kernels_without_overflow`
says for which arrays and launches they are the same when they are computed as `unsigned`.
-/

namespace Ghexbench.Cartex

open Ghexbench.Common

namespace Launch

variable (l : Launch)

/-- The threads of a launch: the index of the block and the index in the block. -/
abbrev Thread := (∀ d, Fin (l.blocks d)) × (∀ d, Fin (l.dims d))

variable {l}

/-- `threadIdx`. -/
def threadIdx (t : l.Thread) (d : Fin 3) : ℕ := t.2 d

/-- `blockIdx * blockDim + threadIdx`. -/
def globalIdx (t : l.Thread) (d : Fin 3) : ℕ := t.1 d * l.dims d + t.2 d

end Launch

namespace Neighborhood

variable (nb : Neighborhood) {l : Launch}

section Kernels

open Launch

/-- `ext_x_b`. -/
def extXB : ℕ := nb.d.domainExt 0 + nb.halos 0 + nb.halos 1

/-- `ext_y_b`. -/
def extYB : ℕ := nb.d.domainExt 1 + nb.halos 2 + nb.halos 3

/-- The assignment of `pack_x_kernel`. -/
def packXCopy (t : l.Thread) (y z : ℕ) : Copy Place :=
  let offset := nb.extXB * (y + nb.halos 2 + (z + nb.halos 4) * nb.extYB)
  if threadIdx t 0 < nb.halos 0 then
    let x := threadIdx t 0
    let offsetL := nb.halos 0 * (y + nb.d.domainExt 1 * z)
    ⟨(.bufferLeft, x + offsetL), (.field, x + nb.d.domainExt 0 + offset)⟩
  else
    let x := threadIdx t 0 - nb.halos 0
    let offsetR := nb.halos 1 * (y + nb.d.domainExt 1 * z)
    ⟨(.bufferRight, x + offsetR), (.field, x + nb.halos 0 + offset)⟩

/-- The assignment of `unpack_x_kernel`. -/
def unpackXCopy (t : l.Thread) (y z : ℕ) : Copy Place :=
  let offset := nb.extXB * (y + nb.halos 2 + (z + nb.halos 4) * nb.extYB)
  if threadIdx t 0 < nb.halos 0 then
    let x := threadIdx t 0
    let offsetL := nb.halos 0 * (y + nb.d.domainExt 1 * z)
    ⟨(.field, x + offset), (.bufferLeft, x + offsetL)⟩
  else
    let x := threadIdx t 0 - nb.halos 0
    let offsetR := nb.halos 1 * (y + nb.d.domainExt 1 * z)
    ⟨(.field, x + nb.halos 0 + nb.d.domainExt 0 + offset), (.bufferRight, x + offsetR)⟩

/-- The x kernels, with or without `CARTEX_MPI_PACK_Z_LOOP_GPU`. -/
def xKernel (zLoop : Bool) (copy : l.Thread → ℕ → ℕ → Copy Place) (t : l.Thread) : List (Copy Place) :=
  let y := globalIdx t 1
  if zLoop then
    if y < nb.d.domainExt 1 then (List.range (nb.d.domainExt 2)).map fun z => copy t y z else []
  else
    let z := globalIdx t 2
    if y < nb.d.domainExt 1 ∧ z < nb.d.domainExt 2 then [copy t y z] else []

/-- `pack_x_kernel`. -/
def packXKernel (zLoop : Bool) (t : l.Thread) : List (Copy Place) := nb.xKernel zLoop nb.packXCopy t

/-- `unpack_x_kernel`. -/
def unpackXKernel (zLoop : Bool) (t : l.Thread) : List (Copy Place) :=
  nb.xKernel zLoop nb.unpackXCopy t

/-- `pack_y_kernel`. -/
def packYKernel (t : l.Thread) : List (Copy Place) :=
  let x := globalIdx t 0
  let z := globalIdx t 2
  if x < nb.extXB ∧ z < nb.d.domainExt 2 then
    if threadIdx t 1 < nb.halos 2 then
      let y := threadIdx t 1
      let offset := nb.extXB * (y + nb.d.domainExt 1 + (z + nb.halos 4) * nb.extYB)
      let offsetL := nb.extXB * (y + nb.halos 2 * z)
      [⟨(.bufferLeft, x + offsetL), (.field, x + offset)⟩]
    else
      let y := threadIdx t 1 - nb.halos 2
      let offset := nb.extXB * (y + nb.halos 2 + (z + nb.halos 4) * nb.extYB)
      let offsetR := nb.extXB * (y + nb.halos 3 * z)
      [⟨(.bufferRight, x + offsetR), (.field, x + offset)⟩]
  else []

/-- `unpack_y_kernel`. -/
def unpackYKernel (t : l.Thread) : List (Copy Place) :=
  let x := globalIdx t 0
  let z := globalIdx t 2
  if x < nb.extXB ∧ z < nb.d.domainExt 2 then
    if threadIdx t 1 < nb.halos 2 then
      let y := threadIdx t 1
      let offset := nb.extXB * (y + (z + nb.halos 4) * nb.extYB)
      let offsetL := nb.extXB * (y + nb.halos 2 * z)
      [⟨(.field, x + offset), (.bufferLeft, x + offsetL)⟩]
    else
      let y := threadIdx t 1 - nb.halos 2
      let offset := nb.extXB * (y + nb.halos 2 + nb.d.domainExt 1 + (z + nb.halos 4) * nb.extYB)
      let offsetR := nb.extXB * (y + nb.halos 3 * z)
      [⟨(.field, x + offset), (.bufferRight, x + offsetR)⟩]
  else []

/-- `pack_z_kernel`; both halos go to `buffer_left`. -/
def packZKernel (t : l.Thread) : List (Copy Place) :=
  let x := globalIdx t 0
  let y := globalIdx t 1
  if x < nb.extXB ∧ y < nb.extYB then
    if threadIdx t 2 < nb.halos 4 then
      let z := threadIdx t 2
      let offset := nb.extXB * (y + nb.extYB * (z + nb.d.domainExt 2))
      let offsetL := nb.extXB * (y + nb.extYB * z)
      [⟨(.bufferLeft, x + offsetL), (.field, x + offset)⟩]
    else
      let z := threadIdx t 2 - nb.halos 4
      let offset := nb.extXB * (y + nb.extYB * (z + nb.halos 4))
      let offsetR := nb.extXB * (y + nb.extYB * z)
      [⟨(.bufferLeft, x + offsetR), (.field, x + offset)⟩]
  else []

/-- `unpack_z_kernel`. -/
def unpackZKernel (t : l.Thread) : List (Copy Place) :=
  let x := globalIdx t 0
  let y := globalIdx t 1
  if x < nb.extXB ∧ y < nb.extYB then
    if threadIdx t 2 < nb.halos 4 then
      let z := threadIdx t 2
      let offset := nb.extXB * (y + nb.extYB * z)
      let offsetL := nb.extXB * (y + nb.extYB * z)
      [⟨(.field, x + offset), (.bufferLeft, x + offsetL)⟩]
    else
      let z := threadIdx t 2 - nb.halos 4
      let offset := nb.extXB * (y + nb.extYB * (z + nb.d.domainExt 2 + nb.halos 4))
      let offsetR := nb.extXB * (y + nb.extYB * z)
      [⟨(.field, x + offset), (.bufferRight, x + offsetR)⟩]
  else []

end Kernels

end Neighborhood

end Ghexbench.Cartex
