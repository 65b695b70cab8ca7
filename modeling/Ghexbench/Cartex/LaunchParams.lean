import Ghexbench.Cartex.Pack

/-!
# Launch parameters of the kernels

The constructor of `neighborhood` computes how many threads of a block and how many blocks run
each packing kernel. One dimension of a block covers both halos, another one is rounded down to
full warps, and the third takes what is left. A division by zero has no result.
-/

namespace Ghexbench.Cartex

open Ghexbench.Common

section Arithmetic

/-- `max_threads`. -/
def maxThreads : ℕ := 512

/-- `max_threads_x`. -/
def maxThreadsX : ℕ := 512

/-- `max_threads_y`. -/
def maxThreadsY : ℕ := 512

/-- `max_threads_z`. -/
def maxThreadsZ : ℕ := 64

/-- `warp_size`. -/
def warpSize : ℕ := 32

/-- The division of two `int` that are not negative. -/
def divInt (a b : ℕ) : Option ℕ := if b = 0 then none else some (a / b)

/-- As many threads as are left in a block besides a number of threads in another dimension, at
most one for each element, rounded down to a multiple of the warp size. -/
def warpDim (other ext maxDim : ℕ) : Option ℕ := do
  let remainingThreadsPerBlock ← divInt maxThreads other
  let blockDim := min (min ext remainingThreadsPerBlock) maxDim
  some (blockDim / warpSize * warpSize)

/-- The number of blocks for a range. -/
def numBlocks (ext blockDim : ℕ) : Option ℕ := divInt (ext + blockDim - 1) blockDim

/-- Division by a positive number. -/
theorem divInt_of_pos {a b : ℕ} (hb : 0 < b) : divInt a b = some (a / b) := if_neg hb.ne'

/-- The number of blocks of positive size. -/
theorem numBlocks_of_pos {ext blockDim : ℕ} (h : 0 < blockDim) :
    numBlocks ext blockDim = some ((ext + blockDim - 1) / blockDim) := divInt_of_pos h

/-- The blocks cover the range. -/
theorem le_numBlocks_mul {ext blockDim : ℕ} (h : 0 < blockDim) :
    ext ≤ (ext + blockDim - 1) / blockDim * blockDim := by
  have hdiv := Nat.div_add_mod (ext + blockDim - 1) blockDim
  have hmod := Nat.mod_lt (ext + blockDim - 1) h
  rw [Nat.mul_comm] at hdiv
  omega

/-- The dimension that is rounded to full warps. -/
def warps (other ext : ℕ) : ℕ := min (min ext (maxThreads / other)) 512 / warpSize * warpSize

/-- The dimension that is rounded to full warps. -/
theorem warpDim_of_pos {other : ℕ} (hother : 0 < other) (ext : ℕ) :
    warpDim other ext 512 = some (warps other ext) := by
  rw [warpDim, divInt_of_pos hother]
  rfl

/-- There is a full warp if the range and the number of threads that are left are large enough. -/
theorem warps_pos_iff {other ext : ℕ} (hother : 0 < other) :
    0 < warps other ext ↔ other ≤ 16 ∧ 32 ≤ ext := by
  have hleft : 32 ≤ maxThreads / other ↔ other ≤ 16 := by
    rw [Nat.le_div_iff_mul_le hother, maxThreads]
    omega
  simp only [warps, warpSize]
  omega

/-- The rounded dimension leaves room for the other one. -/
theorem mul_warps_le (other ext : ℕ) : other * warps other ext ≤ maxThreads := by
  have hle : warps other ext ≤ maxThreads / other := by
    simp only [warps, warpSize]
    omega
  exact (Nat.mul_le_mul_left other hle).trans (Nat.mul_div_le maxThreads other)

/-- The third dimension gets at least one thread. -/
theorem div_warps_pos {other ext : ℕ} (hother : 0 < other) (h : 0 < warps other ext) :
    0 < maxThreads / (other * warps other ext) :=
  Nat.div_pos (mul_warps_le other ext) (Nat.mul_pos hother h)

/-- The third dimension takes no more than the others leave. -/
theorem mul_le_maxThreads {a k : ℕ} (h : k ≤ maxThreads / a) : a * k ≤ maxThreads :=
  (Nat.mul_le_mul_left a h).trans (Nat.mul_div_le maxThreads a)

end Arithmetic

/-- The dimensions of the blocks, and the numbers of blocks. -/
structure Launch where
  dims : Arr ℕ
  blocks : Arr ℕ

/-- A launch is accepted, and its threads cover the index ranges of the kernel. -/
structure Launch.Valid (l : Launch) (ranges : Arr ℕ) : Prop where
  pos : ∀ d, 1 ≤ l.dims d
  volume_le : volume l.dims ≤ maxThreads
  z_le : l.dims 2 ≤ maxThreadsZ
  covers : ∀ d, ranges d ≤ l.blocks d * l.dims d

/-- The conditions on a launch, one dimension after the other. -/
theorem Launch.valid_of {x y z blocksX blocksY blocksZ : ℕ} {ranges : Arr ℕ} (hx : 0 < x)
    (hy : 0 < y) (hz : 0 < z) (hle : x * y * z ≤ maxThreads) (hmax : z ≤ maxThreadsZ)
    (hcoverX : ranges 0 ≤ blocksX * x) (hcoverY : ranges 1 ≤ blocksY * y)
    (hcoverZ : ranges 2 ≤ blocksZ * z) :
    Launch.Valid ⟨![x, y, z], ![blocksX, blocksY, blocksZ]⟩ ranges where
  pos d := by
    fin_cases d
    · exact hx
    · exact hy
    · exact hz
  volume_le := hle
  z_le := hmax
  covers d := by
    fin_cases d
    · exact hcoverX
    · exact hcoverY
    · exact hcoverZ

namespace Neighborhood

variable (nb : Neighborhood)

/-- `dims_x` and `blocks_x`, with or without `CARTEX_MPI_PACK_Z_LOOP_GPU`. -/
def launchX (zLoop : Bool) : Option Launch := do
  let blockDimX := nb.halos 0 + nb.halos 1
  let blockDimY ← warpDim blockDimX (nb.d.domainExt 1) maxThreadsY
  if zLoop then
    let blockDimZ := 1
    let blocksY ← numBlocks (nb.d.domainExt 1) blockDimY
    some ⟨![blockDimX, blockDimY, blockDimZ], ![1, blocksY, 1]⟩
  else
    let blockDimZ := min (← divInt maxThreads (blockDimX * blockDimY)) maxThreadsZ
    let blocksY ← numBlocks (nb.d.domainExt 1) blockDimY
    let blocksZ ← numBlocks (nb.d.domainExt 2) blockDimZ
    some ⟨![blockDimX, blockDimY, blockDimZ], ![1, blocksY, blocksZ]⟩

/-- `dims_y` and `blocks_y`. -/
def launchY : Option Launch := do
  let blockDimY := nb.halos 2 + nb.halos 3
  let blockDimX ← warpDim blockDimY (nb.extBuffer 0) maxThreadsX
  let blockDimZ := min (← divInt maxThreads (blockDimX * blockDimY)) maxThreadsZ
  let blocksX ← numBlocks (nb.extBuffer 0) blockDimX
  let blocksZ ← numBlocks (nb.d.domainExt 2) blockDimZ
  some ⟨![blockDimX, blockDimY, blockDimZ], ![blocksX, 1, blocksZ]⟩

/-- `dims_z` and `blocks_z` (`CARTEX_MPI_PACK_Z`). -/
def launchZ : Option Launch := do
  let blockDimZ := nb.halos 4 + nb.halos 5
  let blockDimX ← warpDim blockDimZ (nb.extBuffer 0) maxThreadsX
  let blockDimY := min (min (← divInt maxThreads (blockDimX * blockDimZ)) maxThreadsY)
    (nb.extBuffer 1)
  let blocksX ← numBlocks (nb.extBuffer 0) blockDimX
  let blocksY ← numBlocks (nb.extBuffer 1) blockDimY
  some ⟨![blockDimX, blockDimY, blockDimZ], ![blocksX, blocksY, 1]⟩

/-- The index ranges that the x kernels guard; one of them loops over z by itself. -/
def rangesX (zLoop : Bool) : Arr ℕ :=
  ![nb.halos 0 + nb.halos 1, nb.d.domainExt 1, if zLoop then 1 else nb.d.domainExt 2]

/-- The index ranges that the y kernels guard. -/
def rangesY : Arr ℕ := ![nb.extBuffer 0, nb.halos 2 + nb.halos 3, nb.d.domainExt 2]

/-- The index ranges that the z kernels guard. -/
def rangesZ : Arr ℕ := ![nb.extBuffer 0, nb.extBuffer 1, nb.halos 4 + nb.halos 5]

/-- All launch parameters can be computed and are valid. -/
def LaunchesValid (zLoop packZ : Bool) : Prop :=
  (∃ l, nb.launchX zLoop = some l ∧ l.Valid (nb.rangesX zLoop)) ∧
  (∃ l, nb.launchY = some l ∧ l.Valid nb.rangesY) ∧
  (packZ → ∃ l, nb.launchZ = some l ∧ l.Valid nb.rangesZ)

variable {nb} {l : Launch}

section Kernels

/-- The parameters of the x kernels can only be computed with a full warp. -/
theorem warps_of_launchX (hhalo : 0 < nb.halos 0 + nb.halos 1) {zLoop : Bool}
    (h : nb.launchX zLoop = some l) :
    0 < warps (nb.halos 0 + nb.halos 1) (nb.d.domainExt 1) := by
  have hdim := warpDim_of_pos hhalo (nb.d.domainExt 1)
  apply Nat.pos_of_ne_zero
  intro hzero
  rw [hzero] at hdim
  cases zLoop <;> simp [launchX, maxThreadsY, hdim, divInt, numBlocks] at h

/-- With a full warp the parameters of the x kernels are valid. -/
theorem launchX_valid (hhalo : 0 < nb.halos 0 + nb.halos 1)
    (hpos : 0 < warps (nb.halos 0 + nb.halos 1) (nb.d.domainExt 1)) (zLoop : Bool) :
    ∃ l, nb.launchX zLoop = some l ∧ l.Valid (nb.rangesX zLoop) := by
  have hdim := warpDim_of_pos hhalo (nb.d.domainExt 1)
  have hleft := div_warps_pos hhalo hpos
  have hthird := lt_min hleft (show 0 < maxThreadsZ by decide)
  have hsome := divInt_of_pos (a := maxThreads) (Nat.mul_pos hhalo hpos)
  cases zLoop with
  | true =>
    simp only [launchX, maxThreadsY, hdim, if_true, Option.bind_eq_bind, Option.bind_some,
      numBlocks_of_pos hpos, Option.some.injEq, exists_eq_left']
    apply Launch.valid_of hhalo hpos Nat.one_pos (mul_le_maxThreads hleft) (by decide)
    · exact le_of_eq (Nat.one_mul _).symm
    · exact le_numBlocks_mul hpos
    · exact le_rfl
  | false =>
    simp only [launchX, maxThreadsY, hdim, Bool.false_eq_true, if_false, Option.bind_eq_bind,
      Option.bind_some, hsome, numBlocks_of_pos hpos, numBlocks_of_pos hthird,
      Option.some.injEq, exists_eq_left']
    apply Launch.valid_of hhalo hpos hthird (mul_le_maxThreads (min_le_left _ _)) (min_le_right _ _)
    · exact le_of_eq (Nat.one_mul _).symm
    · exact le_numBlocks_mul hpos
    · exact le_numBlocks_mul hthird

/-- The parameters of the y kernels can only be computed with a full warp. -/
theorem warps_of_launchY (hhalo : 0 < nb.halos 2 + nb.halos 3) (h : nb.launchY = some l) :
    0 < warps (nb.halos 2 + nb.halos 3) (nb.extBuffer 0) := by
  have hdim := warpDim_of_pos hhalo (nb.extBuffer 0)
  apply Nat.pos_of_ne_zero
  intro hzero
  rw [hzero] at hdim
  simp [launchY, maxThreadsX, hdim, divInt, numBlocks] at h

/-- With a full warp the parameters of the y kernels are valid. -/
theorem launchY_valid (hhalo : 0 < nb.halos 2 + nb.halos 3)
    (hpos : 0 < warps (nb.halos 2 + nb.halos 3) (nb.extBuffer 0)) :
    ∃ l, nb.launchY = some l ∧ l.Valid nb.rangesY := by
  have hdim := warpDim_of_pos hhalo (nb.extBuffer 0)
  have hleft := div_warps_pos hhalo hpos
  rw [Nat.mul_comm] at hleft
  have hthird := lt_min hleft (show 0 < maxThreadsZ by decide)
  have hsome := divInt_of_pos (a := maxThreads) (Nat.mul_pos hpos hhalo)
  simp only [launchY, maxThreadsX, hdim, Option.bind_eq_bind, Option.bind_some, hsome,
    numBlocks_of_pos hpos, numBlocks_of_pos hthird, Option.some.injEq, exists_eq_left']
  apply Launch.valid_of hpos hhalo hthird (mul_le_maxThreads (min_le_left _ _)) (min_le_right _ _)
  · exact le_numBlocks_mul hpos
  · exact le_of_eq (Nat.one_mul _).symm
  · exact le_numBlocks_mul hthird

/-- The parameters of the z kernels can only be computed with a full warp. -/
theorem warps_of_launchZ (hhalo : 0 < nb.halos 4 + nb.halos 5) (h : nb.launchZ = some l) :
    0 < warps (nb.halos 4 + nb.halos 5) (nb.extBuffer 0) := by
  have hdim := warpDim_of_pos hhalo (nb.extBuffer 0)
  apply Nat.pos_of_ne_zero
  intro hzero
  rw [hzero] at hdim
  simp [launchZ, maxThreadsX, hdim, divInt, numBlocks] at h

/-- With a full warp the parameters of the z kernels are valid. -/
theorem launchZ_valid (hhalo : 0 < nb.halos 4 + nb.halos 5) (hext : 0 < nb.extBuffer 1)
    (hpos : 0 < warps (nb.halos 4 + nb.halos 5) (nb.extBuffer 0)) :
    ∃ l, nb.launchZ = some l ∧ l.Valid nb.rangesZ := by
  have hdim := warpDim_of_pos hhalo (nb.extBuffer 0)
  have hleft := div_warps_pos hhalo hpos
  rw [Nat.mul_comm] at hleft
  have hsecond := lt_min (lt_min hleft (show 0 < maxThreadsY by decide)) hext
  have hsome := divInt_of_pos (a := maxThreads) (Nat.mul_pos hpos hhalo)
  have hhalos : nb.halos 4 + nb.halos 5 ≤ 16 := ((warps_pos_iff hhalo).mp hpos).1
  simp only [launchZ, maxThreadsX, hdim, Option.bind_eq_bind, Option.bind_some, hsome,
    numBlocks_of_pos hpos, numBlocks_of_pos hsecond, Option.some.injEq, exists_eq_left']
  apply Launch.valid_of hpos hsecond hhalo
  · rw [Nat.mul_right_comm]
    exact mul_le_maxThreads ((min_le_left _ _).trans (min_le_left _ _))
  · exact hhalos.trans (by decide)
  · exact le_numBlocks_mul hpos
  · exact le_numBlocks_mul hsecond
  · exact le_of_eq (Nat.one_mul _).symm

/-- What the launch parameters of all kernels depend on. -/
theorem Built.launchesValid_iff (h : nb.Built) (hext : ∀ d, 1 ≤ nb.d.domainExt d)
    (hx : 0 < nb.halos 0 + nb.halos 1) (hy : 0 < nb.halos 2 + nb.halos 3)
    (hz : 0 < nb.halos 4 + nb.halos 5) (zLoop packZ : Bool) :
    nb.LaunchesValid zLoop packZ ↔
      (nb.halos 0 + nb.halos 1 ≤ 16 ∧ 32 ≤ nb.d.domainExt 1) ∧
      (nb.halos 2 + nb.halos 3 ≤ 16 ∧ 32 ≤ nb.extBuffer 0) ∧
      (packZ → nb.halos 4 + nb.halos 5 ≤ 16) := by
  have hone : 0 < nb.extBuffer 1 := by
    have := hext 1
    rw [h.extBuffer]
    change 0 < nb.d.domainExt 1 + nb.halos 2 + nb.halos 3
    omega
  constructor
  · rintro ⟨⟨lx, hlx, -⟩, ⟨ly, hly, -⟩, hpack⟩
    refine ⟨(warps_pos_iff hx).mp (warps_of_launchX hx hlx),
      (warps_pos_iff hy).mp (warps_of_launchY hy hly), fun hz' => ?_⟩
    obtain ⟨lz, hlz, -⟩ := hpack hz'
    exact ((warps_pos_iff hz).mp (warps_of_launchZ hz hlz)).1
  · rintro ⟨hcx, hcy, hcz⟩
    refine ⟨launchX_valid hx ((warps_pos_iff hx).mpr hcx) zLoop,
      launchY_valid hy ((warps_pos_iff hy).mpr hcy), fun hpack => ?_⟩
    exact launchZ_valid hz hone ((warps_pos_iff hz).mpr ⟨hcz hpack, hcy.2⟩)

end Kernels

end Neighborhood

/-- The launch parameters are valid if and only if the halos of each dimension together have a width
of at most 16, and there are at least 32 elements in the dimensions that are rounded to warps: the y
extent of the domain and the x extent of the extended buffer. -/
theorem launches_valid_iff {rankGrid : Arr ℕ} (decomp : Decomposition rankGrid) (i : ℕ)
    (halos : Fin 6 → ℕ) (hext : ∀ d, 1 ≤ (decomp.domain i).domainExt d)
    (hx : 0 < halos 0 + halos 1) (hy : 0 < halos 2 + halos 3) (hz : 0 < halos 4 + halos 5)
    (zLoop packZ : Bool) :
    (decomp.neighborhood i halos).LaunchesValid zLoop packZ ↔
      (halos 0 + halos 1 ≤ 16 ∧ 32 ≤ (decomp.domain i).domainExt 1) ∧
      (halos 2 + halos 3 ≤ 16 ∧ 32 ≤ (decomp.domain i).domainExt 0 + halos 0 + halos 1) ∧
      (packZ → halos 4 + halos 5 ≤ 16) :=
  Neighborhood.Built.launchesValid_iff ⟨rfl, rfl⟩ hext hx hy hz zLoop packZ

/-- The decomposition into a single domain. -/
def cubeDecomposition (n : ℕ) : Decomposition (cube n).rankGrid :=
  (cube n).decomposition (cubePlacement n) 0

/-- The parameters for the default domain. -/
theorem launches_valid_default :
    ((cubeDecomposition 64).neighborhood 0 fun _ => 1).LaunchesValid false true :=
  (launches_valid_iff (cubeDecomposition 64) 0 (fun _ => 1) (by decide) (by decide) (by decide)
    (by decide) false true).mpr (by decide)

/-- For a smaller domain the number of threads is rounded down to zero, by which the constructor
divides. -/
theorem launches_invalid_small :
    ¬ ((cubeDecomposition 16).neighborhood 0 fun _ => 1).LaunchesValid false false := by
  rintro ⟨⟨l, hl, -⟩, -⟩
  have hnone : ((cubeDecomposition 16).neighborhood 0 fun _ => 1).launchX false = none := rfl
  exact absurd (hnone.symm.trans hl) (Option.some_ne_none l).symm

end Ghexbench.Cartex
