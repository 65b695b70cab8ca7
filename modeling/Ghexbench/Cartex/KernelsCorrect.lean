import Ghexbench.Cartex.KernelThreads
import Mathlib.Data.Fintype.Pi
import Mathlib.Data.Fintype.Prod

/-!
# The packing kernels are correct

If the threads of a launch cover the ranges of a kernel, with one block in the dimension of the halos, every
element of the two blocks of this dimension is copied by a thread. As the copies do not disturb each
other, the threads leave what the packing functions leave, whatever their order is.
-/

namespace Ghexbench.Cartex

open Ghexbench.Common

variable {V : Type*}

namespace Launch

variable {l : Launch}

/-- A launch with one block in the dimension of the halos, whose threads cover both halos and the ranges of
the other dimensions. -/
structure Suits (l : Launch) (nb : Neighborhood) (dim : Fin 3) (ranges : Arr ℕ) : Prop where
  dims : l.dims dim = haloLeft nb.halos dim + haloRight nb.halos dim
  blocks : l.blocks dim = 1
  covers : ∀ d, ranges d ≤ l.blocks d * l.dims d

/-- In every order of the loads and stores the threads come to an end, and at the end the arrays are as
given. -/
structure Leaves (kernel : l.Thread → List (Copy Place))
    (result : (ℕ → V) → (ℕ → V) → (ℕ → V) → Place → V) : Prop where
  bounded : ∃ bound, ∀ (mem : Place → V) (actions : List l.Thread) s,
    runActions ThreadsState.next (ThreadsState.init kernel mem) actions = some s →
      actions.length ≤ bound
  ends : ∀ mem : Place → V, ∃ s, ThreadsState.Reached kernel mem s ∧
    ∀ t, ThreadsState.next s t = none
  contents : ∀ (field bufferLeft bufferRight : ℕ → V) s,
    ThreadsState.Reached kernel (arrays field bufferLeft bufferRight) s →
    (∀ t, ThreadsState.next s t = none) → s.mem = result field bufferLeft bufferRight

/-- A copy with indices of type `unsigned`. Addition and multiplication of `unsigned` are those of natural
numbers modulo `2 ^ 32`. -/
def unsignedCopy (c : Copy Place) : Copy Place :=
  ⟨(c.dst.1, c.dst.2 % 2 ^ 32), (c.src.1, c.src.2 % 2 ^ 32)⟩

/-- The indices of the threads and those of the elements that they access are the same in `unsigned`. -/
structure WithoutOverflow (kernel : l.Thread → List (Copy Place)) : Prop where
  threads : ∀ (t : l.Thread) d, globalIdx t d % 2 ^ 32 = globalIdx t d
  elements : ∀ t, ∀ c ∈ kernel t, unsignedCopy c = c

/-- No two threads write the same element. -/
def WritesOnce (kernel : l.Thread → List (Copy Place)) : Prop :=
  ∀ t t', t ≠ t' → ∀ c ∈ kernel t, ∀ c' ∈ kernel t', c.dst ≠ c'.dst

end Launch

namespace Neighborhood

variable {nb : Neighborhood} {l : Launch}

section Kernels

open Launch

/-- Copies between the same arrays. -/
theorem copy_congr {b b' : Buffer} {i i' j j' : ℕ} (hi : i = i') (hj : j = j') :
    (⟨(b, i), (b', j)⟩ : Copy Place) = ⟨(b, i'), (b', j')⟩ := by
  rw [hi, hj]

/-- The sizes of the blocks of a dimension. -/
def sizes (nb : Neighborhood) (dim : Fin 3) (left : Bool) : Arr ℕ := (nb.recvType dim left).size

/-- The blocks of a dimension differ in this dimension only. -/
theorem sizes_of_ne (nb : Neighborhood) {dim d : Fin 3} (hd : d ≠ dim) :
    nb.sizes dim true d = nb.sizes dim false d := by
  simp only [sizes, recvType_size, if_neg hd]

variable (b : nb.Built)
include b

/-- `ext_x_b` is the x extent of the extended buffer. -/
theorem Built.extXB_eq : nb.extXB = nb.extBuffer 0 := (congrFun b.extBuffer 0).symm

/-- `ext_y_b` is the y extent of the extended buffer. -/
theorem Built.extYB_eq : nb.extYB = nb.extBuffer 1 := (congrFun b.extBuffer 1).symm

/-- What the threads of `pack_x_kernel` copy in a plane. -/
theorem Built.packXCopy_eq {t : l.Thread} {g : Arr ℕ} (hg : g 0 = threadIdx t 0) :
    nb.packXCopy t (g 1) (g 2) = if g 0 < nb.halos 0 then nb.packCopy 0 false g
      else nb.packCopy 0 true (Function.update g 0 (g 0 - nb.halos 0)) := by
  simp only [packXCopy, b.extXB_eq, b.extYB_eq, ← hg]
  apply if_congr Iff.rfl <;> apply copy_congr rfl
  all_goals
    simp only [index_packed, Function.update_apply, Fin.isValue, Fin.reduceEq, if_true, if_false,
      Bool.false_eq_true]
    ring

/-- What the threads of `unpack_x_kernel` copy in a plane. -/
theorem Built.unpackXCopy_eq {t : l.Thread} {g : Arr ℕ} (hg : g 0 = threadIdx t 0) :
    nb.unpackXCopy t (g 1) (g 2) = if g 0 < nb.halos 0 then nb.unpackCopy 0 false g
      else nb.unpackCopy 0 true (Function.update g 0 (g 0 - nb.halos 0)) := by
  simp only [unpackXCopy, b.extXB_eq, b.extYB_eq, ← hg]
  apply if_congr Iff.rfl <;> refine copy_congr ?_ rfl
  all_goals
    simp only [index_recvType, Function.update_apply, Fin.isValue, Fin.reduceEq, if_true, if_false,
      Bool.false_eq_true]
    ring

omit b in
/-- What the threads of an x kernel copy. -/
theorem xKernel_eq {copyAt : l.Thread → ℕ → ℕ → Copy Place} {copy : Bool → Arr ℕ → Copy Place}
    {t : l.Thread} (hcopy : ∀ g : Arr ℕ, g 0 = threadIdx t 0 → copyAt t (g 1) (g 2) =
      if g 0 < nb.halos 0 then copy false g
      else copy true (Function.update g 0 (g 0 - nb.halos 0))) (hblocks : l.blocks 0 = 1) :
    nb.xKernel false copyAt t = pick 0 (nb.sizes 0) copy (globalIdx t) ∧
    nb.xKernel true copyAt t = (List.range (nb.sizes 0 false 2)).flatMap fun z =>
      pick 0 (nb.sizes 0) copy (Function.update (globalIdx t) 2 z) := by
  have hthread := (threadIdx_eq hblocks t).symm
  have hguard (g : Arr ℕ) : (∀ d, d ≠ 0 → g d < nb.sizes 0 false d) ↔
      g 1 < nb.d.domainExt 1 ∧ g 2 < nb.d.domainExt 2 := by
    simp [Fin.forall_fin_succ, sizes, recvType_size]
  have hpick (g : Arr ℕ) (hg : g 0 = threadIdx t 0) : pick 0 (nb.sizes 0) copy g =
      if g 1 < nb.d.domainExt 1 ∧ g 2 < nb.d.domainExt 2 then [copyAt t (g 1) (g 2)] else [] := by
    rw [hcopy g hg, apply_ite (fun c => [c])]
    exact if_congr (hguard g) rfl rfl
  constructor
  · exact (hpick (globalIdx t) hthread).symm
  · have hplane (z : ℕ) : pick 0 (nb.sizes 0) copy (Function.update (globalIdx t) 2 z) =
        if globalIdx t 1 < nb.d.domainExt 1 ∧ z < nb.d.domainExt 2 then [copyAt t (globalIdx t 1) z]
        else [] := hpick (Function.update (globalIdx t) 2 z) hthread
    simp only [hplane, xKernel, if_true]
    split
    · next hlt =>
      rw [List.map_eq_flatMap]
      apply List.flatMap_congr
      intro z hz
      rw [if_pos ⟨hlt, List.mem_range.mp hz⟩]
    · next hge =>
      apply (List.flatMap_eq_nil_iff.mpr _).symm
      intro z _
      exact if_neg fun h => hge h.1

/-- What the threads of `pack_y_kernel` copy. -/
theorem Built.packYKernel_eq (hblocks : l.blocks 1 = 1) (t : l.Thread) :
    nb.packYKernel t = pick 1 (nb.sizes 1) (nb.packCopy 1) (globalIdx t) := by
  simp only [packYKernel, threadIdx_eq hblocks, b.extXB_eq, b.extYB_eq]
  apply pick_of_guard
  · rfl
  · rfl
  · simp [Fin.forall_fin_succ, sizes, recvType_size]
  all_goals
    apply copy_congr rfl
    simp only [index_packed, Function.update_apply, Fin.isValue, Fin.reduceEq, if_true, if_false,
      Bool.false_eq_true]
    ring

/-- What the threads of `unpack_y_kernel` copy. -/
theorem Built.unpackYKernel_eq (hblocks : l.blocks 1 = 1) (t : l.Thread) :
    nb.unpackYKernel t = pick 1 (nb.sizes 1) (nb.unpackCopy 1) (globalIdx t) := by
  simp only [unpackYKernel, threadIdx_eq hblocks, b.extXB_eq, b.extYB_eq]
  apply pick_of_guard
  · rfl
  · rfl
  · simp [Fin.forall_fin_succ, sizes, recvType_size]
  all_goals
    refine copy_congr ?_ rfl
    simp only [index_recvType, Function.update_apply, Fin.isValue, Fin.reduceEq, if_true, if_false,
      Bool.false_eq_true]
    ring

/-- What the threads of `unpack_z_kernel` copy. -/
theorem Built.unpackZKernel_eq (hblocks : l.blocks 2 = 1) (t : l.Thread) :
    nb.unpackZKernel t = pick 2 (nb.sizes 2) (nb.unpackCopy 2) (globalIdx t) := by
  simp only [unpackZKernel, threadIdx_eq hblocks, b.extXB_eq, b.extYB_eq]
  apply pick_of_guard
  · rfl
  · rfl
  · simp [Fin.forall_fin_succ, sizes, recvType_size]
  all_goals
    refine copy_congr ?_ rfl
    simp only [index_recvType, Function.update_apply, Fin.isValue, Fin.reduceEq, if_true, if_false,
      Bool.false_eq_true]
    ring

end Kernels

variable {dim : Fin 3} {zLoop : Bool}

/-- The arrays after the packing function of a dimension. -/
def packResult (nb : Neighborhood) (dim : Fin 3) (field bufferLeft bufferRight : ℕ → V) : Place → V :=
  let buffers := nb.pack dim field bufferLeft bufferRight
  arrays field buffers.1 buffers.2

/-- The arrays after the unpacking function of a dimension. -/
def unpackResult (nb : Neighborhood) (dim : Fin 3) (field bufferLeft bufferRight : ℕ → V) : Place → V :=
  arrays (nb.unpack dim field bufferLeft bufferRight) bufferLeft bufferRight

variable {kernel : l.Thread → List (Copy Place)}

/-- Threads that make the copies of a function in any order leave what the function leaves. -/
theorem leaves_of_copies {trace : List (Copy Place)}
    {result : (ℕ → V) → (ℕ → V) → (ℕ → V) → Place → V}
    (hall : ThreadsState.allCopies kernel = {c | c ∈ trace}) (hind : Copy.Independent {c | c ∈ trace})
    (hresult : ∀ field bufferLeft bufferRight, result field bufferLeft bufferRight =
      Copy.runAll trace (arrays field bufferLeft bufferRight)) : Launch.Leaves kernel result where
  bounded := ⟨_, fun _ _ _ => ThreadsState.length_le_of_run⟩
  ends mem := ThreadsState.exists_end kernel mem
  contents field bufferLeft bufferRight s hs hend := by
    rw [hresult]
    exact hs.mem_eq_runAll hall (hall ▸ hind) hend

/-- The indices of the threads in the dimension of the halos are those of both halos. -/
theorem globalIdx_lt_sizes {ranges : Arr ℕ} (hl : l.Suits nb dim ranges) (t : l.Thread) :
    Launch.globalIdx t dim < nb.sizes dim false dim + nb.sizes dim true dim := by
  have hlt := Launch.globalIdx_lt t dim
  rw [hl.blocks, Nat.one_mul, hl.dims] at hlt
  simpa [sizes, recvType_size] using hlt

/-- The ranges of the x kernels. -/
theorem rangesOf_x (zLoop : Bool) : Launch.rangesOf 0 zLoop (nb.sizes 0) = nb.rangesX zLoop := by
  funext d
  fin_cases d <;> cases zLoop <;> rfl

/-- The ranges of the y kernels. -/
theorem rangesOf_y : Launch.rangesOf 1 false (nb.sizes 1) = nb.rangesY := by
  funext d
  fin_cases d <;> rfl

/-- The ranges of the z kernels. -/
theorem rangesOf_z : Launch.rangesOf 2 false (nb.sizes 2) = nb.rangesZ := by
  funext d
  fin_cases d <;> rfl

section Agreement

variable (hl : l.Suits nb dim (Launch.rangesOf dim zLoop (nb.sizes dim))) (hdim : zLoop = true → dim ≠ 2)
include hl hdim

/-- Threads that copy the elements of the packed blocks leave what the packing function leaves. -/
theorem leaves_pack (h : Launch.Splits dim zLoop (nb.sizes dim) (nb.packCopy dim) kernel) :
    Launch.Leaves kernel (nb.packResult dim (V := V)) := by
  apply leaves_of_copies _ (nb.pack_independent dim)
  · intro field bufferLeft bufferRight
    exact nb.pack_follows dim (bufferLeft, bufferRight)
  · ext c
    exact (h.exists_iff hdim (fun d => nb.sizes_of_ne) hl.covers).trans mem_packTrace.symm

/-- Threads that copy the elements of the unpacked blocks leave what the unpacking function leaves. -/
theorem Built.leaves_unpack (b : nb.Built)
    (h : Launch.Splits dim zLoop (nb.sizes dim) (nb.unpackCopy dim) kernel) :
    Launch.Leaves kernel (nb.unpackResult dim (V := V)) := by
  apply leaves_of_copies _ (b.unpack_independent dim)
  · intro field bufferLeft bufferRight
    exact nb.unpack_follows dim field
  · ext c
    exact (h.exists_iff hdim (fun d => nb.sizes_of_ne) hl.covers).trans mem_unpackTrace.symm

end Agreement

section Splits

variable {ranges : Arr ℕ} (b : nb.Built)
include b

/-- The threads of `pack_x_kernel` copy the elements of the packed blocks. -/
theorem Built.packXKernel_splits (hl : l.Suits nb 0 ranges) (zLoop : Bool) :
    Launch.Splits 0 zLoop (nb.sizes 0) (nb.packCopy 0) (nb.packXKernel (l := l) zLoop) := by
  have hkernel (t : l.Thread) := xKernel_eq (fun _ => b.packXCopy_eq (t := t)) hl.blocks
  have hlt := globalIdx_lt_sizes hl
  cases zLoop with
  | true => exact Launch.splits_of_loop (fun t => (hkernel t).2) (by decide) hlt fun _ => nb.sizes_of_ne
  | false => exact Launch.splits_of_pick (fun t => (hkernel t).1) hlt fun _ => nb.sizes_of_ne

/-- The threads of `unpack_x_kernel` copy the elements of the unpacked blocks. -/
theorem Built.unpackXKernel_splits (hl : l.Suits nb 0 ranges) (zLoop : Bool) :
    Launch.Splits 0 zLoop (nb.sizes 0) (nb.unpackCopy 0) (nb.unpackXKernel (l := l) zLoop) := by
  have hkernel (t : l.Thread) := xKernel_eq (fun _ => b.unpackXCopy_eq (t := t)) hl.blocks
  have hlt := globalIdx_lt_sizes hl
  cases zLoop with
  | true => exact Launch.splits_of_loop (fun t => (hkernel t).2) (by decide) hlt fun _ => nb.sizes_of_ne
  | false => exact Launch.splits_of_pick (fun t => (hkernel t).1) hlt fun _ => nb.sizes_of_ne

/-- The threads of `pack_y_kernel` copy the elements of the packed blocks. -/
theorem Built.packYKernel_splits (hl : l.Suits nb 1 ranges) :
    Launch.Splits 1 false (nb.sizes 1) (nb.packCopy 1) (nb.packYKernel (l := l)) :=
  Launch.splits_of_pick (b.packYKernel_eq hl.blocks) (globalIdx_lt_sizes hl) fun _ => nb.sizes_of_ne

/-- The threads of `unpack_y_kernel` copy the elements of the unpacked blocks. -/
theorem Built.unpackYKernel_splits (hl : l.Suits nb 1 ranges) :
    Launch.Splits 1 false (nb.sizes 1) (nb.unpackCopy 1) (nb.unpackYKernel (l := l)) :=
  Launch.splits_of_pick (b.unpackYKernel_eq hl.blocks) (globalIdx_lt_sizes hl) fun _ => nb.sizes_of_ne

/-- The threads of `unpack_z_kernel` copy the elements of the unpacked blocks. -/
theorem Built.unpackZKernel_splits (hl : l.Suits nb 2 ranges) :
    Launch.Splits 2 false (nb.sizes 2) (nb.unpackCopy 2) (nb.unpackZKernel (l := l)) :=
  Launch.splits_of_pick (b.unpackZKernel_eq hl.blocks) (globalIdx_lt_sizes hl) fun _ => nb.sizes_of_ne

end Splits

section WritesOnce

/-- Every element of the buffers is packed by one thread. -/
theorem writesOnce_pack (h : Launch.Splits dim zLoop (nb.sizes dim) (nb.packCopy dim) kernel)
    (hloop : zLoop = true → l.blocks 2 * l.dims 2 = 1) : Launch.WritesOnce kernel :=
  fun _ _ hne _ hc _ hc' hdst => hne (h.eq_of_dst packCopy_dst_injective hloop hc hc' hdst)

/-- Every element of the field is unpacked by one thread at most. -/
theorem Built.writesOnce_unpack (b : nb.Built)
    (h : Launch.Splits dim zLoop (nb.sizes dim) (nb.unpackCopy dim) kernel)
    (hloop : zLoop = true → l.blocks 2 * l.dims 2 = 1) : Launch.WritesOnce kernel :=
  fun _ _ hne _ hc _ hc' hdst => hne (h.eq_of_dst b.unpackCopy_dst_injective hloop hc hc' hdst)

end WritesOnce

section Kinds

variable (b : nb.Built)
include b

/-- The x kernels. -/
theorem Built.xKernels_agree (hl : l.Suits nb 0 (nb.rangesX zLoop)) :
    Launch.Leaves (nb.packXKernel (l := l) zLoop) (nb.packResult 0 (V := V)) ∧
    Launch.Leaves (nb.unpackXKernel (l := l) zLoop) (nb.unpackResult 0 (V := V)) ∧
    ((zLoop = true → l.blocks 2 * l.dims 2 = 1) →
      Launch.WritesOnce (nb.packXKernel (l := l) zLoop) ∧
      Launch.WritesOnce (nb.unpackXKernel (l := l) zLoop)) := by
  rw [← rangesOf_x] at hl
  have hpack := b.packXKernel_splits hl zLoop
  have hunpack := b.unpackXKernel_splits hl zLoop
  refine ⟨leaves_pack hl (fun _ => by decide) hpack,
    b.leaves_unpack hl (fun _ => by decide) hunpack, fun hloop => ?_⟩
  exact ⟨writesOnce_pack hpack hloop, b.writesOnce_unpack hunpack hloop⟩

/-- The y kernels. -/
theorem Built.yKernels_agree (hl : l.Suits nb 1 nb.rangesY) :
    Launch.Leaves (nb.packYKernel (l := l)) (nb.packResult 1 (V := V)) ∧
    Launch.Leaves (nb.unpackYKernel (l := l)) (nb.unpackResult 1 (V := V)) ∧
    Launch.WritesOnce (nb.packYKernel (l := l)) ∧ Launch.WritesOnce (nb.unpackYKernel (l := l)) := by
  rw [← rangesOf_y] at hl
  have hpack := b.packYKernel_splits hl
  have hunpack := b.unpackYKernel_splits hl
  exact ⟨leaves_pack hl nofun hpack, b.leaves_unpack hl nofun hunpack,
    writesOnce_pack hpack nofun, b.writesOnce_unpack hunpack nofun⟩

/-- `unpack_z_kernel`. -/
theorem Built.unpackZKernel_agrees (hl : l.Suits nb 2 nb.rangesZ) :
    Launch.Leaves (nb.unpackZKernel (l := l)) (nb.unpackResult 2 (V := V)) ∧
    Launch.WritesOnce (nb.unpackZKernel (l := l)) := by
  rw [← rangesOf_z] at hl
  have hunpack := b.unpackZKernel_splits hl
  exact ⟨b.leaves_unpack hl nofun hunpack, b.writesOnce_unpack hunpack nofun⟩

end Kinds

section Inside

variable {t : l.Thread} {c : Copy Place} (b : nb.Built)
include b

/-- Threads that copy the elements of the packed blocks access elements of the arrays only. -/
theorem Built.inArrays_pack (h : Launch.Splits dim zLoop (nb.sizes dim) (nb.packCopy dim) kernel)
    (hc : c ∈ kernel t) : nb.InArrays dim c := by
  obtain ⟨left, k, hk, -, rfl⟩ := (h t c).mp hc
  exact b.packCopy_inArrays hk

/-- Threads that copy the elements of the unpacked blocks access elements of the arrays only. -/
theorem Built.inArrays_unpack (h : Launch.Splits dim zLoop (nb.sizes dim) (nb.unpackCopy dim) kernel)
    (hc : c ∈ kernel t) : nb.InArrays dim c := by
  obtain ⟨left, k, hk, -, rfl⟩ := (h t c).mp hc
  exact b.unpackCopy_inArrays hk

omit b in
/-- Kernels that access the first elements of small arrays only, with few threads. -/
theorem withoutOverflow_of_lt (hsize : volume nb.extBuffer ≤ 2 ^ 32)
    (hthreads : ∀ d, l.blocks d * l.dims d ≤ 2 ^ 32)
    (h : ∀ t, ∀ c ∈ kernel t, c.dst.2 < volume nb.extBuffer ∧ c.src.2 < volume nb.extBuffer) :
    Launch.WithoutOverflow kernel where
  threads t d := Nat.mod_eq_of_lt ((Launch.globalIdx_lt t d).trans_le (hthreads d))
  elements t c hc := by
    obtain ⟨hdst, hsrc⟩ := h t c hc
    rw [Launch.unsignedCopy, Nat.mod_eq_of_lt (hdst.trans_le hsize),
      Nat.mod_eq_of_lt (hsrc.trans_le hsize)]

/-- Kernels that access elements of the arrays only. -/
theorem Built.withoutOverflow (hsize : volume nb.extBuffer ≤ 2 ^ 32)
    (hthreads : ∀ d, l.blocks d * l.dims d ≤ 2 ^ 32) (h : ∀ t, ∀ c ∈ kernel t, nb.InArrays dim c) :
    Launch.WithoutOverflow kernel := by
  apply withoutOverflow_of_lt hsize hthreads
  intro t c hc
  obtain ⟨hdst, hsrc⟩ := h t c hc
  exact ⟨hdst.trans_le (b.arraySize_le dim _), hsrc.trans_le (b.arraySize_le dim _)⟩

end Inside

section Launched

/-- The launch parameters of the x kernels suit them. -/
theorem suits_of_launchX (h : nb.launchX zLoop = some l) :
    l.Suits nb 0 (nb.rangesX zLoop) ∧ (zLoop = true → l.blocks 2 * l.dims 2 = 1) := by
  have hhalo : 0 < nb.halos 0 + nb.halos 1 := by
    apply Nat.pos_of_ne_zero
    intro hzero
    simp [launchX, hzero, warpDim, divInt] at h
  have hpos := warps_of_launchX hhalo h
  have hdim := warpDim_of_pos hhalo (nb.d.domainExt 1)
  obtain ⟨l', hl', hvalid⟩ := launchX_valid hhalo hpos zLoop
  obtain rfl := Option.some.inj (h.symm.trans hl')
  cases zLoop with
  | true =>
    simp only [launchX, maxThreadsY, hdim, if_true, Option.bind_eq_bind, Option.bind_some,
      numBlocks_of_pos hpos, Option.some.injEq] at h
    subst h
    exact ⟨⟨rfl, rfl, hvalid.covers⟩, fun _ => rfl⟩
  | false =>
    have hthird := lt_min (div_warps_pos hhalo hpos) (show 0 < maxThreadsZ by decide)
    simp only [launchX, maxThreadsY, hdim, Bool.false_eq_true, if_false, Option.bind_eq_bind,
      Option.bind_some, divInt_of_pos (Nat.mul_pos hhalo hpos), numBlocks_of_pos hpos,
      numBlocks_of_pos hthird, Option.some.injEq] at h
    subst h
    exact ⟨⟨rfl, rfl, hvalid.covers⟩, fun hloop => absurd hloop Bool.false_ne_true⟩

/-- The launch parameters of the y kernels suit them. -/
theorem suits_of_launchY (h : nb.launchY = some l) : l.Suits nb 1 nb.rangesY := by
  have hhalo : 0 < nb.halos 2 + nb.halos 3 := by
    apply Nat.pos_of_ne_zero
    intro hzero
    simp [launchY, hzero, warpDim, divInt] at h
  have hpos := warps_of_launchY hhalo h
  have hdim := warpDim_of_pos hhalo (nb.extBuffer 0)
  obtain ⟨l', hl', hvalid⟩ := launchY_valid hhalo hpos
  obtain rfl := Option.some.inj (h.symm.trans hl')
  have hleft := div_warps_pos hhalo hpos
  rw [Nat.mul_comm] at hleft
  have hthird := lt_min hleft (show 0 < maxThreadsZ by decide)
  simp only [launchY, maxThreadsX, hdim, Option.bind_eq_bind, Option.bind_some,
    divInt_of_pos (Nat.mul_pos hpos hhalo), numBlocks_of_pos hpos, numBlocks_of_pos hthird,
    Option.some.injEq] at h
  subst h
  exact ⟨rfl, rfl, hvalid.covers⟩

end Launched

end Neighborhood

/-- The x and y kernels leave what the packing functions leave, in every order of the threads. No two
threads write the same element, if the kernels that loop over z have one thread in this dimension. -/
theorem xy_kernels_agree (nb : Neighborhood) (b : nb.Built) (l : Launch) (V : Type*) :
    (∀ zLoop, l.Suits nb 0 (nb.rangesX zLoop) →
      Launch.Leaves (nb.packXKernel (l := l) zLoop) (nb.packResult 0 (V := V)) ∧
      Launch.Leaves (nb.unpackXKernel (l := l) zLoop) (nb.unpackResult 0 (V := V)) ∧
      ((zLoop = true → l.blocks 2 * l.dims 2 = 1) →
        Launch.WritesOnce (nb.packXKernel (l := l) zLoop) ∧
        Launch.WritesOnce (nb.unpackXKernel (l := l) zLoop))) ∧
    (l.Suits nb 1 nb.rangesY →
      Launch.Leaves (nb.packYKernel (l := l)) (nb.packResult 1 (V := V)) ∧
      Launch.Leaves (nb.unpackYKernel (l := l)) (nb.unpackResult 1 (V := V)) ∧
      Launch.WritesOnce (nb.packYKernel (l := l)) ∧
      Launch.WritesOnce (nb.unpackYKernel (l := l))) :=
  ⟨fun _ => b.xKernels_agree, b.yKernels_agree⟩

/-- A domain of two cells in each dimension with halos of width one. -/
def twoCells : Neighborhood := (cubeDecomposition 2).neighborhood 0 fun _ => 1

/-- A single block of two threads in each dimension. -/
def oneBlock : Launch := ⟨fun _ => 2, fun _ => 1⟩

/-- A single block packs the halos of two cells in each dimension. -/
theorem xy_kernels_agree_block : Launch.Leaves (twoCells.packXKernel (l := oneBlock) false)
      (twoCells.packResult 0 (V := ℕ)) ∧ Launch.WritesOnce (twoCells.packXKernel (l := oneBlock) false) := by
  have hl : oneBlock.Suits twoCells 0 (twoCells.rangesX false) := ⟨rfl, rfl, by decide⟩
  have h := (xy_kernels_agree twoCells ⟨rfl, rfl⟩ oneBlock ℕ).1 false hl
  exact ⟨h.1, (h.2.2 nofun).1⟩

/-- If the kernel loops over z, two threads with different indices in z write the same elements. -/
theorem x_kernel_writes_twice : ¬ ∀ (nb : Neighborhood) (l : Launch), nb.Built →
    l.Suits nb 0 (nb.rangesX true) → Launch.WritesOnce (nb.packXKernel (l := l) true) := by
  intro h
  have hl : oneBlock.Suits twoCells 0 (twoCells.rangesX true) := ⟨rfl, rfl, by decide⟩
  let t (z : Fin 2) : oneBlock.Thread := ⟨fun _ => (0 : Fin 1), Function.update (fun _ => (0 : Fin 2)) 2 z⟩
  have hne : t 0 ≠ t 1 := by
    intro heq
    have hz : t 0 = t 1 → (0 : Fin 2) = 1 := fun heq => congrArg (fun t : oneBlock.Thread => t.2 2) heq
    exact absurd (hz heq) (by decide)
  have hc (z : Fin 2) : twoCells.packXCopy (t 0) 0 0 ∈ twoCells.packXKernel true (t z) :=
    List.mem_map.mpr ⟨0, by decide, rfl⟩
  exact h twoCells oneBlock ⟨rfl, rfl⟩ hl (t 0) (t 1) hne _ (hc 0) _ (hc 1) rfl

/-- Launched with the parameters that the constructor of the neighborhood computes, the kernels leave what
the packing functions leave, no two threads write the same element, and all accesses are inside the
arrays. -/
structure Neighborhood.LaunchedRight (nb : Neighborhood) {l : Launch} (dim : Fin 3)
    (kernel : l.Thread → List (Copy Place)) (result : (ℕ → V) → (ℕ → V) → (ℕ → V) → Place → V) : Prop where
  leaves : Launch.Leaves kernel result
  once : Launch.WritesOnce kernel
  inside : ∀ t, ∀ c ∈ kernel t, nb.InArrays dim c

/-- The x and y kernels are launched right. -/
theorem launched_kernels_agree (nb : Neighborhood) (b : nb.Built) (l : Launch) (V : Type*) :
    (∀ zLoop, nb.launchX zLoop = some l →
      nb.LaunchedRight 0 (nb.packXKernel (l := l) zLoop) (nb.packResult 0 (V := V)) ∧
      nb.LaunchedRight 0 (nb.unpackXKernel (l := l) zLoop) (nb.unpackResult 0 (V := V))) ∧
    (nb.launchY = some l →
      nb.LaunchedRight 1 (nb.packYKernel (l := l)) (nb.packResult 1 (V := V)) ∧
      nb.LaunchedRight 1 (nb.unpackYKernel (l := l)) (nb.unpackResult 1 (V := V))) := by
  constructor
  · intro zLoop h
    obtain ⟨hl, hloop⟩ := Neighborhood.suits_of_launchX h
    obtain ⟨hpack, hunpack, honce⟩ := b.xKernels_agree (V := V) hl
    exact ⟨⟨hpack, (honce hloop).1, fun _ _ => b.inArrays_pack (b.packXKernel_splits hl zLoop)⟩,
      ⟨hunpack, (honce hloop).2, fun _ _ => b.inArrays_unpack (b.unpackXKernel_splits hl zLoop)⟩⟩
  · intro h
    have hl := Neighborhood.suits_of_launchY h
    obtain ⟨hpack, hunpack, honce, honce'⟩ := b.yKernels_agree (V := V) hl
    exact ⟨⟨hpack, honce, fun _ _ => b.inArrays_pack (b.packYKernel_splits hl)⟩,
      ⟨hunpack, honce', fun _ _ => b.inArrays_unpack (b.unpackYKernel_splits hl)⟩⟩

end Ghexbench.Cartex
