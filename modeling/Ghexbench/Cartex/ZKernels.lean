import Ghexbench.Cartex.KernelsCorrect

/-!
# The z kernels

`unpack_z_kernel` leaves what `unpack_z` leaves. `pack_z_kernel` copies both halos to `buffer_left`, where
they overwrite each other, and nothing to `buffer_right`, which is only right if there is nothing to copy
on this side.
-/

namespace Ghexbench.Cartex

open Ghexbench.Common

variable {V : Type*}

namespace Neighborhood

variable {nb : Neighborhood} {l : Launch} {ranges : Arr ℕ}

/-- The copy that `pack_z_kernel` makes of an element of a block. -/
def packZCopy (nb : Neighborhood) (left : Bool) (k : Arr ℕ) : Copy Place where
  dst := (.bufferLeft, index (nb.sizes 2 left) k)
  src := (nb.packCopy 2 left k).src

/-- What the threads of `pack_z_kernel` copy. -/
theorem Built.packZKernel_eq (b : nb.Built) (hblocks : l.blocks 2 = 1) (t : l.Thread) :
    nb.packZKernel t = Launch.pick 2 (nb.sizes 2) nb.packZCopy (Launch.globalIdx t) := by
  simp only [packZKernel, Launch.threadIdx_eq hblocks, b.extXB_eq, b.extYB_eq]
  apply Launch.pick_of_guard
  · rfl
  · rfl
  · simp [Fin.forall_fin_succ, sizes, recvType_size]
  all_goals
    apply copy_congr rfl
    simp only [index_packed, Function.update_apply, Fin.isValue, Fin.reduceEq, if_true, if_false,
      Bool.false_eq_true]
    ring

/-- The threads of `pack_z_kernel` copy the elements of the packed blocks, but not to their places. -/
theorem Built.packZKernel_splits (b : nb.Built) (hl : l.Suits nb 2 ranges) :
    Launch.Splits 2 false (nb.sizes 2) nb.packZCopy (nb.packZKernel (l := l)) :=
  Launch.splits_of_pick (b.packZKernel_eq hl.blocks) (globalIdx_lt_sizes hl) fun _ => nb.sizes_of_ne

/-- The indices that `pack_z_kernel` computes are the same in `unsigned` for small arrays. -/
theorem Built.packZKernel_withoutOverflow (b : nb.Built) (hl : l.Suits nb 2 ranges)
    (hsize : volume nb.extBuffer ≤ 2 ^ 32) (hthreads : ∀ d, l.blocks d * l.dims d ≤ 2 ^ 32) :
    Launch.WithoutOverflow (nb.packZKernel (l := l)) := by
  apply withoutOverflow_of_lt hsize hthreads
  intro t c hc
  obtain ⟨left, k, hk, -, rfl⟩ := (b.packZKernel_splits hl t c).mp hc
  exact ⟨(index_lt hk).trans_le (b.volume_recvType_le 2 left), (b.packCopy_inArrays hk).2⟩

/-- Without elements for `buffer_right` the copies of `pack_z_kernel` are right. -/
theorem Built.packZKernel_splits_of_empty (b : nb.Built) (hl : l.Suits nb 2 ranges)
    (hempty : nb.halos 5 = 0 ∨ nb.extBuffer 0 * nb.extBuffer 1 = 0) :
    Launch.Splits 2 false (nb.sizes 2) (nb.packCopy 2) (nb.packZKernel (l := l)) := by
  have hnone (k : Arr ℕ) : ¬ InBox (nb.sizes 2 true) k := by
    intro hk
    have h0 : k 0 < nb.extBuffer 0 := hk 0
    have h1 : k 1 < nb.extBuffer 1 := hk 1
    have h2 : k 2 < nb.halos 5 := hk 2
    cases hempty with
    | inl hhalo => omega
    | inr hplane =>
      cases Nat.mul_eq_zero.mp hplane with
      | inl hx => omega
      | inr hy => omega
  intro t c
  rw [b.packZKernel_splits hl t c, Bool.exists_bool, Bool.exists_bool]
  simp only [hnone, false_and, exists_false, or_false]
  rfl

/-- With elements for `buffer_right` the kernel leaves something else. -/
theorem Built.not_leaves_packZ [Nontrivial V] (b : nb.Built) (hl : l.Suits nb 2 ranges)
    (hhalo : nb.halos 5 ≠ 0) (hplane : nb.extBuffer 0 * nb.extBuffer 1 ≠ 0) :
    ¬ Launch.Leaves (nb.packZKernel (l := l)) (nb.packResult 2 (V := V)) := by
  intro h
  obtain ⟨v, w, hne⟩ := exists_pair_ne V
  obtain ⟨s, hs, hend⟩ := h.ends (arrays (fun _ => v) (fun _ => w) fun _ => w)
  -- no copy goes to `buffer_right`
  have hkept : s.mem (.bufferRight, 0) = w := by
    apply hs.progress.kept
    rintro c ⟨t, hc⟩ heq
    obtain ⟨left, k, -, -, rfl⟩ := (b.packZKernel_splits hl t c).mp hc
    cases congrArg Prod.fst heq
  have hfirst : InBox (nb.recvType 2 true).size fun _ => 0 := by
    intro d
    apply Nat.pos_of_ne_zero
    fin_cases d
    · exact left_ne_zero_of_mul hplane
    · exact right_ne_zero_of_mul hplane
    · exact hhalo
  have hcopied : nb.packResult 2 (fun _ => v) (fun _ => w) (fun _ => w) (.bufferRight, 0) = v := by
    rw [packResult, show arrays _ _ _ = _ from nb.pack_follows 2 (_, _)]
    exact ((nb.pack_independent 2).result_runAll _).copied _ (mem_packTrace.mpr ⟨true, _, hfirst, rfl⟩)
  rw [h.contents _ _ _ s hs hend, hcopied] at hkept
  exact hne hkept

end Neighborhood

/-- The z kernels leave what the packing functions leave, in every order of the threads, and no two
threads write the same element. -/
structure Neighborhood.ZKernelsAgree (nb : Neighborhood) (l : Launch) (V : Type*) : Prop where
  pack : Launch.Leaves (nb.packZKernel (l := l)) (nb.packResult 2 (V := V))
  unpack : Launch.Leaves (nb.unpackZKernel (l := l)) (nb.unpackResult 2 (V := V))
  pack_once : Launch.WritesOnce (nb.packZKernel (l := l))
  unpack_once : Launch.WritesOnce (nb.unpackZKernel (l := l))

/-- The z kernels agree with the packing functions if and only if nothing is packed into `buffer_right`:
its halo has no width, or the planes have no elements. -/
theorem z_kernels_agree_iff [Nontrivial V] (nb : Neighborhood) (b : nb.Built) (l : Launch)
    (hl : l.Suits nb 2 nb.rangesZ) : nb.ZKernelsAgree l V ↔
      nb.halos 5 = 0 ∨ nb.extBuffer 0 * nb.extBuffer 1 = 0 := by
  constructor
  · intro h
    by_contra hpacked
    rw [not_or] at hpacked
    exact b.not_leaves_packZ hl hpacked.1 hpacked.2 h.pack
  · intro hempty
    have hpack := b.packZKernel_splits_of_empty hl hempty
    have hunpack := b.unpackZKernel_agrees (V := V) hl
    rw [← Neighborhood.rangesOf_z] at hl
    exact ⟨Neighborhood.leaves_pack hl nofun hpack, hunpack.1, Neighborhood.writesOnce_pack hpack nofun,
      hunpack.2⟩

/-- If the elements of a field and the threads of the launch can be counted in `unsigned`, the kernels
compute the same indices in `unsigned`. -/
theorem kernels_without_overflow (nb : Neighborhood) (b : nb.Built) (l : Launch)
    (hsize : volume nb.extBuffer ≤ 2 ^ 32) (hthreads : ∀ d, l.blocks d * l.dims d ≤ 2 ^ 32) :
    (∀ zLoop, l.Suits nb 0 (nb.rangesX zLoop) →
      Launch.WithoutOverflow (nb.packXKernel (l := l) zLoop) ∧
      Launch.WithoutOverflow (nb.unpackXKernel (l := l) zLoop)) ∧
    (l.Suits nb 1 nb.rangesY →
      Launch.WithoutOverflow (nb.packYKernel (l := l)) ∧
      Launch.WithoutOverflow (nb.unpackYKernel (l := l))) ∧
    (l.Suits nb 2 nb.rangesZ →
      Launch.WithoutOverflow (nb.packZKernel (l := l)) ∧
      Launch.WithoutOverflow (nb.unpackZKernel (l := l))) := by
  refine ⟨fun zLoop hl => ⟨?_, ?_⟩, fun hl => ⟨?_, ?_⟩, fun hl => ⟨?_, ?_⟩⟩
  · exact b.withoutOverflow hsize hthreads fun _ _ => b.inArrays_pack (b.packXKernel_splits hl zLoop)
  · exact b.withoutOverflow hsize hthreads fun _ _ => b.inArrays_unpack (b.unpackXKernel_splits hl zLoop)
  · exact b.withoutOverflow hsize hthreads fun _ _ => b.inArrays_pack (b.packYKernel_splits hl)
  · exact b.withoutOverflow hsize hthreads fun _ _ => b.inArrays_unpack (b.unpackYKernel_splits hl)
  · exact b.packZKernel_withoutOverflow hl hsize hthreads
  · exact b.withoutOverflow hsize hthreads fun _ _ => b.inArrays_unpack (b.unpackZKernel_splits hl)

/-- Two cells in each dimension with a single halo, that on the left in z. -/
def leftHalo : Neighborhood := (cubeDecomposition 2).neighborhood 0 ![0, 0, 0, 0, 1, 0]

/-- Without a halo on the right the kernels agree. -/
theorem z_kernels_agree_left : leftHalo.ZKernelsAgree ⟨![2, 2, 1], fun _ => 1⟩ ℕ :=
  (z_kernels_agree_iff leftHalo ⟨rfl, rfl⟩ ⟨![2, 2, 1], fun _ => 1⟩ ⟨rfl, rfl, by decide⟩).mpr
    (by decide)

/-- A block of four threads in x and y for two cells with halos of width one. -/
theorem z_kernels_disagree : ¬ ∀ (nb : Neighborhood) (l : Launch), nb.Built →
    l.Suits nb 2 nb.rangesZ → nb.ZKernelsAgree l ℕ := by
  intro h
  have hb : twoCells.Built := ⟨rfl, rfl⟩
  have hl : Launch.Suits ⟨![4, 4, 2], fun _ => 1⟩ twoCells 2 twoCells.rangesZ := ⟨rfl, rfl, by decide⟩
  exact hb.not_leaves_packZ hl (by decide) (by decide) (h twoCells _ hb hl).pack

end Ghexbench.Cartex
