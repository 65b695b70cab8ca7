import Ghexbench.Cartex.Check
import Ghexbench.Cartex.HaloExchange
import Ghexbench.Cartex.Tiling
import Mathlib.Algebra.BigOperators.Fin
import Mathlib.Algebra.BigOperators.Ring.Finset

/-!
# The reported load

`runtime::exchange` reports a load that is proportional to the number of halo cells of all domains: the
volume of the extended buffers less the volume of the domains. This is the number of elements that the
messages for a field carry in the three phases of a step, where the later messages have the halos of the
earlier ones. Numbers are exact integers here.
-/

namespace Ghexbench.Cartex

open Ghexbench.Common

namespace Setup

variable (su : Setup)

section Reported

/-- What the loop over the domains of a rank adds for a domain. -/
def haloElements (dom : Domain) : ℤ :=
  (dom.domainExt 0 + su.halos 0 + su.halos 1) * (dom.domainExt 1 + su.halos 2 + su.halos 3) *
    (dom.domainExt 2 + su.halos 4 + su.halos 5) - dom.domainExt 0 * dom.domainExt 1 * dom.domainExt 2

/-- `local_num_elements` on a rank: `m_domains` has a domain for each of the threads. -/
def localNumElements (rank : ℕ) : ℤ :=
  (su.decomposition rank).domains.foldl (fun sum dom => sum + su.haloElements dom) 0

/-- `num_elements`: the sum over the ranks. -/
def numElements : ℤ := ∑ rank ∈ Finset.range su.cfg.numRanks, su.localNumElements rank

end Reported

section Communicated

variable {V : Type*} (path : Path) (fieldId : ℕ) (memory : ℕ × ℕ → Fin 3 → Memory V)

/-- The number of elements of the message that a thread sends in a direction. The memory of a thread is that
at the time of the send. -/
def messageLength (q : ℕ × ℕ) (dim : Fin 3) (left : Bool) : ℕ :=
  (((su.neighborhood q).phase path fieldId dim).outgoing left (memory q dim)).length

/-- The number of elements that all threads send for a field. -/
def numSent : ℕ := ∑ q ∈ (su.exchange V path).members, ∑ dim, ∑ left,
  su.messageLength path fieldId memory q dim left

/-- The number of elements that all threads receive for a field. -/
def numReceived : ℕ := ∑ q ∈ (su.exchange V path).members, ∑ dim, ∑ left,
  su.messageLength path fieldId memory (su.source q dim left) dim left

end Communicated

end Setup

section Blocks

variable {V : Type*} {nb : Neighborhood}

/-- The datatypes of a message describe blocks of the same size at both ends. -/
theorem Neighborhood.sendType_size (nb : Neighborhood) (dim : Fin 3) (left : Bool) :
    (nb.sendType dim left).size = (nb.recvType dim left).size := by
  rw [← packed_size]
  cases left <;> rfl

/-- A message has as many elements as the block that it is received in. -/
theorem Neighborhood.Built.length_outgoing (b : nb.Built) (path : Path) (fieldId : ℕ) (dim : Fin 3)
    (left : Bool) (m : Memory V) : ((nb.phase path fieldId dim).outgoing left m).length =
      volume (nb.recvType dim left).size := by
  have hpacked (dim : Fin 3) : ((nb.packedPhase fieldId dim).outgoing left m).length =
      volume (nb.recvType dim left).size := by
    simp only [packedPhase, readRange, length_contents, b.bufferSize_eq]
  cases path with
  | datatypes =>
    rw [← sendType_size]
    exact Block.length_read _ _ _
  | packed =>
    fin_cases dim
    · exact hpacked 0
    · exact hpacked 1
    · change ((nb.directPhase fieldId).outgoing left m).length = volume (nb.recvType 2 left).size
      rw [b.direct_eq, ← packed_size]
      exact Block.length_read _ _ _
  | packedZ => exact hpacked dim

end Blocks

namespace Setup

variable {su : Setup} {V : Type*} {path : Path} {fieldId : ℕ} {memory : ℕ × ℕ → Fin 3 → Memory V}
  {q : ℕ × ℕ}

/-- The halo of a domain consists of the blocks of its messages. -/
theorem haloElements_eq (su : Setup) (q : ℕ × ℕ) : su.haloElements (su.neighborhood q).d =
    ((∑ dim, ∑ left, volume ((su.neighborhood q).recvType dim left).size : ℕ) : ℤ) := by
  simp only [← (su.neighborhood_built q).bufferSize_eq, Fin.sum_univ_three, Fintype.sum_bool]
  change _ = ((su.halos 1 * _ * _ + su.halos 0 * _ * _ + (su.halos 3 * _ * _ + su.halos 2 * _ * _) +
    (su.halos 5 * _ * _ + su.halos 4 * _ * _) : ℕ) : ℤ)
  simp only [haloElements, neighborhood_halos]
  push_cast
  ring

/-- The sum over the threads of a rank. -/
theorem localNumElements_eq (su : Setup) (rank : ℕ) : su.localNumElements rank =
    ∑ t ∈ Finset.range su.cfg.numThreads, su.haloElements (su.neighborhood (rank, t)).d := by
  rw [localNumElements, Decomposition.domains_eq, List.foldl_map]
  exact (forRange_add _ _ _).trans (zero_add _)

/-- A message has the same number of elements at both ends. -/
theorem messageLength_source (hq : su.InRange q) (dim : Fin 3) (left : Bool) :
    su.messageLength path fieldId memory (su.source q dim left) dim left =
      volume ((su.neighborhood q).recvType dim left).size := by
  rw [messageLength, (su.neighborhood_built _).length_outgoing, ← Neighborhood.packed_size,
    packed_source_size hq]

/-- The reported number of elements is that of all blocks. -/
theorem numElements_eq (su : Setup) (V : Type*) (path : Path) :
    su.numElements = ((∑ q ∈ (su.exchange V path).members,
      ∑ dim, ∑ left, volume ((su.neighborhood q).recvType dim left).size : ℕ) : ℤ) := by
  rw [numElements, exchange, Finset.sum_product, Nat.cast_sum]
  refine Finset.sum_congr rfl fun rank _ => ?_
  rw [localNumElements_eq, Nat.cast_sum]
  exact Finset.sum_congr rfl fun t _ => su.haloElements_eq (rank, t)

end Setup

/-- The number of elements that is reported is the number of elements that all threads send for each field, and
the number of elements that they receive. Each receive has as many elements as its buffer. -/
theorem load_is_communicated {V : Type*} (su : Setup) (path : Path) (fieldId : ℕ)
    (memory : ℕ × ℕ → Fin 3 → Memory V) :
    su.numElements = su.numReceived path fieldId memory ∧
    su.numElements = su.numSent path fieldId memory ∧
    ∀ q, su.InRange q → ∀ dim left,
      su.messageLength path fieldId memory (su.source q dim left) dim left =
        (su.neighborhood q).bufferSize (Neighborhood.bufferOf dim left) := by
  refine ⟨?_, ?_, fun q hq dim left => ?_⟩
  · rw [su.numElements_eq V path]
    refine congrArg Nat.cast (Finset.sum_congr rfl fun q hq => ?_)
    simp only [Setup.messageLength_source (Setup.mem_members.mp hq)]
  · rw [su.numElements_eq V path]
    refine congrArg Nat.cast (Finset.sum_congr rfl fun q _ => ?_)
    simp only [Setup.messageLength, (su.neighborhood_built q).length_outgoing]
  · rw [Setup.messageLength_source hq, (su.neighborhood_built q).bufferSize_eq]

/-- Four domains of different sizes receive 222 elements for each field. -/
theorem load_of_twoRanks : twoRanksSetup.numReceived .packed 0 (fun q _ => labelled q) = 222 ∧
    twoRanksSetup.messageLength .packed 0 (fun q _ => labelled q)
      (twoRanksSetup.source (1, 1) 0 true) 0 true = 2 := by
  have hload : twoRanksSetup.numElements = 222 := by decide
  obtain ⟨hreceived, -, hlength⟩ :=
    load_is_communicated twoRanksSetup .packed 0 fun q _ => labelled q
  refine ⟨?_, (hlength (1, 1) (by decide) 0 true).trans (by decide)⟩
  exact_mod_cast hreceived.symm.trans hload

end Ghexbench.Cartex
