import Ghexbench.Cartex.Neighbor

/-!
# The neighborhood of a thread

`runtime::impl::neighborhood` holds the domain of a thread, its six neighbours and the sizes of
the extended buffer, and computes the tags of the messages. A message to the left is received
from the neighbour on the right, and the tag of a receive is the tag that this neighbour computes.
-/

namespace Ghexbench.Cartex

open Ghexbench.Common

/-- The members of `neighborhood`. The halo widths are those to the left and to the right of each
dimension in turn. -/
structure Neighborhood where
  numFields : ℕ
  halos : Fin 6 → ℕ
  d : Domain
  xl : Domain
  xr : Domain
  yl : Domain
  yr : Domain
  zl : Domain
  zr : Domain
  extBuffer : Arr ℕ
  zPlane : ℕ

/-- The constructor of `neighborhood` for thread `i`; `num_fields` is initialised with
`threads_per_rank()`. -/
def Decomposition.neighborhood {rankGrid : Arr ℕ} (decomp : Decomposition rankGrid) (i : ℕ)
    (halos : Fin 6 → ℕ) : Neighborhood :=
  let d := decomp.domain i
  let extBuffer : Arr ℕ := ![d.domainExt 0 + halos 0 + halos 1, d.domainExt 1 + halos 2 + halos 3,
    d.domainExt 2 + halos 4 + halos 5]
  { numFields := decomp.threadsPerRank
    halos := halos
    d := d
    xl := decomp.neighbor i ![-1, 0, 0]
    xr := decomp.neighbor i ![1, 0, 0]
    yl := decomp.neighbor i ![0, -1, 0]
    yr := decomp.neighbor i ![0, 1, 0]
    zl := decomp.neighbor i ![0, 0, -1]
    zr := decomp.neighbor i ![0, 0, 1]
    extBuffer := extBuffer
    zPlane := extBuffer 0 * extBuffer 1 }

/-- The halo widths on the left of the dimensions (`m_offset`). -/
def haloLeft (halos : Fin 6 → ℕ) : Arr ℕ := ![halos 0, halos 2, halos 4]

/-- The halo widths on the right of the dimensions. -/
def haloRight (halos : Fin 6 → ℕ) : Arr ℕ := ![halos 1, halos 3, halos 5]

namespace Neighborhood

variable (nb : Neighborhood)

/-- The tag of a message: the field, the dimension and side, and the sending thread. -/
def sendtag (fieldId : ℕ) (dim : Fin 3) (left : Bool) : ℕ :=
  let directionTag := dim.val * 2 + if left then 0 else 1
  let threadTag := nb.d.thread
  fieldId + nb.numFields * (directionTag + 6 * threadTag)

/-- The tag of a receive, with the thread of the neighbour that sends. -/
def recvtag (fieldId : ℕ) (dim : Fin 3) (left : Bool) : ℕ :=
  let directionTag := dim.val * 2 + if left then 0 else 1
  let tidL := if dim = 0 then nb.xr.thread else if dim = 1 then nb.yr.thread else nb.zr.thread
  let tidR := if dim = 0 then nb.xl.thread else if dim = 1 then nb.yl.thread else nb.zl.thread
  let threadTag := if left then tidL else tidR
  fieldId + nb.numFields * (directionTag + 6 * threadTag)

/-- The neighbour on the left. -/
def leftOf (dim : Fin 3) : Domain := ![nb.xl, nb.yl, nb.zl] dim

/-- The neighbour on the right. -/
def rightOf (dim : Fin 3) : Domain := ![nb.xr, nb.yr, nb.zr] dim

/-- The neighbour that messages in a direction go to. -/
def target (dim : Fin 3) (left : Bool) : Domain := if left then nb.leftOf dim else nb.rightOf dim

/-- The neighbour that messages in a direction come from. -/
def source (dim : Fin 3) (left : Bool) : Domain := if left then nb.rightOf dim else nb.leftOf dim

/-- The tag of a receive is formed with the thread that the message comes from. -/
theorem recvtag_eq (fieldId : ℕ) (dim : Fin 3) (left : Bool) : nb.recvtag fieldId dim left =
    fieldId + nb.numFields * (dim.val * 2 + (if left then 0 else 1) +
      6 * (nb.source dim left).thread) := by
  fin_cases dim <;> cases left <;> rfl

end Neighborhood

/-- A run of the benchmark: the decomposition, the halo widths and the number of fields. -/
structure Setup where
  cfg : Config
  placement : Placement cfg.rankGrid
  halos : Fin 6 → ℕ
  numFields : ℕ

namespace Setup

variable (su : Setup)

/-- A thread of a rank that takes part in the run. -/
def InRange (q : ℕ × ℕ) : Prop := q.1 < su.cfg.numRanks ∧ q.2 < su.cfg.numThreads

instance (q : ℕ × ℕ) : Decidable (su.InRange q) := by unfold InRange; infer_instance

/-- The decomposition as seen by a rank. -/
def decomposition (rank : ℕ) : Decomposition su.cfg.rankGrid := su.cfg.decomposition su.placement rank

/-- The neighborhood of a thread of a rank. -/
def neighborhood (q : ℕ × ℕ) : Neighborhood := (su.decomposition q.1).neighborhood q.2 su.halos

/-- The thread that the messages of a thread in a direction go to. -/
def target (q : ℕ × ℕ) (dim : Fin 3) (left : Bool) : ℕ × ℕ :=
  let n := (su.neighborhood q).target dim left
  (n.rank, n.thread)

/-- The thread that the messages to a thread in a direction come from. -/
def source (q : ℕ × ℕ) (dim : Fin 3) (left : Bool) : ℕ × ℕ :=
  let n := (su.neighborhood q).source dim left
  (n.rank, n.thread)

/-- The offset of the neighbour that messages in a direction go to. -/
def direction (dim : Fin 3) (left : Bool) : Arr ℤ :=
  fun d => if d = dim then (if left then -1 else 1) else 0

/-- The offsets are those of adjacent domains. -/
theorem direction_bound (dim : Fin 3) (left : Bool) (d : Fin 3) :
    -1 ≤ direction dim left d ∧ direction dim left d ≤ 1 := by
  unfold direction
  split <;> cases left <;> decide

/-- The opposite offset. -/
theorem neg_direction (dim : Fin 3) (left : Bool) : -direction dim left = direction dim !left := by
  funext d
  simp only [direction, Pi.neg_apply]
  split <;> cases left <;> rfl

/-- The neighbour that messages go to is at the offset. -/
theorem target_neighbor (q : ℕ × ℕ) (dim : Fin 3) (left : Bool) :
    (su.neighborhood q).target dim left =
      (su.decomposition q.1).neighbor q.2 (direction dim left) := by
  have hoffset : direction dim left = ![![if left then -1 else 1, 0, 0],
      ![0, if left then -1 else 1, 0], ![0, 0, if left then -1 else 1]] dim := by
    funext d
    fin_cases dim <;> fin_cases d <;> rfl
  rw [hoffset]
  fin_cases dim <;> cases left <;> rfl

/-- The neighbour that messages come from is at the opposite offset. -/
theorem source_neighbor (q : ℕ × ℕ) (dim : Fin 3) (left : Bool) :
    (su.neighborhood q).source dim left =
      (su.decomposition q.1).neighbor q.2 (-direction dim left) := by
  rw [neg_direction, decomposition, ← decomposition, ← su.target_neighbor q dim !left]
  cases left <;> rfl

variable {su} {q : ℕ × ℕ}

/-- The neighbours of a thread take part in the run. -/
theorem target_inRange (hq : su.InRange q) (dim : Fin 3) (left : Bool) :
    su.InRange (su.target q dim left) := by
  rw [target, su.target_neighbor]
  exact su.cfg.neighbor_inRange su.placement hq.1 hq.2 (direction_bound dim left)

/-- Messages come from where they would go in the opposite direction. -/
theorem source_eq_target (q : ℕ × ℕ) (dim : Fin 3) (left : Bool) :
    su.source q dim left = su.target q dim !left := by
  cases left <;> rfl

/-- The neighbours of a thread take part in the run. -/
theorem source_inRange (hq : su.InRange q) (dim : Fin 3) (left : Bool) :
    su.InRange (su.source q dim left) := by
  rw [source_eq_target]
  exact target_inRange hq dim _

/-- A message comes from the thread that has sent it. -/
theorem source_target (hq : su.InRange q) (dim : Fin 3) (left : Bool) :
    su.source (su.target q dim left) dim left = q := by
  have hback := su.cfg.neighbor_neg su.placement hq.1 hq.2 (direction_bound dim left)
  rw [source, su.source_neighbor, target, su.target_neighbor]
  change (((su.cfg.decomposition su.placement _).neighbor _ _).rank, _) = q
  rw [decomposition]
  exact Prod.ext (congrArg Domain.rank hback) (congrArg Domain.thread hback)

/-- A message goes to the thread that receives it. -/
theorem target_source (hq : su.InRange q) (dim : Fin 3) (left : Bool) :
    su.target (su.source q dim left) dim left = q := by
  rw [source_eq_target]
  have h := source_target hq dim !left
  rwa [source_eq_target, Bool.not_not] at h

/-- The tag of a message. -/
theorem sendtag_eq (q : ℕ × ℕ) (fieldId : ℕ) (dim : Fin 3) (left : Bool) :
    (su.neighborhood q).sendtag fieldId dim left =
      fieldId + su.cfg.numThreads * (dim.val * 2 + (if left then 0 else 1) + 6 * q.2) := rfl

/-- The tag of a receive is that of the message. -/
theorem recvtag_eq_sendtag (q : ℕ × ℕ) (fieldId : ℕ) (dim : Fin 3) (left : Bool) :
    (su.neighborhood q).recvtag fieldId dim left =
      (su.neighborhood (su.source q dim left)).sendtag fieldId dim left := by
  rw [Neighborhood.recvtag_eq, sendtag_eq]
  rfl

end Setup

end Ghexbench.Cartex
