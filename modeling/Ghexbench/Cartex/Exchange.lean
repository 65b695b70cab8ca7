import Ghexbench.Cartex.Neighborhood
import Ghexbench.Common.Matching
import Ghexbench.Common.Transition

/-!
# The exchange protocol

Every thread of every rank calls `step` a number of times. A step runs over the fields, the
exchange of a field runs over the dimensions, and each dimension is a phase: receive from the
right, receive from the left, send to the left, send to the right, and wait for all four. Both
versions of `exchange`, with MPI datatypes and with packed buffers, post the same operations.

All threads share one communicator. A receive is matched by source rank and tag only, and the
threads of a rank share its queues. Whether a send completes before it is matched is up to the
MPI library.
-/

namespace Ghexbench.Cartex

open Ghexbench.Common

/-- A send or a receive: the thread that posts it, and the step, the field, the dimension and the
direction of the message. -/
structure Op where
  thread : ℕ × ℕ
  step : ℕ
  field : ℕ
  dim : Fin 3
  left : Bool
  deriving DecidableEq, Repr

/-- The next call of a thread in its phase. -/
inductive Stage
  | recv (left : Bool)
  | send (left : Bool)
  | waitall
  deriving DecidableEq, Repr

/-- How far a thread has come: the phases it has completed and the next call. -/
structure Cursor where
  phase : ℕ
  stage : Stage
  deriving DecidableEq, Repr

/-- The start of the first phase. -/
def Cursor.start : Cursor := ⟨0, .recv true⟩

namespace Setup

variable (su : Setup)

/-- The operation of a thread in a phase: phase `n` is dimension `n % 3` of field
`n / 3 % numFields` in step `n / 3 / numFields`. -/
def op (q : ℕ × ℕ) (phase : ℕ) (left : Bool) : Op where
  thread := q
  step := phase / 3 / su.numFields
  field := phase / 3 % su.numFields
  dim := ⟨phase % 3, Nat.mod_lt _ (by decide)⟩
  left := left

/-- The number of phases of a thread that calls `step` a number of times. -/
def numPhases (steps : ℕ) : ℕ := steps * su.numFields * 3

/-- The arguments of `MPI_Isend` and `MPI_Irecv` that the matching depends on: source rank,
destination rank and tag. -/
def labels : Labels Op Op (ℕ × ℕ × ℕ) (ℕ × ℕ) where
  sendKey o := (o.thread.1, (su.target o.thread o.dim o.left).1,
    (su.neighborhood o.thread).sendtag o.field o.dim o.left)
  recvKey o := ((su.source o.thread o.dim o.left).1, o.thread.1,
    (su.neighborhood o.thread).recvtag o.field o.dim o.left)
  sender o := o.thread

end Setup

/-- The threads and the network. -/
structure ExchangeState where
  cursors : ℕ × ℕ → Cursor
  net : Network Op Op

namespace ExchangeState

/-- All threads at the start, and nothing sent. -/
def init : ExchangeState := ⟨fun _ => Cursor.start, Network.empty⟩

/-- A receive is complete once it is matched. -/
def recvDone (s : ExchangeState) (o : Op) : Bool := s.net.matched.any fun p => p.1 = o

/-- A message has been received once it is matched. -/
def sendMatched (s : ExchangeState) (o : Op) : Bool := s.net.matched.any fun p => p.2 = o

/-- Move a thread and replace the network. -/
def move (s : ExchangeState) (q : ℕ × ℕ) (c : Cursor) (net : Network Op Op) : ExchangeState :=
  ⟨Function.update s.cursors q c, net⟩

end ExchangeState

/-- A call of a thread, or the delivery of the oldest message of a sender with some source,
destination and tag. -/
inductive ExchangeAction
  | run (thread : ℕ × ℕ)
  | deliver (sender : ℕ × ℕ) (key : ℕ × ℕ × ℕ)
  deriving DecidableEq, Repr

namespace Setup

variable (su : Setup)

/-- One step of the system, if it is enabled. `MPI_Waitall` returns when both receives of the
phase are complete and each of the sends is matched or completes early (`eager`). -/
def next (steps : ℕ) (eager : Op → Bool) (s : ExchangeState) : ExchangeAction → Option ExchangeState
  | .deliver sender key => (s.net.deliver su.labels sender key).map fun net => { s with net := net }
  | .run q =>
    let c := s.cursors q
    if su.InRange q ∧ c.phase < su.numPhases steps then
      match c.stage with
      | .recv left => some (s.move q ⟨c.phase, if left then .recv false else .send true⟩
          (s.net.postRecv su.labels (su.op q c.phase left)))
      | .send left => some (s.move q ⟨c.phase, if left then .send false else .waitall⟩
          (s.net.postSend (su.op q c.phase left)))
      | .waitall =>
        if ∀ left, s.recvDone (su.op q c.phase left) ∧
            (eager (su.op q c.phase left) ∨ s.sendMatched (su.op q c.phase left)) then
          some (s.move q ⟨c.phase + 1, .recv true⟩ s.net)
        else none
    else none

/-- The states of all runs. -/
def Reached (steps : ℕ) (eager : Op → Bool) (s : ExchangeState) : Prop :=
  Reachable (· = ExchangeState.init) (Steps (su.next steps eager)) s

/-- A receive is matched by the send of the neighbour in its direction for the same step, field,
dimension and side. -/
def RightMatch (r m : Op) : Prop :=
  m = { r with thread := su.source r.thread r.dim r.left }

end Setup

end Ghexbench.Cartex
