import Ghexbench.Common.Pairing
import Ghexbench.Common.Transition
import Mathlib.Algebra.Group.Nat.Defs
import Mathlib.Logic.Function.Basic

/-!
# Message chains between peers

In `benchmark::send_recv` each thread of each rank starts a receive and a send for every slot of
its window. When a transfer completes, its callback posts the same buffer again until the slot
has been used `nrep` times. Messages between two ranks with equal tag are matched in posting order
per thread and in any order between threads. A receive completes after it is matched; whether a
send completes before that is up to the library.
-/

namespace Ghexbench.P2p

open Ghexbench.Common

/-- The buffer of a slot of a thread of a rank, used over and over. -/
structure Chain where
  rank : ℕ
  thread : ℕ
  slot : ℕ
  deriving DecidableEq, Repr

/-- A transfer: its chain, and the counter `i` of its callback. -/
structure Op where
  chain : Chain
  index : ℕ
  deriving DecidableEq, Repr

/-- `m_peer_rank`, for `m_ctx.size()` ranks. -/
def peerRank (size rank : ℕ) : ℕ := (rank + size / 2 + size) % size

/-- The members of `benchmark` that the message chains depend on, on all ranks. The number of
ranks is even, and the peers have the same number of threads. -/
structure Benchmark where
  pairs : ℕ
  threads : ℕ → ℕ
  window : ℕ
  nrep : ℕ
  nrep_pos : 1 ≤ nrep
  threads_peer : ∀ r < 2 * pairs, threads (peerRank (2 * pairs) r) = threads r

/-- The requests and messages. `sendLog` and `recvLog` are the calls of `comm.send` and `comm.recv`
so far, `pending` and `posted` those of them that are not yet matched, and `openSends` and
`openRecvs` the requests whose callbacks have not yet run. -/
structure State where
  calls : ℕ → ℕ → ℕ
  sendLog : List Op
  recvLog : List Op
  pending : List Op
  posted : List Op
  matched : List (Op × Op)
  openSends : List Op
  openRecvs : List Op

/-- The start of `send_recv` on all threads. -/
def init : State := ⟨fun _ _ => 0, [], [], [], [], [], [], []⟩

/-- `comm.send`. -/
def State.send (s : State) (o : Op) : State :=
  { s with sendLog := s.sendLog ++ [o], pending := s.pending ++ [o], openSends := s.openSends ++ [o] }

/-- `comm.recv`. -/
def State.recv (s : State) (o : Op) : State :=
  { s with recvLog := s.recvLog ++ [o], posted := s.posted ++ [o], openRecvs := s.openRecvs ++ [o] }

/-- A thread has made the next call of its loop. -/
def State.advance (s : State) (rank thread : ℕ) : State :=
  { s with
    calls := Function.update s.calls rank
      (Function.update (s.calls rank) thread (s.calls rank thread + 1)) }

/-- The tag of a slot, `thread_id + i * 1000`. -/
def Chain.tag (c : Chain) : ℕ := c.thread + c.slot * 1000

/-- The next call in the loop of `send_recv`, the match of the first messages of a sending thread
and a receiving thread with some tag, or the completion of a send or a receive. -/
inductive Action
  | call (rank thread : ℕ)
  | pair (rank sender receiver tag : ℕ)
  | sent (o : Op)
  | received (o : Op)
  deriving DecidableEq, Repr

namespace Benchmark

variable (b : Benchmark)

/-- `m_ctx.size()`. -/
def size : ℕ := 2 * b.pairs

/-- The buffer of the peer with the same thread and slot. -/
def peer (c : Chain) : Chain := { c with rank := peerRank b.size c.rank }

/-- `send_callback::operator()`. -/
def sendCallback (s : State) (o : Op) : State :=
  if o.index + 1 < b.nrep then s.send { o with index := o.index + 1 } else s

/-- `recv_callback::operator()`. -/
def recvCallback (s : State) (o : Op) : State :=
  if o.index + 1 < b.nrep then s.recv { o with index := o.index + 1 } else s

/-- One step of the system, if it is enabled; the sends for which `eager` holds may complete before
they are matched. -/
def next (eager : Op → Bool) (s : State) : Action → Option State
  | .call rank thread =>
    if rank < b.size ∧ thread < b.threads rank ∧ s.calls rank thread < 2 * b.window then
      let o : Op := ⟨⟨rank, thread, s.calls rank thread / 2⟩, 0⟩
      let s' := s.advance rank thread
      some (if s.calls rank thread % 2 = 0 then s'.recv o else s'.send o)
    else none
  | .pair rank sender receiver tag =>
    match takeFirst (fun o => o.chain.rank = rank ∧ o.chain.thread = sender ∧ o.chain.tag = tag)
        s.pending,
      takeFirst (fun o => o.chain.rank = peerRank b.size rank ∧ o.chain.thread = receiver ∧
        o.chain.tag = tag) s.posted with
    | some (m, pending), some (r, posted) =>
      some { s with pending := pending, posted := posted, matched := s.matched ++ [(r, m)] }
    | _, _ => none
  | .sent o =>
    if o ∈ s.openSends ∧ (eager o ∨ s.matched.any fun p => p.2 = o) then
      some (b.sendCallback { s with openSends := s.openSends.erase o } o)
    else none
  | .received o =>
    if o ∈ s.openRecvs ∧ s.matched.any fun p => p.1 = o then
      some (b.recvCallback { s with openRecvs := s.openRecvs.erase o } o)
    else none

/-- The states of all runs. -/
def Reached (eager : Op → Bool) (s : State) : Prop := Reachable (· = init) (Steps (b.next eager)) s

/-- The receive of a slot gets the message of the same number of the same slot of the peer. -/
def RightMatch (r m : Op) : Prop := m = { r with chain := b.peer r.chain }

/-- The printed number of messages, a `std::size_t`. -/
def numMsgs : ℕ :=
  ((List.range b.size).map b.threads).foldl (fun sum t => (sum + t) % 2 ^ 64) 0 *
    b.window % 2 ^ 64 * b.nrep % 2 ^ 64

/-- The transfers of a chain, in order. -/
def onChain (c : Chain) (l : List Op) : List Op := l.filter fun o => o.chain = c

/-- The message chains are exact. A buffer has at most one transfer outstanding, and every receive
gets the message of the same number of its slot. A run cannot go on for ever, and when it has come
to its end every slot has been used for `nrep` sends and `nrep` receives, nothing is left in
flight, and the printed number is the number of messages. -/
def Exact (eager : Op → Bool) : Prop :=
  (∀ s, b.Reached eager s →
    (∀ c, (onChain c s.openSends).length ≤ 1 ∧ (onChain c s.openRecvs).length ≤ 1) ∧
    ∀ r m, (r, m) ∈ s.matched → b.RightMatch r m) ∧
  (∃ bound, ∀ actions s, runActions (b.next eager) init actions = some s → actions.length ≤ bound) ∧
  ∀ s, b.Reached eager s → (∀ a, b.next eager s a = none) →
    (∀ c, c.rank < b.size → c.thread < b.threads c.rank → c.slot < b.window →
      onChain c s.sendLog = (List.range b.nrep).map (Op.mk c) ∧
      onChain c s.recvLog = (List.range b.nrep).map (Op.mk c)) ∧
    s.pending = [] ∧ s.posted = [] ∧ s.openSends = [] ∧ s.openRecvs = [] ∧
    b.numMsgs = s.sendLog.length

end Benchmark

end Ghexbench.P2p
