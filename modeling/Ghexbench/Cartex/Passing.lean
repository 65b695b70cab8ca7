import Ghexbench.Cartex.Exchange
import Ghexbench.Cartex.Halo

/-!
# The exchange protocol with its data

`step`, called a number of times by every thread, with the messages of the exchange protocol and the
memory of the threads in one system. A field is packed before the receives of a dimension are posted and
unpacked after `MPI_Waitall` has returned. In between, the MPI library reads the contents of a message
at any time after its send has been posted, matched or not, and writes them into the memory of the
receiver at any time after both are known: after the match of the receive and the reading of the message.

Without `CARTEX_MPI_MANY_BUFFERS` all fields of a thread share one set of buffers.
-/

namespace Ghexbench.Cartex

open Ghexbench.Common

namespace Neighborhood

variable {V : Type*} (nb : Neighborhood)

/-- A phase of `exchange` for a field, with the buffers `m_send_buffers[j]` and `m_recv_buffers[j]`, or
those of one field among them. -/
def bufferedPhase (slot fieldId : ℕ) (dim : Fin 3) : Phase (Memory V) (List V) where
  prepare m :=
    let buffers := nb.pack dim (m.fields fieldId) (m.sendBuffers slot (bufferOf dim false))
      (m.sendBuffers slot (bufferOf dim true))
    (m.setSend slot (bufferOf dim false) buffers.1).setSend slot (bufferOf dim true) buffers.2
  outgoing left m := readRange 0 (nb.bufferSize (bufferOf dim left))
    (m.sendBuffers slot (bufferOf dim left))
  incoming left data m := m.setRecv slot (bufferOf dim left)
    (writeRange 0 (nb.bufferSize (bufferOf dim left)) data (m.recvBuffers slot (bufferOf dim left)))
  conclude m := m.setField fieldId (nb.unpack dim (m.fields fieldId)
    (m.recvBuffers slot (bufferOf dim false)) (m.recvBuffers slot (bufferOf dim true)))

/-- A phase of `exchange`, with the buffers of a slot if it uses any. -/
def slotPhase : Path → ℕ → ℕ → Fin 3 → Phase (Memory V) (List V)
  | .datatypes, _, fieldId, dim => nb.datatypesPhase fieldId dim
  | .packed, _, fieldId, 2 => nb.directPhase fieldId
  | .packed, slot, fieldId, dim => nb.bufferedPhase slot fieldId dim
  | .packedZ, slot, fieldId, dim => nb.bufferedPhase slot fieldId dim

end Neighborhood

/-- The compile-time and run-time choices that `step` depends on: the version of `exchange`, and
`CARTEX_MPI_MANY_BUFFERS`. -/
structure Variant where
  path : Path
  manyBuffers : Bool
  deriving DecidableEq, Repr

/-- The buffers that a field is packed into. -/
def Variant.slot (v : Variant) (fieldId : ℕ) : ℕ := if v.manyBuffers then fieldId else 0

namespace Setup

variable (su : Setup)

/-- All threads of all ranks call `step` a number of times, in lockstep or not. -/
def stepping (V : Type*) (v : Variant) (steps : ℕ) : Staged (ℕ × ℕ) (Memory V) (List V) where
  phase p q := (su.neighborhood q).slotPhase v.path (v.slot (p / 3 % su.numFields))
    (p / 3 % su.numFields) (phaseDim p)
  source p q left := su.source q (phaseDim p) left
  members := Finset.range su.cfg.numRanks ×ˢ Finset.range su.cfg.numThreads
  total := su.numPhases steps

end Setup

/-- The sends that have been posted when a thread stands before a call of its phase. -/
def Stage.sent : Stage → Bool → Bool
  | .recv _, _ => false
  | .send true, _ => false
  | .send false, left => left
  | .waitall, _ => true

/-- What a call does to the memory, apart from posting an operation: the first receive of a phase
follows the packing, the return of `MPI_Waitall` is followed by the unpacking. -/
def Stage.effect {M μ : Type*} (ph : Phase M μ) : Stage → M → M
  | .recv true => ph.prepare
  | .waitall => ph.conclude
  | _ => id

/-- The threads and the network, the memory of every thread, the contents of the messages that have
been read, and the receives whose contents have been written. -/
structure PassingState (V : Type*) where
  exchange : ExchangeState
  mem : ℕ × ℕ → Memory V
  contents : Op → Option (List V)
  landed : Op → Bool

/-- All threads before their first step. -/
def PassingState.init {V : Type*} (start : ℕ × ℕ → Memory V) : PassingState V :=
  ⟨ExchangeState.init, start, fun _ => none, fun _ => false⟩

/-- A call of a thread, the delivery of a message, or the reading or writing of the contents of a
message of the phase that a thread is in. -/
inductive PassingAction
  | call (thread : ℕ × ℕ)
  | deliver (sender : ℕ × ℕ) (key : ℕ × ℕ × ℕ)
  | read (thread : ℕ × ℕ) (left : Bool)
  | land (thread : ℕ × ℕ) (left : Bool)
  deriving DecidableEq, Repr

namespace Setup

variable {V : Type*} (su : Setup)

/-- One step of the system, if it is enabled, with the effects of the calls on the memory. `MPI_Waitall`
returns when the contents of both receives have been written and those of both sends have been read. -/
def passWith (effect : Phase (Memory V) (List V) → Stage → Memory V → Memory V) (v : Variant) (steps : ℕ)
    (eager : Op → Bool) (s : PassingState V) : PassingAction → Option (PassingState V)
  | .deliver sender key => (su.next steps eager s.exchange (.deliver sender key)).map fun e =>
      { s with exchange := e }
  | .call q =>
    let c := s.exchange.cursors q
    if c.stage = .waitall → ∀ left, s.landed (su.op q c.phase left) = true ∧
        (s.contents (su.op q c.phase left)).isSome then
      (su.next steps eager s.exchange (.run q)).map fun e => { s with
        exchange := e
        mem := Function.update s.mem q
          (effect ((su.stepping V v steps).phase c.phase q) c.stage (s.mem q)) }
    else none
  | .read q left =>
    let c := s.exchange.cursors q
    if su.InRange q ∧ c.stage.sent left = true ∧ (s.contents (su.op q c.phase left)).isNone then
      let data := ((su.stepping V v steps).phase c.phase q).outgoing left (s.mem q)
      some { s with contents := Function.update s.contents (su.op q c.phase left) (some data) }
    else none
  | .land q left =>
    let c := s.exchange.cursors q
    let r := su.op q c.phase left
    if s.landed r = false then
      (s.exchange.net.matched.find? fun p => p.1 = r).bind fun p => (s.contents p.2).map fun data =>
        { s with
          mem := Function.update s.mem q
            (((su.stepping V v steps).phase c.phase q).incoming left data (s.mem q))
          landed := Function.update s.landed r true }
    else none

/-- One step of the system with MPI, which packs before it posts the receives. -/
def pass (v : Variant) (steps : ℕ) (eager : Op → Bool) (s : PassingState V) :
    PassingAction → Option (PassingState V) :=
  su.passWith Stage.effect v steps eager s

/-- The states of all runs from the given memories. -/
def Passed (v : Variant) (steps : ℕ) (eager : Op → Bool) (start : ℕ × ℕ → Memory V)
    (s : PassingState V) : Prop :=
  Reachable (· = PassingState.init start) (Steps (su.pass v steps eager)) s

end Setup

end Ghexbench.Cartex
