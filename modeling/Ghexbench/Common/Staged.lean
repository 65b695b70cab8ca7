import Ghexbench.Common.Transition
import Mathlib.Algebra.BigOperators.Group.Finset.Basic
import Mathlib.Algebra.Order.BigOperators.Group.Finset
import Mathlib.Logic.Function.Basic

/-!
# Staged exchanges

Components with a memory each go through the phases of an exchange. In a phase a component prepares
its memory, sends two messages and receives two, and continues when all four are complete. The
contents of a message are read at any time while the phase of its sender is open, and arrive at any
time while that of its receiver is open. `Staged.after` runs all components in lockstep, one phase
after the other.

If the memory that a message is read from is not touched by messages that arrive, then every run
comes to an end and leaves what the lockstep run leaves.
-/

namespace Ghexbench.Common

/-- What a component does in a phase. The two messages are told apart by their direction. -/
structure Phase (M μ : Type*) where
  prepare : M → M
  outgoing : Bool → M → μ
  incoming : Bool → μ → M → M
  conclude : M → M

/-- An exchange: the phases of all components, the component that a message of a direction comes
from, the components that take part, and the number of phases. -/
structure Staged (ι M μ : Type*) where
  phase : ℕ → ι → Phase M μ
  source : ℕ → ι → Bool → ι
  members : Finset ι
  total : ℕ

/-- The number of completed phases and the memory of every component, whether its next phase is
open, the messages that have been read, and which messages have arrived. -/
structure StagedState (ι M μ : Type*) where
  done : ι → ℕ
  isOpen : ι → Bool
  mem : ι → M
  messages : ι → ℕ → Bool → Option μ
  arrived : ι → ℕ → Bool → Bool

/-- A component opens its next phase, a message is read or arrives, or a component completes its
phase. -/
inductive StagedAction (ι : Type*)
  | start (q : ι)
  | read (q : ι) (dir : Bool)
  | arrive (q : ι) (dir : Bool)
  | finish (q : ι)

/-- All components before their first phase. -/
def StagedState.init {ι M μ : Type*} (start : ι → M) : StagedState ι M μ :=
  ⟨fun _ => 0, fun _ => false, start, fun _ _ _ => none, fun _ _ _ => false⟩

/-- Record what has become of a message. -/
def mark {ι β : Type*} [DecidableEq ι] (f : ι → ℕ → Bool → β) (q : ι) (p : ℕ) (dir : Bool) (v : β) :
    ι → ℕ → Bool → β :=
  Function.update f q (Function.update (f q) p (Function.update (f q p) dir v))

/-- Only what is recorded of this message changes. -/
theorem mark_apply {ι β : Type*} [DecidableEq ι] (f : ι → ℕ → Bool → β) (q : ι) (p : ℕ) (dir : Bool)
    (v : β) (r : ι) (p' : ℕ) (dir' : Bool) : mark f q p dir v r p' dir' =
      if r = q ∧ p' = p ∧ dir' = dir then v else f r p' dir' := by
  unfold mark
  by_cases hr : r = q
  · subst hr
    by_cases hp : p' = p
    · subst hp
      simp [Function.update_apply]
    · simp [hp]
  · simp [hr]

namespace Staged

variable {ι M μ : Type*} [DecidableEq ι] (S : Staged ι M μ)

/-- One step of the system, if it is enabled. -/
def next (s : StagedState ι M μ) : StagedAction ι → Option (StagedState ι M μ)
  | .start q =>
    if q ∈ S.members ∧ s.done q < S.total ∧ s.isOpen q = false then
      some { s with
        isOpen := Function.update s.isOpen q true
        mem := Function.update s.mem q ((S.phase (s.done q) q).prepare (s.mem q)) }
    else none
  | .read q dir =>
    if q ∈ S.members ∧ s.isOpen q = true ∧ (s.messages q (s.done q) dir).isNone then
      let msg := (S.phase (s.done q) q).outgoing dir (s.mem q)
      some { s with messages := mark s.messages q (s.done q) dir (some msg) }
    else none
  | .arrive q dir =>
    if q ∈ S.members ∧ s.isOpen q = true ∧ s.arrived q (s.done q) dir = false then
      (s.messages (S.source (s.done q) q dir) (s.done q) dir).map fun msg => { s with
        mem := Function.update s.mem q ((S.phase (s.done q) q).incoming dir msg (s.mem q))
        arrived := mark s.arrived q (s.done q) dir true }
    else none
  | .finish q =>
    if q ∈ S.members ∧ s.isOpen q = true ∧
        ∀ dir, (s.messages q (s.done q) dir).isSome ∧ s.arrived q (s.done q) dir = true then
      some { s with
        done := Function.update s.done q (s.done q + 1)
        isOpen := Function.update s.isOpen q false
        mem := Function.update s.mem q ((S.phase (s.done q) q).conclude (s.mem q)) }
    else none

/-- What a step does. -/
inductive Moves (s : StagedState ι M μ) : StagedState ι M μ → Prop
  | start {q : ι} (hq : q ∈ S.members) (hlt : s.done q < S.total) (hclosed : s.isOpen q = false) :
    Moves s { s with
      isOpen := Function.update s.isOpen q true
      mem := Function.update s.mem q ((S.phase (s.done q) q).prepare (s.mem q)) }
  | read {q : ι} {dir : Bool} (hq : q ∈ S.members) (hopen : s.isOpen q = true)
    (hnone : s.messages q (s.done q) dir = none) :
    Moves s { s with
      messages := mark s.messages q (s.done q) dir
        (some ((S.phase (s.done q) q).outgoing dir (s.mem q))) }
  | arrive {q : ι} {dir : Bool} {msg : μ} (hq : q ∈ S.members) (hopen : s.isOpen q = true)
    (hnot : s.arrived q (s.done q) dir = false)
    (hmsg : s.messages (S.source (s.done q) q dir) (s.done q) dir = some msg) :
    Moves s { s with
      mem := Function.update s.mem q ((S.phase (s.done q) q).incoming dir msg (s.mem q))
      arrived := mark s.arrived q (s.done q) dir true }
  | finish {q : ι} (hq : q ∈ S.members) (hopen : s.isOpen q = true)
    (hall : ∀ dir, (s.messages q (s.done q) dir).isSome ∧ s.arrived q (s.done q) dir = true) :
    Moves s { s with
      done := Function.update s.done q (s.done q + 1)
      isOpen := Function.update s.isOpen q false
      mem := Function.update s.mem q ((S.phase (s.done q) q).conclude (s.mem q)) }

/-- Every step is one of these. -/
theorem moves_of_next {S : Staged ι M μ} {s s' : StagedState ι M μ} {a : StagedAction ι}
    (hstep : S.next s a = some s') : S.Moves s s' := by
  cases a with
  | start q =>
    simp only [next, Option.ite_none_right_eq_some, Option.some.injEq] at hstep
    obtain ⟨⟨hq, hlt, hclosed⟩, rfl⟩ := hstep
    exact .start hq hlt hclosed
  | read q dir =>
    simp only [next, Option.ite_none_right_eq_some, Option.some.injEq] at hstep
    obtain ⟨⟨hq, hopen, hnone⟩, rfl⟩ := hstep
    exact .read hq hopen (Option.isNone_iff_eq_none.mp hnone)
  | arrive q dir =>
    simp only [next, Option.ite_none_right_eq_some, Option.map_eq_some_iff] at hstep
    obtain ⟨⟨hq, hopen, hnot⟩, msg, hmsg, rfl⟩ := hstep
    exact .arrive hq hopen hnot hmsg
  | finish q =>
    simp only [next, Option.ite_none_right_eq_some, Option.some.injEq] at hstep
    obtain ⟨⟨hq, hopen, hall⟩, rfl⟩ := hstep
    exact .finish hq hopen hall

/-- The states of all runs. -/
def Reached (start : ι → M) (s : StagedState ι M μ) : Prop :=
  Reachable (· = StagedState.init start) (Steps S.next) s

section Lockstep

omit [DecidableEq ι]

/-- The message that a component sends in a phase. -/
def message (p : ℕ) (mem : ι → M) (q : ι) (dir : Bool) : μ :=
  (S.phase p q).outgoing dir ((S.phase p q).prepare (mem q))

/-- The memory of a component in a phase after some messages have arrived. -/
def receive (p : ℕ) (mem : ι → M) (q : ι) (arrived : Bool → Bool) : M :=
  let m := (S.phase p q).prepare (mem q)
  let m := if arrived true then
    (S.phase p q).incoming true (S.message p mem (S.source p q true) true) m else m
  if arrived false then
    (S.phase p q).incoming false (S.message p mem (S.source p q false) false) m else m

/-- All components go through a phase. -/
def round (p : ℕ) (mem : ι → M) (q : ι) : M :=
  (S.phase p q).conclude (S.receive p mem q fun _ => true)

/-- The memories after a number of phases in lockstep. -/
def after (start : ι → M) : ℕ → ι → M
  | 0 => start
  | p + 1 => S.round p (after start p)

/-- The memory that messages are read from is not touched by messages that arrive, and the two
messages arrive in different places. -/
structure Independent : Prop where
  outgoing_incoming : ∀ p, ∀ q ∈ S.members, ∀ dir dir' msg m,
    (S.phase p q).outgoing dir ((S.phase p q).incoming dir' msg m) = (S.phase p q).outgoing dir m
  incoming_comm : ∀ p, ∀ q ∈ S.members, ∀ msg msg' m,
    (S.phase p q).incoming true msg ((S.phase p q).incoming false msg' m) =
      (S.phase p q).incoming false msg' ((S.phase p q).incoming true msg m)
  source_mem : ∀ p, ∀ q ∈ S.members, ∀ dir, S.source p q dir ∈ S.members

variable {S} {p : ℕ} {q : ι} {mem : ι → M} {arrived : Bool → Bool}

/-- What has arrived does not change the messages. -/
theorem Independent.outgoing_receive (h : S.Independent) (hq : q ∈ S.members) (dir : Bool) :
    (S.phase p q).outgoing dir (S.receive p mem q arrived) = S.message p mem q dir := by
  unfold receive message
  cases arrived true <;> cases arrived false <;>
    simp only [if_true, if_false, Bool.false_eq_true, h.outgoing_incoming p q hq]

/-- One more message has arrived. -/
theorem Independent.receive_update (h : S.Independent) (hq : q ∈ S.members) {dir : Bool}
    (hnot : arrived dir = false) :
    (S.phase p q).incoming dir (S.message p mem (S.source p q dir) dir)
      (S.receive p mem q arrived) = S.receive p mem q (Function.update arrived dir true) := by
  unfold receive
  cases dir with
  | false => simp [hnot]
  | true => cases hfalse : arrived false <;> simp [hnot, hfalse, h.incoming_comm p q hq]

end Lockstep

/-- Every component has the memory of the lockstep run, as far as it has come. -/
structure InStep (start : ι → M) (s : StagedState ι M μ) : Prop where
  done_le : ∀ q, s.done q ≤ S.total
  open_lt : ∀ q, s.isOpen q = true → s.done q < S.total
  message_eq : ∀ q p dir msg, s.messages q p dir = some msg →
    q ∈ S.members ∧ msg = S.message p (S.after start p) q dir
  sent : ∀ q ∈ S.members, ∀ p < s.done q, ∀ dir, (s.messages q p dir).isSome
  not_arrived : ∀ q p dir, s.done q < p ∨ (p = s.done q ∧ s.isOpen q = false) →
    s.arrived q p dir = false
  mem_open : ∀ q ∈ S.members, s.isOpen q = true → s.mem q =
    S.receive (s.done q) (S.after start (s.done q)) q (s.arrived q (s.done q))
  mem_closed : ∀ q ∈ S.members, s.isOpen q = false → s.mem q = S.after start (s.done q) q

namespace InStep

variable {S} {start : ι → M} {s : StagedState ι M μ} {q : ι}

omit [DecidableEq ι] in
/-- The start of the exchange. -/
theorem init (S : Staged ι M μ) (start : ι → M) : S.InStep start (StagedState.init start) where
  done_le _ := Nat.zero_le _
  open_lt q h := absurd h Bool.false_ne_true
  message_eq q p dir msg h := by cases h
  sent q _ p h := absurd h (Nat.not_lt_zero p)
  not_arrived _ _ _ _ := rfl
  mem_open q _ h := absurd h Bool.false_ne_true
  mem_closed _ _ _ := rfl

/-- A component opens its next phase. -/
theorem open_phase (h : S.InStep start s) (hq : q ∈ S.members) (hlt : s.done q < S.total)
    (hclosed : s.isOpen q = false) : S.InStep start { s with
      isOpen := Function.update s.isOpen q true
      mem := Function.update s.mem q ((S.phase (s.done q) q).prepare (s.mem q)) } where
  done_le := h.done_le
  open_lt r hr := by
    by_cases hrq : r = q
    · exact hrq ▸ hlt
    · exact h.open_lt r (by simpa [hrq] using hr)
  message_eq := h.message_eq
  sent := h.sent
  not_arrived r p dir hp := by
    apply h.not_arrived r p dir
    by_cases hrq : r = q
    · simp_all
    · simpa [hrq] using hp
  mem_open r hr hopen := by
    by_cases hrq : r = q
    · subst hrq
      have hnone : s.arrived r (s.done r) = fun _ => false :=
        funext fun dir => h.not_arrived r _ dir (Or.inr ⟨rfl, hclosed⟩)
      simp [hnone, receive, h.mem_closed r hr hclosed]
    · simp only [Function.update_of_ne hrq] at hopen ⊢
      exact h.mem_open r hr hopen
  mem_closed r hr hshut := by
    by_cases hrq : r = q
    · simp [hrq] at hshut
    · simp only [Function.update_of_ne hrq] at hshut ⊢
      exact h.mem_closed r hr hshut

/-- A message is read. -/
theorem read (h : S.InStep start s) (hind : S.Independent) (hq : q ∈ S.members)
    (hopen : s.isOpen q = true) (dir : Bool) : S.InStep start { s with
      messages := mark s.messages q (s.done q) dir
        (some ((S.phase (s.done q) q).outgoing dir (s.mem q))) } where
  done_le := h.done_le
  open_lt := h.open_lt
  message_eq r p dir' msg hmsg := by
    simp only [mark_apply] at hmsg
    split at hmsg
    · next hthis =>
      obtain ⟨rfl, rfl, rfl⟩ := hthis
      rw [← Option.some.inj hmsg, h.mem_open r hq hopen, hind.outgoing_receive hq]
      exact ⟨hq, rfl⟩
    · exact h.message_eq r p dir' msg hmsg
  sent r hr p hp dir' := by
    simp only [mark_apply]
    split
    · rfl
    · exact h.sent r hr p hp dir'
  not_arrived := h.not_arrived
  mem_open := h.mem_open
  mem_closed := h.mem_closed

/-- A message arrives. -/
theorem arrive (h : S.InStep start s) (hind : S.Independent) (hq : q ∈ S.members)
    (hopen : s.isOpen q = true) {dir : Bool} (hnot : s.arrived q (s.done q) dir = false) {msg : μ}
    (hmsg : s.messages (S.source (s.done q) q dir) (s.done q) dir = some msg) :
    S.InStep start { s with
      mem := Function.update s.mem q ((S.phase (s.done q) q).incoming dir msg (s.mem q))
      arrived := mark s.arrived q (s.done q) dir true } where
  done_le := h.done_le
  open_lt := h.open_lt
  message_eq := h.message_eq
  sent := h.sent
  not_arrived r p dir' hp := by
    simp only [mark_apply]
    rw [if_neg]
    · exact h.not_arrived r p dir' hp
    · rintro ⟨rfl, rfl, rfl⟩
      rcases hp with hp | ⟨_, hclosed⟩
      · exact absurd hp (Nat.lt_irrefl _)
      · rw [hopen] at hclosed
        cases hclosed
  mem_open r hr hopen' := by
    by_cases hrq : r = q
    · subst hrq
      have hmark : mark s.arrived r (s.done r) dir true r (s.done r) =
          Function.update (s.arrived r (s.done r)) dir true := by
        simp [mark]
      simp only [Function.update_self]
      rw [hmark, (h.message_eq _ _ _ _ hmsg).2, h.mem_open r hr hopen, hind.receive_update hr hnot]
    · have hmark : mark s.arrived q (s.done q) dir true r = s.arrived r := by
        simp [mark, hrq]
      simp only [Function.update_of_ne hrq]
      rw [hmark]
      exact h.mem_open r hr hopen'
  mem_closed r hr hshut := by
    by_cases hrq : r = q
    · subst hrq
      rw [hopen] at hshut
      cases hshut
    · simp only [Function.update_of_ne hrq]
      exact h.mem_closed r hr hshut

/-- A component completes its phase. -/
theorem finish (h : S.InStep start s) (hq : q ∈ S.members) (hopen : s.isOpen q = true)
    (hall : ∀ dir, (s.messages q (s.done q) dir).isSome ∧ s.arrived q (s.done q) dir = true) :
    S.InStep start { s with
      done := Function.update s.done q (s.done q + 1)
      isOpen := Function.update s.isOpen q false
      mem := Function.update s.mem q ((S.phase (s.done q) q).conclude (s.mem q)) } where
  done_le r := by
    by_cases hrq : r = q
    · subst hrq
      simp only [Function.update_self]
      exact h.open_lt r hopen
    · simpa [hrq] using h.done_le r
  open_lt r hr := by
    by_cases hrq : r = q
    · simp [hrq] at hr
    · simp only [Function.update_of_ne hrq] at hr ⊢
      exact h.open_lt r hr
  message_eq := h.message_eq
  sent r hr p hp dir := by
    by_cases hrq : r = q
    · subst hrq
      simp only [Function.update_self] at hp
      rcases Nat.lt_succ_iff_lt_or_eq.mp hp with hlt | rfl
      · exact h.sent r hr p hlt dir
      · exact (hall dir).1
    · simp only [Function.update_of_ne hrq] at hp
      exact h.sent r hr p hp dir
  not_arrived r p dir hp := by
    apply h.not_arrived r p dir
    by_cases hrq : r = q
    · subst hrq
      simp only [Function.update_self] at hp
      omega
    · simpa [hrq] using hp
  mem_open r hr hopen' := by
    by_cases hrq : r = q
    · simp [hrq] at hopen'
    · simp only [Function.update_of_ne hrq] at hopen' ⊢
      exact h.mem_open r hr hopen'
  mem_closed r hr hshut := by
    by_cases hrq : r = q
    · subst hrq
      have hfull : s.arrived r (s.done r) = fun _ => true := funext fun dir => (hall dir).2
      simp only [Function.update_self]
      rw [h.mem_open r hr hopen, hfull]
      rfl
    · simp only [Function.update_of_ne hrq] at hshut ⊢
      exact h.mem_closed r hr hshut

/-- Every step keeps the components in step. -/
theorem step (h : S.InStep start s) (hind : S.Independent) {a : StagedAction ι}
    {s' : StagedState ι M μ} (hstep : S.next s a = some s') : S.InStep start s' := by
  cases moves_of_next hstep with
  | start hq hlt hclosed => exact h.open_phase hq hlt hclosed
  | read hq hopen hnone => exact h.read hind hq hopen _
  | arrive hq hopen hnot hmsg => exact h.arrive hind hq hopen hnot hmsg
  | finish hq hopen hall => exact h.finish hq hopen hall

end InStep

section Runs

variable {S} {start : ι → M} {s : StagedState ι M μ}

/-- The components are in step in every state of every run. -/
theorem Reached.inStep (hind : S.Independent) (h : S.Reached start s) : S.InStep start s := by
  refine Reachable.invariant ?_ (fun t t' hinv ⟨a, hstep⟩ => hinv.step hind hstep) h
  intro s₀ hs₀
  subst hs₀
  exact InStep.init S start

/-- At the end of a run a component that has phases left has opened its next one. -/
theorem isOpen_of_stuck (hstuck : ∀ a, S.next s a = none) {r : ι} (hr : r ∈ S.members)
    (hlt : s.done r < S.total) : s.isOpen r = true := by
  by_contra hclosed
  have hnone := hstuck (.start r)
  simp only [next] at hnone
  rw [if_pos ⟨hr, hlt, eq_false_of_ne_true hclosed⟩] at hnone
  cases hnone

/-- At the end of a run the messages of an open phase have been read. -/
theorem read_of_stuck (hstuck : ∀ a, S.next s a = none) {r : ι} (hr : r ∈ S.members)
    (hlt : s.done r < S.total) (dir : Bool) : (s.messages r (s.done r) dir).isSome := by
  by_contra hunread
  have hnone := hstuck (.read r dir)
  simp only [next] at hnone
  rw [if_pos ⟨hr, isOpen_of_stuck hstuck hr hlt, Option.isNone_iff_eq_none.mpr
    (Option.not_isSome_iff_eq_none.mp hunread)⟩] at hnone
  cases hnone

/-- At the end of a run a message has arrived if its sender has come at least as far. -/
theorem InStep.arrived_of_stuck (h : S.InStep start s) (hind : S.Independent)
    (hstuck : ∀ a, S.next s a = none) {q : ι} (hq : q ∈ S.members) (hlt : s.done q < S.total)
    (dir : Bool) (hle : s.done q ≤ s.done (S.source (s.done q) q dir)) :
    s.arrived q (s.done q) dir = true := by
  by_contra hnot
  have hsource := hind.source_mem (s.done q) q hq dir
  generalize hr : S.source (s.done q) q dir = r at hsource hle
  have hmsg : (s.messages r (s.done q) dir).isSome := by
    cases hle.eq_or_lt with
    | inl heq =>
      rw [heq]
      exact read_of_stuck hstuck hsource (heq ▸ hlt) dir
    | inr hmore => exact h.sent r hsource _ hmore dir
  obtain ⟨msg, hmsg⟩ := Option.isSome_iff_exists.mp hmsg
  have hnone := hstuck (.arrive q dir)
  simp only [next] at hnone
  rw [if_pos ⟨hq, isOpen_of_stuck hstuck hq hlt, eq_false_of_ne_true hnot⟩, hr, hmsg] at hnone
  cases hnone

/-- At the end of a run all components have completed all phases: the one that has come least far
could go on. -/
theorem InStep.done_of_stuck (h : S.InStep start s) (hind : S.Independent)
    (hstuck : ∀ a, S.next s a = none) {q : ι} (hq : q ∈ S.members) : s.done q = S.total := by
  apply le_antisymm (h.done_le q)
  by_contra hnot
  induction hp : s.done q using Nat.strongRecOn generalizing q with
  | ind p ih =>
    subst hp
    have hlt : s.done q < S.total := not_le.mp hnot
    have hahead (dir : Bool) : s.done q ≤ s.done (S.source (s.done q) q dir) := by
      by_contra hless
      have hsource := hind.source_mem (s.done q) q hq dir
      exact ih _ (not_le.mp hless) hsource (by omega) rfl
    have harrived (dir : Bool) := h.arrived_of_stuck hind hstuck hq hlt dir (hahead dir)
    have hnone := hstuck (.finish q)
    simp only [next] at hnone
    rw [if_pos ⟨hq, isOpen_of_stuck hstuck hq hlt,
      fun dir => ⟨read_of_stuck hstuck hq hlt dir, harrived dir⟩⟩] at hnone
    cases hnone

/-- At the end of a run every component has the memory of the lockstep run. -/
theorem mem_of_stuck (hind : S.Independent) (h : S.Reached start s)
    (hstuck : ∀ a, S.next s a = none) {q : ι} (hq : q ∈ S.members) :
    s.mem q = S.after start S.total q := by
  have hinv := Reached.inStep hind h
  have hdone := hinv.done_of_stuck hind hstuck hq
  rw [hinv.mem_closed q hq, hdone]
  by_contra hopen
  have hlt := hinv.open_lt q (eq_true_of_ne_false hopen)
  omega

/-- How far a component has come. -/
def progress (s : StagedState ι M μ) (q : ι) : ℕ :=
  6 * s.done q + if s.isOpen q then
    1 + (s.messages q (s.done q) true).isSome.toNat + (s.messages q (s.done q) false).isSome.toNat +
      (s.arrived q (s.done q) true).toNat + (s.arrived q (s.done q) false).toNat
  else 0

/-- How far the components of an exchange have come. -/
def work (S : Staged ι M μ) (s : StagedState ι M μ) : ℕ := ∑ q ∈ S.members, progress s q

/-- A component that moves makes progress, and the others stay where they are. -/
theorem work_lt {s' : StagedState ι M μ} {q : ι} (hq : q ∈ S.members)
    (hlt : progress s q < progress s' q) (hothers : ∀ r, r ≠ q → progress s r = progress s' r) :
    S.work s < S.work s' := by
  apply Finset.sum_lt_sum
  · intro r _
    by_cases hrq : r = q
    · exact hrq ▸ hlt.le
    · exact (hothers r hrq).le
  · exact ⟨q, hq, hlt⟩

/-- Every step makes progress. -/
theorem work_lt_of_next {s' : StagedState ι M μ} {a : StagedAction ι}
    (hstep : S.next s a = some s') : S.work s < S.work s' := by
  cases moves_of_next hstep with
  | start hq hlt hclosed =>
    apply work_lt hq
    · simp [progress, hclosed]
    · intro r hr
      simp [progress, hr]
  | @read _ dir hq hopen hnone =>
    apply work_lt hq
    · cases dir <;> simp [progress, hopen, mark_apply, hnone]
    · intro r hr
      simp [progress, mark_apply, hr]
  | @arrive _ dir _ hq hopen hnot hmsg =>
    apply work_lt hq
    · cases dir <;> simp [progress, hopen, mark_apply, hnot]
    · intro r hr
      simp [progress, mark_apply, hr]
  | finish hq hopen hall =>
    apply work_lt hq
    · simp [progress, hopen, hall]
      omega
    · intro r hr
      simp [progress, hr]

omit [DecidableEq ι] in
/-- A component has at most six steps for each phase. -/
theorem InStep.work_le (h : S.InStep start s) :
    S.work s ≤ S.members.card * (6 * S.total + 5) := by
  apply Finset.sum_le_card_nsmul
  intro q _
  have hdone := h.done_le q
  have hbool (x : Bool) : x.toNat ≤ 1 := Bool.toNat_le x
  have h1 := hbool (s.messages q (s.done q) true).isSome
  have h2 := hbool (s.messages q (s.done q) false).isSome
  have h3 := hbool (s.arrived q (s.done q) true)
  have h4 := hbool (s.arrived q (s.done q) false)
  unfold progress
  split <;> omega

/-- No schedule goes on for ever. -/
theorem length_le_of_run (hind : S.Independent) {actions : List (StagedAction ι)}
    (hrun : runActions S.next (StagedState.init start) actions = some s) :
    actions.length ≤ S.members.card * (6 * S.total + 5) := by
  have hbound := length_le_of_measure S.work
    (fun _ _ _ _ => work_lt_of_next) (fun _ ht => (Reached.inStep hind ht).work_le)
    (Reachable.initial rfl) hrun
  omega

/-- Some run comes to its end. -/
theorem exists_end (hind : S.Independent) (start : ι → M) :
    ∃ s, S.Reached start s ∧ ∀ a, S.next s a = none :=
  exists_stuck S.work (fun _ _ _ _ => work_lt_of_next)
    (fun _ ht => (Reached.inStep hind ht).work_le) (Reachable.initial rfl)

end Runs

section Deliveries

/-- What holds of the memory of component `r` holds of a message it sends in phase `p`, and then of
the memory of component `q` in which the message arrives. Nothing else that happens to the two
memories in any phase destroys it. -/
structure Delivers (q r : ι) (p : ℕ) (dir : Bool) (src : M → Prop) (msg : μ → Prop)
    (dst : M → Prop) : Prop where
  source_eq : S.source p q dir = r
  src_prepare : ∀ p' m, src m → src ((S.phase p' r).prepare m)
  src_incoming : ∀ p' dir' x m, src m → src ((S.phase p' r).incoming dir' x m)
  src_conclude : ∀ p' m, src m → src ((S.phase p' r).conclude m)
  outgoing : ∀ m, src m → msg ((S.phase p r).outgoing dir m)
  incoming : ∀ x m, msg x → dst ((S.phase p q).incoming dir x m)
  dst_prepare : ∀ p' m, dst m → dst ((S.phase p' q).prepare m)
  dst_incoming : ∀ p' dir' x m, ¬ (p' = p ∧ dir' = dir) → dst m →
    dst ((S.phase p' q).incoming dir' x m)
  dst_conclude : ∀ p' m, dst m → dst ((S.phase p' q).conclude m)

variable {S} {start : ι → M} {s : StagedState ι M μ} {q r : ι} {p : ℕ} {dir : Bool}
  {src dst : M → Prop} {msg : μ → Prop}

/-- How far a delivery has come. -/
structure Delivered (q r : ι) (p : ℕ) (dir : Bool) (src : M → Prop) (msg : μ → Prop)
    (dst : M → Prop) (s : StagedState ι M μ) : Prop where
  src : src (s.mem r)
  message : ∀ x, s.messages r p dir = some x → msg x
  dst : s.arrived q p dir = true → dst (s.mem q)
  arrived : p < s.done q → s.arrived q p dir = true

/-- A component whose memory has a property keeps it if the change of a memory does. -/
theorem update_mem {mem : ι → M} {q' t : ι} {f : M → M} {P : M → Prop} (hP : P (mem t))
    (hf : t = q' → P (mem t) → P (f (mem t))) : P (Function.update mem q' (f (mem q')) t) := by
  by_cases ht : t = q'
  · subst ht
    rw [Function.update_self]
    exact hf rfl hP
  · rwa [Function.update_of_ne ht]

namespace Delivered

variable (h : Delivered q r p dir src msg dst s) (hd : S.Delivers q r p dir src msg dst) (q' : ι)
  (dir' : Bool)
include h hd

/-- A component opens its next phase. -/
theorem open_phase : Delivered q r p dir src msg dst { s with
    isOpen := Function.update s.isOpen q' true
    mem := Function.update s.mem q' ((S.phase (s.done q') q').prepare (s.mem q')) } where
  src := update_mem h.src fun heq => heq ▸ hd.src_prepare _ _
  message := h.message
  dst harr := update_mem (h.dst harr) fun heq => heq ▸ hd.dst_prepare _ _
  arrived := h.arrived

/-- A message is read. -/
theorem read : Delivered q r p dir src msg dst { s with
    messages := mark s.messages q' (s.done q') dir'
      (some ((S.phase (s.done q') q').outgoing dir' (s.mem q'))) } where
  src := h.src
  message x hx := by
    simp only [mark_apply] at hx
    split at hx
    · next hthis =>
      obtain ⟨rfl, rfl, rfl⟩ := hthis
      exact Option.some.inj hx ▸ hd.outgoing _ h.src
    · exact h.message x hx
  dst := h.dst
  arrived := h.arrived

/-- A message arrives. -/
theorem arrive {x : μ} (hx : s.messages (S.source (s.done q') q' dir') (s.done q') dir' = some x) :
    Delivered q r p dir src msg dst { s with
      mem := Function.update s.mem q' ((S.phase (s.done q') q').incoming dir' x (s.mem q'))
      arrived := mark s.arrived q' (s.done q') dir' true } where
  src := update_mem h.src fun heq => heq ▸ hd.src_incoming _ _ _ _
  message := h.message
  dst harr := by
    simp only [mark_apply] at harr
    by_cases hthis : q = q' ∧ p = s.done q' ∧ dir = dir'
    · obtain ⟨rfl, rfl, rfl⟩ := hthis
      rw [hd.source_eq] at hx
      simp only [Function.update_self]
      exact hd.incoming x _ (h.message x hx)
    · rw [if_neg hthis] at harr
      refine update_mem (h.dst harr) fun heq => ?_
      subst heq
      exact hd.dst_incoming _ _ _ _ fun hsame => hthis ⟨rfl, hsame.1.symm, hsame.2.symm⟩
  arrived hlt := by
    simp only [mark_apply]
    split
    · rfl
    · exact h.arrived hlt

/-- A component completes its phase. -/
theorem finish (hall : ∀ dir, s.arrived q' (s.done q') dir = true) :
    Delivered q r p dir src msg dst { s with
      done := Function.update s.done q' (s.done q' + 1)
      isOpen := Function.update s.isOpen q' false
      mem := Function.update s.mem q' ((S.phase (s.done q') q').conclude (s.mem q')) } where
  src := update_mem h.src fun heq => heq ▸ hd.src_conclude _ _
  message := h.message
  dst harr := update_mem (h.dst harr) fun heq => heq ▸ hd.dst_conclude _ _
  arrived hlt := by
    by_cases hq : q = q'
    · subst hq
      simp only [Function.update_self] at hlt
      cases Nat.lt_succ_iff_lt_or_eq.mp hlt with
      | inl hbefore => exact h.arrived hbefore
      | inr heq => exact heq ▸ hall dir
    · simp only [Function.update_of_ne hq] at hlt
      exact h.arrived hlt

/-- Every step takes a delivery further. -/
theorem step {a : StagedAction ι} {s' : StagedState ι M μ} (hstep : S.next s a = some s') :
    Delivered q r p dir src msg dst s' := by
  cases moves_of_next hstep with
  | start hq hlt hclosed => exact h.open_phase hd _
  | read hq hopen hnone => exact h.read hd _ _
  | arrive hq hopen hnot hmsg => exact h.arrive hd _ _ hmsg
  | finish hq hopen hall => exact h.finish hd _ fun dir => (hall dir).2

end Delivered

/-- In every run the message of a completed phase has been delivered. -/
theorem Delivers.of_lt_done (hd : S.Delivers q r p dir src msg dst) (hsrc : src (start r))
    (h : S.Reached start s) (hlt : p < s.done q) : dst (s.mem q) := by
  have hdelivered : Delivered q r p dir src msg dst s := by
    refine Reachable.invariant ?_ (fun t t' hinv ⟨a, hstep⟩ => hinv.step hd hstep) h
    intro s₀ hs₀
    subst hs₀
    refine ⟨hsrc, fun x hx => ?_, fun harr => ?_, fun hlt => ?_⟩
    · cases hx
    · cases harr
    · exact absurd hlt (Nat.not_lt_zero p)
  exact hdelivered.dst (hdelivered.arrived hlt)

end Deliveries

end Staged

end Ghexbench.Common
