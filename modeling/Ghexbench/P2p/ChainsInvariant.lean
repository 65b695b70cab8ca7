import Ghexbench.P2p.ChainsOrder

/-!
# Invariants of the message chains

Every step starts a chain, completes a transfer of one, or matches a message. The calls that a
thread has made tell which of its chains have started, and if the tags of a rank are different then
every chain is matched with that of the peer in order.
-/

namespace Ghexbench.P2p

open Ghexbench.Common

/-- What is pending, posted or matched has been posted, and each request that is open has been
posted as well. -/
structure Logged (s : State) : Prop where
  count : s.sendLog.length = s.matched.length + s.pending.length
  openSends_le : s.openSends.length ≤ s.sendLog.length
  openRecvs_le : s.openRecvs.length ≤ s.recvLog.length
  pending_sub : s.pending ⊆ s.sendLog
  posted_sub : s.posted ⊆ s.recvLog
  matched_sub : ∀ p ∈ s.matched, p.2 ∈ s.sendLog

/-- Every chain is in one of its phases, as far as the calls of its thread have come. -/
structure Inv (b : Benchmark) (s : State) : Prop where
  calls_le : ∀ r t, s.calls r t ≤ 2 * b.window
  calls_zero : ∀ r t, ¬ (r < b.size ∧ t < b.threads r) → s.calls r t = 0
  sends : ∀ c, ChainOk b.nrep (2 * c.slot + 1 < s.calls c.rank c.thread) c s.sendLog s.openSends
  recvs : ∀ c, ChainOk b.nrep (2 * c.slot < s.calls c.rank c.thread) c s.recvLog s.openRecvs

/-- Every chain is matched with that of the peer in order. -/
def Ordered (b : Benchmark) (s : State) : Prop :=
  ∀ c, c.rank < b.size → Paired (Benchmark.onChain c s.sendLog)
    (Benchmark.onChain (b.peer c) s.recvLog) (Benchmark.onChain c s.pending)
    (Benchmark.onChain (b.peer c) s.posted) (s.matched.filter fun p => p.2.chain = c)

variable {b : Benchmark} {s s' : State} {eager : Op → Bool}

/-- What a step does. -/
inductive Moves (b : Benchmark) (eager : Op → Bool) (s : State) : State → Prop
  | call {r t : ℕ} (hcall : r < b.size ∧ t < b.threads r ∧ s.calls r t < 2 * b.window) :
    Moves b eager s (if s.calls r t % 2 = 0 then (s.advance r t).recv ⟨⟨r, t, s.calls r t / 2⟩, 0⟩
      else (s.advance r t).send ⟨⟨r, t, s.calls r t / 2⟩, 0⟩)
  | pair {rank p q tag : ℕ} {m r : Op} {pending posted : List Op}
    (hm : takeFirst (fun o => o.chain.rank = rank ∧ o.chain.thread = p ∧ o.chain.tag = tag)
      s.pending = some (m, pending))
    (hr : takeFirst (fun o => o.chain.rank = peerRank b.size rank ∧ o.chain.thread = q ∧
      o.chain.tag = tag) s.posted = some (r, posted)) :
    Moves b eager s
      { s with pending := pending, posted := posted, matched := s.matched ++ [(r, m)] }
  | sent {o : Op} (hopen : o ∈ s.openSends) (hdone : eager o ∨ s.matched.any fun p => p.2 = o) :
    Moves b eager s (b.sendCallback { s with openSends := s.openSends.erase o } o)
  | received {o : Op} (hopen : o ∈ s.openRecvs) (hdone : s.matched.any fun p => p.1 = o) :
    Moves b eager s (b.recvCallback { s with openRecvs := s.openRecvs.erase o } o)

/-- Every step is one of these. -/
theorem moves_of_next {a : Action} (hstep : b.next eager s a = some s') : Moves b eager s s' := by
  cases a with
  | call r t =>
    simp only [Benchmark.next, Option.ite_none_right_eq_some, Option.some.injEq] at hstep
    exact hstep.2 ▸ Moves.call hstep.1
  | pair rank p q tag =>
    simp only [Benchmark.next] at hstep
    split at hstep
    · next m pending r posted hm hr =>
      simp only [Option.some.injEq] at hstep
      exact hstep ▸ Moves.pair hm hr
    · cases hstep
  | sent o =>
    simp only [Benchmark.next, Option.ite_none_right_eq_some, Option.some.injEq] at hstep
    exact hstep.2 ▸ Moves.sent hstep.1.1 hstep.1.2
  | received o =>
    simp only [Benchmark.next, Option.ite_none_right_eq_some, Option.some.injEq] at hstep
    exact hstep.2 ▸ Moves.received hstep.1.1 hstep.1.2

section Callbacks

/-- The callback of a send posts the next send of the chain. -/
theorem sendCallback_eq (s : State) (o : Op) :
    b.sendCallback { s with openSends := s.openSends.erase o } o = { s with
      sendLog := repost b.nrep o s.sendLog
      pending := repost b.nrep o s.pending
      openSends := repost b.nrep o (s.openSends.erase o) } := by
  unfold Benchmark.sendCallback repost
  split <;> rfl

/-- The callback of a receive posts the next receive of the chain. -/
theorem recvCallback_eq (s : State) (o : Op) :
    b.recvCallback { s with openRecvs := s.openRecvs.erase o } o = { s with
      recvLog := repost b.nrep o s.recvLog
      posted := repost b.nrep o s.posted
      openRecvs := repost b.nrep o (s.openRecvs.erase o) } := by
  unfold Benchmark.recvCallback repost
  split <;> rfl

end Callbacks

/-- The number of calls after one more. -/
theorem advance_calls (s : State) (r t r' t' : ℕ) : (s.advance r t).calls r' t' =
    if r' = r ∧ t' = t then s.calls r t + 1 else s.calls r' t' := by
  unfold State.advance
  by_cases hr : r' = r
  · subst hr
    by_cases ht : t' = t
    · subst ht
      simp
    · simp [ht]
  · simp [hr]

/-- A call with a different number does not start a transfer. -/
theorem started_advance {r t k : ℕ} {c : Chain}
    (hne : c.rank = r → c.thread = t → s.calls r t ≠ k) :
    k < (s.advance r t).calls c.rank c.thread ↔ k < s.calls c.rank c.thread := by
  rw [advance_calls]
  split
  · next heq =>
    have hother := hne heq.1 heq.2
    rw [heq.1, heq.2]
    omega
  · rfl

/-- A call posts the first transfer of a chain, and leaves the other chains alone. -/
theorem first_posted {log opened : List Op} {r t d : ℕ}
    (h : ∀ c : Chain, ChainOk b.nrep (2 * c.slot + d < s.calls c.rank c.thread) c log opened)
    (hcall : s.calls r t = 2 * (s.calls r t / 2) + d) (c : Chain) :
    ChainOk b.nrep (2 * c.slot + d < (s.advance r t).calls c.rank c.thread) c
      (log ++ [⟨⟨r, t, s.calls r t / 2⟩, 0⟩]) (opened ++ [⟨⟨r, t, s.calls r t / 2⟩, 0⟩]) := by
  by_cases hc : (⟨r, t, s.calls r t / 2⟩ : Chain) = c
  · subst hc
    apply (h _).start b.nrep_pos
    · exact fun hlt => absurd hcall (Nat.ne_of_gt hlt)
    · rw [advance_calls, if_pos ⟨rfl, rfl⟩]
      exact Nat.lt_succ_of_le (Nat.le_of_eq hcall.symm)
  · apply (h c).post_other hc
    apply started_advance
    intro hrank hthread hk
    apply hc
    have hslot : c.slot = s.calls r t / 2 := by omega
    rw [← hslot, ← hrank, ← hthread]

namespace Inv

/-- A transfer that has been posted belongs to a chain of the benchmark. -/
theorem inRange (h : Inv b s) {c : Chain} (hst : 2 * c.slot < s.calls c.rank c.thread) :
    b.InRange c := by
  have hle := h.calls_le c.rank c.thread
  by_cases hthread : c.rank < b.size ∧ c.thread < b.threads c.rank
  · exact ⟨hthread.1, hthread.2, by omega⟩
  · rw [h.calls_zero _ _ hthread] at hst
    exact absurd hst (Nat.not_lt_zero _)

/-- A send that has been posted belongs to a chain of the benchmark. -/
theorem send_inRange (h : Inv b s) {o : Op} (hmem : o ∈ s.sendLog) : b.InRange o.chain := by
  have hst := (h.sends o.chain).started_of_mem (Or.inl hmem) rfl
  exact h.inRange (by omega)

/-- A receive that has been posted belongs to a chain of the benchmark. -/
theorem recv_inRange (h : Inv b s) {o : Op} (hmem : o ∈ s.recvLog) : b.InRange o.chain :=
  h.inRange ((h.recvs o.chain).started_of_mem (Or.inl hmem) rfl)

/-- A send that is open belongs to a chain of the benchmark. -/
theorem openSend_inRange (h : Inv b s) {o : Op} (hmem : o ∈ s.openSends) : b.InRange o.chain := by
  have hst := (h.sends o.chain).started_of_mem (Or.inr hmem) rfl
  exact h.inRange (by omega)

/-- A receive that is open belongs to a chain of the benchmark. -/
theorem openRecv_inRange (h : Inv b s) {o : Op} (hmem : o ∈ s.openRecvs) : b.InRange o.chain :=
  h.inRange ((h.recvs o.chain).started_of_mem (Or.inr hmem) rfl)

/-- A thread makes the next call of its loop. -/
theorem call (h : Inv b s) {r t : ℕ}
    (hcall : r < b.size ∧ t < b.threads r ∧ s.calls r t < 2 * b.window) :
    Inv b (if s.calls r t % 2 = 0 then (s.advance r t).recv ⟨⟨r, t, s.calls r t / 2⟩, 0⟩
      else (s.advance r t).send ⟨⟨r, t, s.calls r t / 2⟩, 0⟩) := by
  have hle (r' t' : ℕ) : (s.advance r t).calls r' t' ≤ 2 * b.window := by
    rw [advance_calls]
    split
    · exact hcall.2.2
    · exact h.calls_le r' t'
  have hzero (r' t' : ℕ) (hnot : ¬ (r' < b.size ∧ t' < b.threads r')) :
      (s.advance r t).calls r' t' = 0 := by
    rw [advance_calls, if_neg]
    · exact h.calls_zero r' t' hnot
    · rintro ⟨rfl, rfl⟩
      exact hnot ⟨hcall.1, hcall.2.1⟩
  split
  · next heven =>
    refine ⟨hle, hzero, ?_, first_posted (d := 0) h.recvs (by omega)⟩
    intro c
    exact (h.sends c).keep (started_advance fun _ _ => by omega)
  · next hodd =>
    refine ⟨hle, hzero, first_posted (d := 1) h.sends (by omega), ?_⟩
    intro c
    exact (h.recvs c).keep (started_advance fun _ _ => by omega)

/-- A send completes. -/
theorem sent (h : Inv b s) {o : Op} (hmem : o ∈ s.openSends) :
    Inv b (b.sendCallback { s with openSends := s.openSends.erase o } o) := by
  rw [sendCallback_eq]
  refine ⟨h.calls_le, h.calls_zero, ?_, h.recvs⟩
  intro c
  by_cases hc : o.chain = c
  · exact (h.sends c).callback_self hmem hc
  · exact (h.sends c).callback_other hc

/-- A receive completes. -/
theorem received (h : Inv b s) {o : Op} (hmem : o ∈ s.openRecvs) :
    Inv b (b.recvCallback { s with openRecvs := s.openRecvs.erase o } o) := by
  rw [recvCallback_eq]
  refine ⟨h.calls_le, h.calls_zero, h.sends, ?_⟩
  intro c
  by_cases hc : o.chain = c
  · exact (h.recvs c).callback_self hmem hc
  · exact (h.recvs c).callback_other hc

/-- Every step keeps the chains in their phases. -/
theorem step (h : Inv b s) {a : Action} (hstep : b.next eager s a = some s') : Inv b s' := by
  cases moves_of_next hstep with
  | call hcall => exact h.call hcall
  | pair hm hr => exact ⟨h.calls_le, h.calls_zero, h.sends, h.recvs⟩
  | sent hopen hdone => exact h.sent hopen
  | received hopen hdone => exact h.received hopen

end Inv

namespace Logged

/-- One more send. -/
theorem send (h : Logged s) (o : Op) : Logged (s.send o) where
  count := by
    change (s.sendLog ++ [o]).length = s.matched.length + (s.pending ++ [o]).length
    rw [List.length_append, List.length_append, h.count, Nat.add_assoc]
  openSends_le := by
    change (s.openSends ++ [o]).length ≤ (s.sendLog ++ [o]).length
    rw [List.length_append, List.length_append]
    exact Nat.add_le_add_right h.openSends_le _
  openRecvs_le := h.openRecvs_le
  pending_sub := List.append_subset.mpr ⟨List.Subset.trans h.pending_sub
    (List.subset_append_left _ _), List.subset_append_right _ _⟩
  posted_sub := h.posted_sub
  matched_sub p hp := List.mem_append_left _ (h.matched_sub p hp)

/-- One more receive. -/
theorem recv (h : Logged s) (o : Op) : Logged (s.recv o) where
  count := h.count
  openSends_le := h.openSends_le
  openRecvs_le := by
    change (s.openRecvs ++ [o]).length ≤ (s.recvLog ++ [o]).length
    rw [List.length_append, List.length_append]
    exact Nat.add_le_add_right h.openRecvs_le _
  pending_sub := h.pending_sub
  posted_sub := List.append_subset.mpr ⟨List.Subset.trans h.posted_sub
    (List.subset_append_left _ _), List.subset_append_right _ _⟩
  matched_sub := h.matched_sub

/-- A message is matched with a receive. -/
theorem pair (h : Logged s) {p q : Op → Bool} {m r : Op} {pending posted : List Op}
    (hm : takeFirst p s.pending = some (m, pending)) (hr : takeFirst q s.posted = some (r, posted)) :
    Logged { s with pending := pending, posted := posted, matched := s.matched ++ [(r, m)] } := by
  obtain ⟨hmmem, _, hpending⟩ := takeFirst_mem hm
  refine ⟨?_, h.openSends_le, h.openRecvs_le, ?_, ?_, ?_⟩
  · have hlength := takeFirst_length hm
    have hcount := h.count
    dsimp only
    rw [List.length_append, List.length_singleton]
    omega
  · exact fun x hx => h.pending_sub (hpending x hx)
  · exact fun x hx => h.posted_sub ((takeFirst_mem hr).2.2 x hx)
  · intro x hx
    cases List.mem_append.mp hx with
    | inl hx => exact h.matched_sub x hx
    | inr hx =>
      rw [List.mem_singleton.mp hx]
      exact h.pending_sub hmmem

/-- Every step keeps the logs. -/
theorem step (h : Logged s) {a : Action} (hstep : b.next eager s a = some s') : Logged s' := by
  cases moves_of_next hstep with
  | @call r t hcall =>
    have hadvance : Logged (s.advance r t) :=
      ⟨h.count, h.openSends_le, h.openRecvs_le, h.pending_sub, h.posted_sub, h.matched_sub⟩
    split
    · exact hadvance.recv _
    · exact hadvance.send _
  | pair hm hr => exact h.pair hm hr
  | @sent o hopen hdone =>
    have herase : Logged { s with openSends := s.openSends.erase o } :=
      ⟨h.count, List.length_erase_le.trans h.openSends_le, h.openRecvs_le, h.pending_sub,
        h.posted_sub, h.matched_sub⟩
    unfold Benchmark.sendCallback
    split
    · exact herase.send _
    · exact herase
  | @received o hopen hdone =>
    have herase : Logged { s with openRecvs := s.openRecvs.erase o } :=
      ⟨h.count, h.openSends_le, List.length_erase_le.trans h.openRecvs_le, h.pending_sub,
        h.posted_sub, h.matched_sub⟩
    unfold Benchmark.recvCallback
    split
    · exact herase.recv _
    · exact herase

end Logged

/-- The slots of the threads of a rank have different tags. -/
def Benchmark.Distinct (b : Benchmark) : Prop :=
  ∀ c c', b.InRange c → b.InRange c' → c.rank = c'.rank → c.tag = c'.tag → c = c'

namespace Ordered

/-- One more send. -/
theorem send (h : Ordered b s) (o : Op) : Ordered b (s.send o) := by
  intro c hc
  have hpaired := h c hc
  change Paired (Benchmark.onChain c (s.sendLog ++ [o])) _ (Benchmark.onChain c (s.pending ++ [o])) _ _
  by_cases ho : o.chain = c
  · rw [onChain_append_self ho, onChain_append_self ho]
    exact hpaired.send o
  · rw [onChain_append_other ho, onChain_append_other ho]
    exact hpaired

/-- One more receive. -/
theorem recv (h : Ordered b s) (o : Op) : Ordered b (s.recv o) := by
  intro c hc
  have hpaired := h c hc
  change Paired _ (Benchmark.onChain _ (s.recvLog ++ [o])) _ (Benchmark.onChain _ (s.posted ++ [o])) _
  by_cases ho : o.chain = b.peer c
  · rw [onChain_append_self ho, onChain_append_self ho]
    exact hpaired.receive o
  · rw [onChain_append_other ho, onChain_append_other ho]
    exact hpaired

/-- With different tags only the chains of a slot and of the same slot of the peer are matched. -/
theorem pair (h : Ordered b s) (hinv : Inv b s) (hlogged : Logged s) (hdistinct : b.Distinct)
    {rank p q tag : ℕ} {m r : Op} {pending posted : List Op}
    (hm : takeFirst (fun o => o.chain.rank = rank ∧ o.chain.thread = p ∧ o.chain.tag = tag)
      s.pending = some (m, pending))
    (hr : takeFirst (fun o => o.chain.rank = peerRank b.size rank ∧ o.chain.thread = q ∧
      o.chain.tag = tag) s.posted = some (r, posted)) :
    Ordered b { s with pending := pending, posted := posted, matched := s.matched ++ [(r, m)] } := by
  obtain ⟨hmmem, hmlabels, _⟩ := takeFirst_mem hm
  obtain ⟨hrmem, hrlabels, _⟩ := takeFirst_mem hr
  obtain ⟨hmrank, hmthread, hmtag⟩ := of_decide_eq_true hmlabels
  obtain ⟨hrrank, hrthread, hrtag⟩ := of_decide_eq_true hrlabels
  have hmrange := hinv.send_inRange (hlogged.pending_sub hmmem)
  have hrrange := hinv.recv_inRange (hlogged.posted_sub hrmem)
  have hpeer : r.chain = b.peer m.chain := by
    apply hdistinct _ _ hrrange (peer_inRange hmrange)
    · rw [hrrank, ← hmrank]
      rfl
    · rw [hrtag, ← hmtag]
      rfl
  intro c hc
  have hpaired := h c hc
  change Paired _ _ (Benchmark.onChain c pending) (Benchmark.onChain _ posted)
    ((s.matched ++ [(r, m)]).filter fun p => p.2.chain = c)
  rw [List.filter_append]
  by_cases hmc : m.chain = c
  · subst hmc
    have hpending : Benchmark.onChain m.chain s.pending = m :: Benchmark.onChain m.chain pending := by
      apply takeFirst_filter_self hm _ (decide_eq_true rfl)
      intro x _ hx
      rw [decide_eq_true_eq] at hx ⊢
      rw [hx]
      exact ⟨hmrank, hmthread, hmtag⟩
    have hposted : Benchmark.onChain (b.peer m.chain) s.posted =
        r :: Benchmark.onChain (b.peer m.chain) posted := by
      apply takeFirst_filter_self hr _ (decide_eq_true hpeer)
      intro x _ hx
      rw [decide_eq_true_eq] at hx ⊢
      rw [hx, ← hpeer]
      exact ⟨hrrank, hrthread, hrtag⟩
    have hself : [(r, m)].filter (fun p => p.2.chain = m.chain) = [(r, m)] := by simp
    rw [hpending, hposted] at hpaired
    rw [hself]
    exact hpaired.pair
  · have hother : r.chain ≠ b.peer c := by
      intro hrc
      apply hmc
      rw [← peer_peer hmrange.1, ← hpeer, hrc, peer_peer hc]
    have hpending : Benchmark.onChain c s.pending = Benchmark.onChain c pending :=
      takeFirst_filter_other hm (decide_eq_false hmc)
    have hposted : Benchmark.onChain (b.peer c) s.posted = Benchmark.onChain (b.peer c) posted :=
      takeFirst_filter_other hr (decide_eq_false hother)
    have hnone : [(r, m)].filter (fun p => p.2.chain = c) = [] := by simp [hmc]
    rw [← hpending, ← hposted, hnone, List.append_nil]
    exact hpaired

/-- Every step keeps the order. -/
theorem step (h : Ordered b s) (hinv : Inv b s) (hlogged : Logged s) (hdistinct : b.Distinct)
    {a : Action} (hstep : b.next eager s a = some s') : Ordered b s' := by
  cases moves_of_next hstep with
  | @call r t hcall =>
    have hadvance : Ordered b (s.advance r t) := h
    split
    · exact hadvance.recv _
    · exact hadvance.send _
  | pair hm hr => exact h.pair hinv hlogged hdistinct hm hr
  | @sent o hopen hdone =>
    have herase : Ordered b { s with openSends := s.openSends.erase o } := h
    unfold Benchmark.sendCallback
    split
    · exact herase.send _
    · exact herase
  | @received o hopen hdone =>
    have herase : Ordered b { s with openRecvs := s.openRecvs.erase o } := h
    unfold Benchmark.recvCallback
    split
    · exact herase.recv _
    · exact herase

end Ordered

/-- The chains are in their phases in every state of every run. -/
theorem Reached.inv (h : b.Reached eager s) : Inv b s := by
  refine Reachable.invariant ?_ (fun t t' hinv ⟨a, hstep⟩ => hinv.step hstep) h
  intro s₀ hs₀
  subst hs₀
  exact ⟨fun _ _ => Nat.zero_le _, fun _ _ _ => rfl,
    fun _ => ⟨0, rfl, Or.inl ⟨Nat.not_lt_zero _, rfl, rfl⟩⟩,
    fun _ => ⟨0, rfl, Or.inl ⟨Nat.not_lt_zero _, rfl, rfl⟩⟩⟩

/-- The logs are complete in every state of every run. -/
theorem Reached.logged (h : b.Reached eager s) : Logged s := by
  refine Reachable.invariant ?_ (fun t t' hlogged ⟨a, hstep⟩ => hlogged.step hstep) h
  intro s₀ hs₀
  subst hs₀
  exact ⟨rfl, le_rfl, le_rfl, List.Subset.refl _, List.Subset.refl _, fun p hp => by cases hp⟩

/-- With different tags the chains are in order in every state of every run. -/
theorem Reached.ordered (hdistinct : b.Distinct) (h : b.Reached eager s) : Ordered b s := by
  obtain ⟨s₀, rfl, hrun⟩ := h
  induction hrun with
  | refl => exact fun c _ => Paired.nil
  | tail hprefix hlast ih =>
    obtain ⟨a, hstep⟩ := hlast
    have hreached : b.Reached eager _ := ⟨_, rfl, hprefix⟩
    exact ih.step (Reached.inv hreached) (Reached.logged hreached) hdistinct hstep

end Ghexbench.P2p
