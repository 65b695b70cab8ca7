import Ghexbench.Common.Counting
import Ghexbench.P2p.ChainsComplete
import Mathlib.Algebra.BigOperators.Ring.Finset
import Mathlib.Algebra.Order.BigOperators.Group.Finset
import Mathlib.Data.Finset.Prod
import Mathlib.Data.Finset.Sigma

/-!
# When the message chains are exact

Every step of a run makes progress, so that all runs come to an end, and if the tags of the slots
of a rank are different then all chains are complete there. The tags are different if no rank has
more than 1000 threads or the window has a single slot. Otherwise the tag of slot 1 of thread 0 is
that of slot 0 of thread 1000, and a message may get into a wrong slot.
-/

namespace Ghexbench.P2p

open Ghexbench.Common

variable {b : Benchmark} {s s' : State} {eager : Op → Bool}

section Counts

/-- Chains are given by their members. -/
theorem chain_injective :
    Function.Injective fun k : Σ _ : ℕ, ℕ × ℕ => (⟨k.1, k.2.1, k.2.2⟩ : Chain) := by
  rintro ⟨r, t, i⟩ ⟨r', t', i'⟩ heq
  cases heq
  rfl

/-- The chains that the benchmark uses. -/
def Benchmark.chains (b : Benchmark) : Finset Chain :=
  ((Finset.range b.size).sigma fun r => Finset.range (b.threads r) ×ˢ Finset.range b.window).map
    ⟨_, chain_injective⟩

/-- The number of threads of all ranks. -/
def Benchmark.numAllThreads (b : Benchmark) : ℕ := ((List.range b.size).map b.threads).sum

/-- The number of messages of all chains. -/
def Benchmark.total (b : Benchmark) : ℕ := b.numAllThreads * b.window * b.nrep

/-- The chains of the benchmark are those in range. -/
theorem mem_chains {c : Chain} : c ∈ b.chains ↔ b.InRange c := by
  unfold Benchmark.chains Benchmark.InRange
  simp only [Finset.mem_map, Finset.mem_sigma, Finset.mem_product, Finset.mem_range,
    Function.Embedding.coeFn_mk]
  constructor
  · rintro ⟨k, hk, rfl⟩
    exact hk
  · intro hc
    exact ⟨⟨c.rank, c.thread, c.slot⟩, hc, rfl⟩

/-- Each thread has one chain for each slot. -/
theorem card_chains (b : Benchmark) : b.chains.card = b.numAllThreads * b.window := by
  have hsum : ∑ r ∈ Finset.range b.size, b.threads r = b.numAllThreads := rfl
  rw [Benchmark.chains, Finset.card_map, Finset.card_sigma]
  simp only [Finset.card_product, Finset.card_range]
  rw [← Finset.sum_mul, hsum]

/-- The transfers of all chains. -/
theorem sum_onChain {l : List Op} (h : ∀ o ∈ l, b.InRange o.chain) :
    ∑ c ∈ b.chains, (Benchmark.onChain c l).length = l.length :=
  sum_length_filter Op.chain b.chains l fun o ho => mem_chains.mpr (h o ho)

/-- If no chain has more than `nrep` transfers then there are at most `total` of them. -/
theorem length_le_total {l : List Op} (h : ∀ o ∈ l, b.InRange o.chain)
    (hle : ∀ c, (Benchmark.onChain c l).length ≤ b.nrep) : l.length ≤ b.total := by
  rw [← sum_onChain h, Benchmark.total, ← card_chains]
  exact Finset.sum_le_card_nsmul _ _ _ fun c _ => hle c

/-- If every chain has `nrep` transfers then there are `total` of them. -/
theorem length_eq_total {l : List Op} (h : ∀ o ∈ l, b.InRange o.chain)
    (heq : ∀ c, b.InRange c → Benchmark.onChain c l = (List.range b.nrep).map (Op.mk c)) :
    l.length = b.total := by
  rw [← sum_onChain h, Benchmark.total, ← card_chains]
  apply Finset.sum_const_nat
  intro c hc
  rw [heq c (mem_chains.mp hc), List.length_map, List.length_range]

/-- A list without transfers of any chain is empty. -/
theorem eq_nil_of_onChain {l : List Op} (h : ∀ o ∈ l, b.InRange o.chain)
    (hnil : ∀ c, b.InRange c → Benchmark.onChain c l = []) : l = [] := by
  apply List.eq_nil_of_length_eq_zero
  rw [← sum_onChain h]
  apply Finset.sum_eq_zero
  intro c hc
  rw [hnil c (mem_chains.mp hc), List.length_nil]

/-- Adding with wrap-around. -/
theorem foldl_add_mod (m : ℕ) (l : List ℕ) (start : ℕ) :
    l.foldl (fun sum t => (sum + t) % m) start % m = (start + l.sum) % m := by
  induction l generalizing start with
  | nil => simp
  | cons t l ih => rw [List.foldl_cons, ih, List.sum_cons, Nat.mod_add_mod, Nat.add_assoc]

/-- The printed number is that of the messages, with wrap-around. -/
theorem numMsgs_eq (b : Benchmark) : b.numMsgs = b.total % 2 ^ 64 := by
  unfold Benchmark.numMsgs Benchmark.total Benchmark.numAllThreads
  rw [Nat.mod_mul_mod, Nat.mul_assoc, ← Nat.mod_mul_mod, foldl_add_mod, Nat.zero_add,
    Nat.mod_mul_mod, Nat.mul_assoc]

end Counts

section Progress

/-- The progress of a run. -/
def State.work (s : State) : ℕ :=
  s.matched.length + (2 * s.sendLog.length - s.openSends.length) +
    (2 * s.recvLog.length - s.openRecvs.length)

/-- A callback and its request. -/
theorem repost_progress {n : ℕ} {o : Op} {log opened : List Op} (hmem : o ∈ opened)
    (hle : opened.length ≤ log.length) :
    2 * log.length - opened.length <
      2 * (repost n o log).length - (repost n o (opened.erase o)).length := by
  have hlength := List.length_erase_of_mem hmem
  have hpos := List.length_pos_of_mem hmem
  unfold repost
  split
  · rw [List.length_append, List.length_append, List.length_singleton]
    omega
  · omega

/-- Every step makes progress. -/
theorem Logged.work_lt (h : Logged s) {a : Action} (hstep : b.next eager s a = some s') :
    s.work < s'.work := by
  have hsends := h.openSends_le
  have hrecvs := h.openRecvs_le
  cases moves_of_next hstep with
  | call hcall =>
    split
    · simp only [State.work, State.recv, State.advance, List.length_append, List.length_singleton]
      omega
    · simp only [State.work, State.send, State.advance, List.length_append, List.length_singleton]
      omega
  | pair hm hr =>
    simp only [State.work, List.length_append, List.length_singleton]
    omega
  | sent hopen hdone =>
    have hprogress := repost_progress (n := b.nrep) hopen hsends
    rw [sendCallback_eq]
    simp only [State.work]
    omega
  | received hopen hdone =>
    have hprogress := repost_progress (n := b.nrep) hopen hrecvs
    rw [recvCallback_eq]
    simp only [State.work]
    omega

/-- The progress is bounded. -/
theorem Inv.work_le (h : Inv b s) (hlogged : Logged s) : s.work ≤ 5 * b.total := by
  have hsends := length_le_total (fun _ => h.send_inRange) fun c => (h.sends c).log_le
  have hrecvs := length_le_total (fun _ => h.recv_inRange) fun c => (h.recvs c).log_le
  have hcount := hlogged.count
  unfold State.work
  omega

/-- No schedule goes on for ever. -/
theorem length_le_of_run {actions : List Action}
    (hrun : runActions (b.next eager) init actions = some s) : actions.length ≤ 5 * b.total := by
  have hbound := length_le_of_measure State.work
    (fun _ _ _ ht hstep => (Reached.logged (b := b) ht).work_lt hstep)
    (fun _ ht => (Reached.inv ht).work_le (Reached.logged ht)) (Reachable.initial rfl) hrun
  omega

/-- Some run comes to its end. -/
theorem exists_end (b : Benchmark) (eager : Op → Bool) :
    ∃ s, b.Reached eager s ∧ ∀ a, b.next eager s a = none :=
  exists_stuck State.work (fun _ _ _ ht hstep => (Reached.logged (b := b) ht).work_lt hstep)
    (fun _ ht => (Reached.inv ht).work_le (Reached.logged ht)) (Reachable.initial rfl)

end Progress

section Collision

/-- The tags of the slots of a rank are different if it has at most 1000 threads or if there is a
single slot. -/
theorem Benchmark.distinct (h : (∀ r < b.size, b.threads r ≤ 1000) ∨ b.window ≤ 1) : b.Distinct := by
  rintro ⟨r, t, i⟩ ⟨r', t', i'⟩ ⟨hr, ht, hi⟩ ⟨hr', ht', hi'⟩ hrank htag
  simp only [Chain.tag] at hr ht hi hr' ht' hi' hrank htag
  subst hrank
  obtain ⟨rfl, rfl⟩ : t = t' ∧ i = i' := by
    cases h with
    | inl hthreads =>
      have := hthreads r hr
      omega
    | inr hwindow => omega
  rfl

/-- Thread 0 of a rank waits for slot 1 and thread 1000 of the peer sends for slot 0. -/
def collision (b : Benchmark) (r : ℕ) : List Action :=
  [.call (peerRank b.size r) 1000, .call (peerRank b.size r) 1000, .call r 0, .call r 0, .call r 0,
    .pair (peerRank b.size r) 1000 0 1000]

/-- A thread starts the receive of a slot. -/
theorem next_call_recv {r t i : ℕ} (hr : r < b.size) (ht : t < b.threads r) (hi : i < b.window)
    (hcalls : s.calls r t = 2 * i) :
    b.next eager s (.call r t) = some ((s.advance r t).recv ⟨⟨r, t, i⟩, 0⟩) := by
  have hlt : 2 * i < 2 * b.window := by omega
  simp [Benchmark.next, hr, ht, hcalls, hlt]

/-- A thread starts the send of a slot. -/
theorem next_call_send {r t i : ℕ} (hr : r < b.size) (ht : t < b.threads r) (hi : i < b.window)
    (hcalls : s.calls r t = 2 * i + 1) :
    b.next eager s (.call r t) = some ((s.advance r t).send ⟨⟨r, t, i⟩, 0⟩) := by
  have hlt : 2 * i + 1 < 2 * b.window := by omega
  have hslot : (2 * i + 1) / 2 = i := by omega
  simp [Benchmark.next, hr, ht, hcalls, hlt, hslot]

/-- The receive for slot 1 of thread 0 gets the message of slot 0 of thread 1000. -/
theorem collision_matched {r : ℕ} (hr : r < b.size) (hthreads : 1000 < b.threads r)
    (hwindow : 2 ≤ b.window) : ∃ s, runActions (b.next eager) init (collision b r) = some s ∧
      (⟨⟨r, 0, 1⟩, 0⟩, ⟨⟨peerRank b.size r, 1000, 0⟩, 0⟩) ∈ s.matched := by
  have hpeer : peerRank b.size r < b.size := peerRank_lt hr
  have hback : peerRank b.size (peerRank b.size r) = r := peerRank_peerRank hr
  have hthreads' : 1000 < b.threads (peerRank b.size r) := (b.threads_peer r hr).symm ▸ hthreads
  have hfirst : 0 < b.threads r := by omega
  have hslot : 0 < b.window := by omega
  unfold collision
  rw [runActions, next_call_recv hpeer hthreads' hslot rfl, Option.bind_some,
    runActions, next_call_send hpeer hthreads' hslot (by simp [advance_calls, State.recv, init]),
    Option.bind_some, runActions,
    next_call_recv hr hfirst hslot (by simp [advance_calls, State.recv, State.send, init]),
    Option.bind_some, runActions,
    next_call_send hr hfirst hslot (by simp [advance_calls, State.recv, State.send, init]),
    Option.bind_some, runActions,
    next_call_recv hr hfirst hwindow (by simp [advance_calls, State.recv, State.send, init]),
    Option.bind_some]
  simp [runActions, Benchmark.next, State.recv, State.send, State.advance, init, takeFirst,
    Chain.tag, hback]

/-- With such threads the message chains are not exact. -/
theorem not_exact_of_collision {r : ℕ} (hr : r < b.size) (hthreads : 1000 < b.threads r)
    (hwindow : 2 ≤ b.window) : ¬ b.Exact eager := by
  intro hexact
  obtain ⟨s, hrun, hmatched⟩ := @collision_matched b eager r hr hthreads hwindow
  have hright := (hexact.1 s (reachable_of_runActions _ (Reachable.initial rfl) hrun)).2 _ _ hmatched
  cases hright

end Collision

section Exactness

/-- The receives of a chain are complete if its peer has finished. -/
theorem Finished.receives {c : Chain} (h : Finished b s (b.peer c)) (hc : c.rank < b.size) :
    Benchmark.onChain c s.recvLog = (List.range b.nrep).map (Op.mk c) ∧
      Benchmark.onChain c s.openRecvs = [] ∧ Benchmark.onChain c s.posted = [] := by
  have hlog := h.recvLog
  have hopen := h.openRecvs
  have hposted := h.posted
  rw [peer_peer hc] at hlog hopen hposted
  exact ⟨hlog, hopen, hposted⟩

/-- The number of messages is printed without wrap-around if the message chains are exact. -/
theorem total_lt_of_exact (hexact : b.Exact eager) : b.total < 2 ^ 64 := by
  obtain ⟨s, hs, hstuck⟩ := exists_end b eager
  obtain ⟨hchains, _, _, _, _, hcount⟩ := hexact.2.2 s hs hstuck
  have htotal := length_eq_total (fun _ => (Reached.inv hs).send_inRange)
    fun c hc => (hchains c hc.1 hc.2.1 hc.2.2).1
  rw [htotal, numMsgs_eq] at hcount
  rw [← hcount]
  exact Nat.mod_lt _ (Nat.two_pow_pos 64)

/-- With different tags the message chains are exact as far as the number of messages can be represented. -/
theorem exact_of_distinct (hdistinct : b.Distinct) (hbound : b.total < 2 ^ 64) : b.Exact eager := by
  refine ⟨?_, ⟨_, fun _ _ => length_le_of_run⟩, ?_⟩
  · intro s hs
    have hinv := Reached.inv hs
    exact ⟨fun c => ⟨(hinv.sends c).opened_le_one, (hinv.recvs c).opened_le_one⟩,
      fun r m => (Reached.ordered hdistinct hs).rightMatch hinv (Reached.logged hs)⟩
  · intro s hs hstuck
    have hinv := Reached.inv hs
    have hlogged := Reached.logged hs
    have hfinished {c : Chain} (hc : b.InRange c) : Finished b s c :=
      (Reached.ordered hdistinct hs).finished hinv hstuck hc
    have hreceives {c : Chain} (hc : b.InRange c) := (hfinished (peer_inRange hc)).receives hc.1
    refine ⟨?_, ?_, ?_, ?_, ?_, ?_⟩
    · intro c hr ht hi
      have hc : b.InRange c := ⟨hr, ht, hi⟩
      exact ⟨(hfinished hc).sendLog, (hreceives hc).1⟩
    · exact eq_nil_of_onChain (fun o ho => hinv.send_inRange (hlogged.pending_sub ho))
        fun c hc => (hfinished hc).pending
    · exact eq_nil_of_onChain (fun o ho => hinv.recv_inRange (hlogged.posted_sub ho))
        fun c hc => (hreceives hc).2.2
    · exact eq_nil_of_onChain (fun _ => hinv.openSend_inRange) fun c hc => (hfinished hc).openSends
    · exact eq_nil_of_onChain (fun _ => hinv.openRecv_inRange) fun c hc => (hreceives hc).2.1
    · rw [numMsgs_eq, Nat.mod_eq_of_lt hbound]
      exact (length_eq_total (fun _ => hinv.send_inRange) fun c hc => (hfinished hc).sendLog).symm

end Exactness

/-- The message chains are exact if and only if no rank has more than 1000 threads or the window has
a single slot, and the number of messages can be represented. -/
theorem chains_exact_iff (b : Benchmark) (eager : Op → Bool) :
    b.Exact eager ↔ ((∀ r < b.size, b.threads r ≤ 1000) ∨ b.window ≤ 1) ∧ b.total < 2 ^ 64 := by
  constructor
  · intro hexact
    refine ⟨?_, total_lt_of_exact hexact⟩
    by_contra hnot
    push Not at hnot
    obtain ⟨⟨r, hr, hthreads⟩, hwindow⟩ := hnot
    exact not_exact_of_collision hr hthreads hwindow hexact
  · rintro ⟨htags, hbound⟩
    exact exact_of_distinct (Benchmark.distinct htags) hbound

/-- Two ranks with 1001 threads each and two slots. -/
def crowded : Benchmark where
  pairs := 1
  threads _ := 1001
  window := 2
  nrep := 1
  nrep_pos := le_rfl
  threads_peer _ _ := rfl

/-- Between these ranks a message may get into a wrong slot. -/
theorem crowded_not_exact : ¬ crowded.Exact fun _ => false :=
  not_exact_of_collision (r := 0) (by decide) (by decide) (by decide)

end Ghexbench.P2p
