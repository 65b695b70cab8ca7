import Ghexbench.P2p.ChainsInvariant

/-!
# The end of the message chains

As long as the chains are matched in order, every receive gets the right message, and at the end
of a run every chain has been used for all its transfers.
-/

namespace Ghexbench.P2p

open Ghexbench.Common

variable {b : Benchmark} {s s' : State} {eager : Op → Bool}

section Matches

/-- Every receive gets the message of the same number of the same slot. -/
theorem Ordered.rightMatch (h : Ordered b s) (hinv : Inv b s) (hlogged : Logged s) {r m : Op}
    (hmem : (r, m) ∈ s.matched) : b.RightMatch r m := by
  have hrange := hinv.send_inRange (hlogged.matched_sub _ hmem)
  have hchain : (r, m) ∈ s.matched.filter fun p => p.2.chain = m.chain :=
    List.mem_filter.mpr ⟨hmem, decide_eq_true rfl⟩
  obtain ⟨i, hr, hm⟩ := (h m.chain hrange.1).mem hchain
  obtain ⟨k, hsend, _⟩ := hinv.sends m.chain
  obtain ⟨k', hrecv, _⟩ := hinv.recvs (b.peer m.chain)
  rw [hsend, List.getElem?_map, Option.map_eq_some_iff] at hm
  rw [hrecv, List.getElem?_map, Option.map_eq_some_iff] at hr
  obtain ⟨j, hj, hm⟩ := hm
  obtain ⟨j', hj', hr⟩ := hr
  obtain ⟨_, rfl⟩ := List.getElem?_eq_some_iff.mp hj
  obtain ⟨_, rfl⟩ := List.getElem?_eq_some_iff.mp hj'
  rw [Benchmark.RightMatch, ← hr]
  simp only [peer_peer hrange.1, List.getElem_range] at hm ⊢
  exact hm.symm

end Matches

section Completion

/-- A chain has been used for all its sends and receives. -/
structure Finished (b : Benchmark) (s : State) (c : Chain) : Prop where
  sendLog : Benchmark.onChain c s.sendLog = (List.range b.nrep).map (Op.mk c)
  recvLog : Benchmark.onChain (b.peer c) s.recvLog = (List.range b.nrep).map (Op.mk (b.peer c))
  openSends : Benchmark.onChain c s.openSends = []
  openRecvs : Benchmark.onChain (b.peer c) s.openRecvs = []
  pending : Benchmark.onChain c s.pending = []
  posted : Benchmark.onChain (b.peer c) s.posted = []

/-- At the end of a run every thread has made all its calls. -/
theorem calls_of_stuck (hinv : Inv b s) (hstuck : ∀ a, b.next eager s a = none) {r t : ℕ}
    (hr : r < b.size) (ht : t < b.threads r) : s.calls r t = 2 * b.window := by
  apply le_antisymm (hinv.calls_le r t)
  by_contra hlt
  have hnone := hstuck (.call r t)
  simp only [Benchmark.next] at hnone
  rw [if_pos ⟨hr, ht, not_le.mp hlt⟩] at hnone
  cases hnone

/-- At the end of a run a started chain is complete, or its last transfer is not matched. -/
theorem last_of_stuck {started : Prop} {c : Chain} {log opened : List Op} {n : ℕ}
    (h : ChainOk n started c log opened) (hst : started) :
    ∃ k, Benchmark.onChain c log = (List.range k).map (Op.mk c) ∧ k ≤ n ∧
      ((k = n ∧ Benchmark.onChain c opened = []) ∨ (1 ≤ k ∧ ⟨c, k - 1⟩ ∈ opened)) := by
  obtain ⟨k, hlog, ⟨hnot, _⟩ | ⟨_, hk, hkn, hopened⟩ | ⟨_, hk, hopened⟩⟩ := h
  · exact absurd hst hnot
  · refine ⟨k, hlog, hkn, Or.inr ⟨hk, ?_⟩⟩
    have hin : (⟨c, k - 1⟩ : Op) ∈ Benchmark.onChain c opened := by
      rw [hopened]
      exact List.mem_singleton_self _
    exact (List.mem_filter.mp hin).1
  · exact ⟨k, hlog, hk.le, Or.inl ⟨hk, hopened⟩⟩

/-- At the end of a run no message and receive of a slot are left to be matched. -/
theorem exhausted_of_stuck (hstuck : ∀ a, b.next eager s a = none) (c : Chain) :
    Benchmark.onChain c s.pending = [] ∨ Benchmark.onChain (b.peer c) s.posted = [] := by
  by_contra hboth
  push Not at hboth
  obtain ⟨m, hm⟩ := List.exists_mem_of_ne_nil _ hboth.1
  obtain ⟨r, hr⟩ := List.exists_mem_of_ne_nil _ hboth.2
  obtain ⟨hmmem, hmchain⟩ := List.mem_filter.mp hm
  obtain ⟨hrmem, hrchain⟩ := List.mem_filter.mp hr
  have hmchain := of_decide_eq_true hmchain
  have hrchain := of_decide_eq_true hrchain
  have hnone := hstuck (.pair c.rank c.thread c.thread c.tag)
  simp only [Benchmark.next] at hnone
  split at hnone
  · cases hnone
  · next hfirst =>
    cases hsend : takeFirst (fun o : Op => o.chain.rank = c.rank ∧ o.chain.thread = c.thread ∧
        o.chain.tag = c.tag) s.pending with
    | none =>
      have hnot := of_decide_eq_false (takeFirst_eq_none hsend m hmmem)
      rw [hmchain] at hnot
      exact hnot ⟨rfl, rfl, rfl⟩
    | some x =>
      cases hrecv : takeFirst (fun o : Op => o.chain.rank = peerRank b.size c.rank ∧
          o.chain.thread = c.thread ∧ o.chain.tag = c.tag) s.posted with
      | none =>
        have hnot := of_decide_eq_false (takeFirst_eq_none hrecv r hrmem)
        rw [hrchain] at hnot
        exact hnot ⟨rfl, rfl, rfl⟩
      | some y => exact hfirst x.1 x.2 y.1 y.2 hsend hrecv

/-- At the end of a run all chains are complete. -/
theorem Ordered.finished (h : Ordered b s) (hinv : Inv b s)
    (hstuck : ∀ a, b.next eager s a = none) {c : Chain} (hc : b.InRange c) : Finished b s c := by
  have hpeer := peer_inRange hc
  have hcalls := calls_of_stuck hinv hstuck hc.1 hc.2.1
  have hcalls' := calls_of_stuck hinv hstuck hpeer.1 hpeer.2.1
  have hslot := hc.2.2
  have hslot' := hpeer.2.2
  obtain ⟨k, hsend, hk, hlast⟩ := last_of_stuck (hinv.sends c) (by omega)
  obtain ⟨k', hrecv, hk', hlast'⟩ := last_of_stuck (hinv.recvs (b.peer c)) (by omega)
  have hpaired := h c hc.1
  have hexhausted := exhausted_of_stuck hstuck c
  -- the transfers that both sides have posted are matched
  have hmatched (i : ℕ) (hi : i < k) (hi' : i < k') : (⟨b.peer c, i⟩, ⟨c, i⟩) ∈ s.matched := by
    have hm : (Benchmark.onChain c s.sendLog)[i]? = some ⟨c, i⟩ := by
      rw [hsend, List.getElem?_map, List.getElem?_range hi]
      rfl
    have hr : (Benchmark.onChain (b.peer c) s.recvLog)[i]? = some ⟨b.peer c, i⟩ := by
      rw [hrecv, List.getElem?_map, List.getElem?_range hi']
      rfl
    exact (List.mem_filter.mp (hpaired.matched_of hexhausted hr hm)).1
  have hsendWaits (hopen : ⟨c, k - 1⟩ ∈ s.openSends) (hpos : 1 ≤ k) : k' ≤ k - 1 := by
    by_contra hlt
    have hmem := hmatched (k - 1) (by omega) (by omega)
    have hnone := hstuck (.sent ⟨c, k - 1⟩)
    simp only [Benchmark.next] at hnone
    rw [if_pos ⟨hopen, Or.inr (List.any_eq_true.mpr ⟨_, hmem, decide_eq_true rfl⟩)⟩] at hnone
    cases hnone
  have hrecvWaits (hopen : ⟨b.peer c, k' - 1⟩ ∈ s.openRecvs) (hpos : 1 ≤ k') : k ≤ k' - 1 := by
    by_contra hlt
    have hmem := hmatched (k' - 1) (by omega) (by omega)
    have hnone := hstuck (.received ⟨b.peer c, k' - 1⟩)
    simp only [Benchmark.next] at hnone
    rw [if_pos ⟨hopen, List.any_eq_true.mpr ⟨_, hmem, decide_eq_true rfl⟩⟩] at hnone
    cases hnone
  obtain ⟨⟨hkn, hopenSends⟩, ⟨hkn', hopenRecvs⟩⟩ : (k = b.nrep ∧
      Benchmark.onChain c s.openSends = []) ∧ (k' = b.nrep ∧
      Benchmark.onChain (b.peer c) s.openRecvs = []) := by
    rcases hlast with hdone | ⟨hpos, hopen⟩ <;> rcases hlast' with hdone' | ⟨hpos', hopen'⟩
    · exact ⟨hdone, hdone'⟩
    · have := hrecvWaits hopen' hpos'
      omega
    · have := hsendWaits hopen hpos
      omega
    · have := hsendWaits hopen hpos
      have := hrecvWaits hopen' hpos'
      omega
  subst hkn hkn'
  have hlength : (Benchmark.onChain c s.sendLog).length =
      (Benchmark.onChain (b.peer c) s.recvLog).length := by
    rw [hsend, hrecv, List.length_map, List.length_map, List.length_range]
  obtain ⟨hpending, hposted⟩ := hpaired.nil_of_length_eq hlength hexhausted
  exact ⟨hsend, hrecv, hopenSends, hopenRecvs, hpending, hposted⟩

end Completion

end Ghexbench.P2p
