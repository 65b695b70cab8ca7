import Ghexbench.P2p.Chains
import Mathlib.Data.List.Infix
import Mathlib.Tactic.Linarith

/-!
# The order of the message chains

A chain has not started, or its last transfer is outstanding, or it has come to its end: its
callback is the only one that posts its buffer again. As long as the tags of the slots of a rank
are different, the chains of a slot and of the same slot of the peer are matched in order.
-/

namespace Ghexbench.P2p

open Ghexbench.Common

section Lists

variable {c : Chain} {o : Op} {l : List Op}

/-- One more transfer of the chain. -/
theorem onChain_append_self (h : o.chain = c) :
    Benchmark.onChain c (l ++ [o]) = Benchmark.onChain c l ++ [o] := by simp [Benchmark.onChain, h]

/-- One more transfer of the chain. -/
theorem onChain_append_mk (j : ℕ) :
    Benchmark.onChain c (l ++ [⟨c, j⟩]) = Benchmark.onChain c l ++ [⟨c, j⟩] := onChain_append_self rfl

/-- One more transfer of another chain. -/
theorem onChain_append_other (h : o.chain ≠ c) :
    Benchmark.onChain c (l ++ [o]) = Benchmark.onChain c l := by simp [Benchmark.onChain, h]

/-- A transfer of another chain is complete. -/
theorem onChain_erase_other (h : o.chain ≠ c) :
    Benchmark.onChain c (l.erase o) = Benchmark.onChain c l := by
  by_cases hmem : o ∈ l
  · obtain ⟨before, after, _, rfl, herase⟩ := List.exists_erase_eq hmem
    rw [herase]
    simp [Benchmark.onChain, h]
  · rw [List.erase_of_not_mem hmem]

/-- The only outstanding transfer of the chain is complete. -/
theorem onChain_erase_self {x : Op} (hmem : o ∈ l) (h : o.chain = c)
    (hx : Benchmark.onChain c l = [x]) : o = x ∧ Benchmark.onChain c (l.erase o) = [] := by
  obtain ⟨before, after, _, rfl, herase⟩ := List.exists_erase_eq hmem
  rw [herase]
  simp only [Benchmark.onChain, List.filter_append, h, decide_true, List.filter_cons_of_pos] at hx ⊢
  rcases List.append_eq_singleton_iff.mp hx with ⟨hbefore, hafter⟩ | ⟨_, hafter⟩
  · rw [List.cons.injEq] at hafter
    rw [hbefore, hafter.2]
    exact ⟨hafter.1, rfl⟩
  · cases hafter

end Lists

/-- A chain of `n` transfers: it has not started, or its last transfer is outstanding, or all its
transfers are complete. -/
def ChainOk (n : ℕ) (started : Prop) (c : Chain) (log opened : List Op) : Prop :=
  ∃ k, Benchmark.onChain c log = (List.range k).map (Op.mk c) ∧
    ((¬ started ∧ k = 0 ∧ Benchmark.onChain c opened = []) ∨
      (started ∧ 1 ≤ k ∧ k ≤ n ∧ Benchmark.onChain c opened = [⟨c, k - 1⟩]) ∨
      (started ∧ k = n ∧ Benchmark.onChain c opened = []))

/-- What a callback adds to a list of transfers. -/
def repost (n : ℕ) (o : Op) (l : List Op) : List Op :=
  if o.index + 1 < n then l ++ [{ o with index := o.index + 1 }] else l

namespace ChainOk

variable {n : ℕ} {started started' : Prop} {c : Chain} {log opened : List Op} {o : Op}

/-- The first transfer of a chain. -/
theorem start (h : ChainOk n started c log opened) (hn : 1 ≤ n) (hnot : ¬ started)
    (hstarted : started') : ChainOk n started' c (log ++ [⟨c, 0⟩]) (opened ++ [⟨c, 0⟩]) := by
  obtain ⟨k, hlog, ⟨_, rfl, hopened⟩ | ⟨hst, _⟩ | ⟨hst, _⟩⟩ := h
  · refine ⟨1, ?_, Or.inr (Or.inl ⟨hstarted, le_rfl, hn, ?_⟩)⟩
    · rw [onChain_append_mk, hlog]
      rfl
    · rw [onChain_append_mk, hopened]
      rfl
  · exact absurd hst hnot
  · exact absurd hst hnot

/-- The calls of a thread for other chains. -/
theorem post_other (h : ChainOk n started c log opened) (ho : o.chain ≠ c)
    (hst : started' ↔ started) : ChainOk n started' c (log ++ [o]) (opened ++ [o]) := by
  unfold ChainOk
  rw [hst, onChain_append_other ho, onChain_append_other ho]
  exact h

/-- The calls of a thread that do not start the chain. -/
theorem keep (h : ChainOk n started c log opened) (hst : started' ↔ started) :
    ChainOk n started' c log opened := by
  unfold ChainOk
  rw [hst]
  exact h

/-- A callback of the chain posts the next transfer or ends the chain. -/
theorem callback_self (h : ChainOk n started c log opened) (hmem : o ∈ opened) (ho : o.chain = c) :
    ChainOk n started c (repost n o log) (repost n o (opened.erase o)) := by
  obtain ⟨k, hlog, hcases⟩ := h
  have hin : o ∈ Benchmark.onChain c opened := List.mem_filter.mpr ⟨hmem, decide_eq_true ho⟩
  rcases hcases with ⟨_, _, hopened⟩ | ⟨hst, hk, hkn, hopened⟩ | ⟨_, _, hopened⟩
  · rw [hopened] at hin
    cases hin
  · obtain ⟨rfl, hnone⟩ := onChain_erase_self hmem ho hopened
    have hindex : k - 1 + 1 = k := by omega
    unfold repost
    simp only [hindex]
    by_cases hlt : k < n
    · rw [if_pos hlt, if_pos hlt]
      refine ⟨k + 1, ?_, Or.inr (Or.inl ⟨hst, by omega, hlt, ?_⟩)⟩
      · rw [onChain_append_mk, hlog, List.range_succ, List.map_append]
        rfl
      · rw [onChain_append_mk, hnone]
        rfl
    · rw [if_neg hlt, if_neg hlt]
      exact ⟨k, hlog, Or.inr (Or.inr ⟨hst, by omega, hnone⟩)⟩
  · rw [hopened] at hin
    cases hin

/-- A callback of another chain. -/
theorem callback_other (h : ChainOk n started c log opened) (ho : o.chain ≠ c) :
    ChainOk n started c (repost n o log) (repost n o (opened.erase o)) := by
  have hopened : ChainOk n started c log (opened.erase o) := by
    unfold ChainOk
    rw [onChain_erase_other ho]
    exact h
  unfold repost
  split
  · exact hopened.post_other ho Iff.rfl
  · exact hopened

/-- A chain with transfers has started. -/
theorem started_of_mem (h : ChainOk n started c log opened) {o : Op}
    (hmem : o ∈ log ∨ o ∈ opened) (ho : o.chain = c) : started := by
  obtain ⟨k, hlog, ⟨_, rfl, hopened⟩ | ⟨hst, _⟩ | ⟨hst, _⟩⟩ := h
  · exfalso
    cases hmem with
    | inl hmem =>
      have hin : o ∈ Benchmark.onChain c log := List.mem_filter.mpr ⟨hmem, decide_eq_true ho⟩
      rw [hlog] at hin
      cases hin
    | inr hmem =>
      have hin : o ∈ Benchmark.onChain c opened := List.mem_filter.mpr ⟨hmem, decide_eq_true ho⟩
      rw [hopened] at hin
      cases hin
  · exact hst
  · exact hst

/-- At most one transfer of a chain is outstanding. -/
theorem opened_le_one (h : ChainOk n started c log opened) :
    (Benchmark.onChain c opened).length ≤ 1 := by
  obtain ⟨k, _, ⟨_, _, hopened⟩ | ⟨_, _, _, hopened⟩ | ⟨_, _, hopened⟩⟩ := h <;> rw [hopened] <;>
    simp

/-- A chain has at most `n` transfers. -/
theorem log_le (h : ChainOk n started c log opened) : (Benchmark.onChain c log).length ≤ n := by
  obtain ⟨k, hlog, ⟨_, hk, _⟩ | ⟨_, _, hk, _⟩ | ⟨_, hk, _⟩⟩ := h <;>
    rw [hlog, List.length_map, List.length_range] <;> omega

end ChainOk

section Peers

variable {b : Benchmark} {c : Chain}

/-- The ranks of the first half have their peers in the second half. -/
theorem peerRank_eq {pairs r : ℕ} (hr : r < 2 * pairs) :
    peerRank (2 * pairs) r = if r < pairs then r + pairs else r - pairs := by
  have hhalf : 2 * pairs / 2 = pairs := by omega
  rw [peerRank, hhalf, Nat.add_mod_right]
  split
  · exact Nat.mod_eq_of_lt (by omega)
  · have hwrap : r + pairs = r - pairs + 2 * pairs := by omega
    rw [hwrap, Nat.add_mod_right, Nat.mod_eq_of_lt (by omega)]

/-- The peer is a rank. -/
theorem peerRank_lt {pairs r : ℕ} (hr : r < 2 * pairs) : peerRank (2 * pairs) r < 2 * pairs :=
  Nat.mod_lt _ (by omega)

/-- The peer of the peer. -/
theorem peerRank_peerRank {pairs r : ℕ} (hr : r < 2 * pairs) :
    peerRank (2 * pairs) (peerRank (2 * pairs) r) = r := by
  rw [peerRank_eq (peerRank_lt hr), peerRank_eq hr]
  split <;> split <;> omega

/-- The peer is another rank. -/
theorem peerRank_ne {pairs r : ℕ} (hr : r < 2 * pairs) : peerRank (2 * pairs) r ≠ r := by
  rw [peerRank_eq hr]
  split <;> omega

/-- The peer is a rank. -/
theorem peer_lt (hc : c.rank < b.size) : (b.peer c).rank < b.size := peerRank_lt hc

/-- The peer of the peer. -/
theorem peer_peer (hc : c.rank < b.size) : b.peer (b.peer c) = c := by
  have hrank : peerRank b.size (peerRank b.size c.rank) = c.rank := peerRank_peerRank hc
  unfold Benchmark.peer
  simp only [hrank]

/-- A chain that the benchmark uses. -/
def Benchmark.InRange (b : Benchmark) (c : Chain) : Prop :=
  c.rank < b.size ∧ c.thread < b.threads c.rank ∧ c.slot < b.window

/-- The peers use the same chains. -/
theorem peer_inRange (hc : b.InRange c) : b.InRange (b.peer c) := by
  refine ⟨peer_lt hc.1, ?_, hc.2.2⟩
  change c.thread < b.threads (peerRank (2 * b.pairs) c.rank)
  rw [b.threads_peer _ hc.1]
  exact hc.2.1

end Peers

end Ghexbench.P2p
