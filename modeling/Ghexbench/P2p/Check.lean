import Ghexbench.P2p.Delivery

/-!
# The check of the message contents

The constructor of `thread_state` fills the messages that are sent with 1 and those that are received with
-1. A receive overwrites the whole buffer of its slot. When `wait_all` has returned on a thread, `check`
finds 1 everywhere, whatever the other threads have done by then and also if tags collide.
-/

namespace Ghexbench.P2p

open Ghexbench.Common

/-- The sizes of the buffers, and their slots on each thread. -/
structure Buffers where
  bytes : ℕ
  window : ℕ

namespace Buffers

variable (bs : Buffers)

/-- `smsgs[i]` of a slot, which nothing changes after the constructor. -/
def smsg (_ : Chain) : List ℤ := List.replicate bs.bytes 1

/-- `rmsgs[i]` of a slot: as it has been constructed, or the message that has been received last. -/
def rmsg (s : State) (c : Chain) : List ℤ :=
  match (s.matched.filter fun p => p.1.chain = c).getLast? with
  | none => List.replicate bs.bytes (-1)
  | some p => bs.smsg p.2.chain

/-- What `check` finds on a thread; otherwise it calls `abort`. -/
def check (s : State) (rank thread : ℕ) : Bool :=
  (List.range bs.window).all fun i => (bs.rmsg s ⟨rank, thread, i⟩).all fun c => c = 1

end Buffers

variable {b : Benchmark} {s s' : State} {eager : Op → Bool}

/-- `wait_all` returns on a thread that has made all its calls: none of its requests is open. -/
structure Waited (b : Benchmark) (s : State) (rank thread : ℕ) : Prop where
  calls : s.calls rank thread = 2 * b.window
  openSends : ∀ o ∈ s.openSends, ¬ (o.chain.rank = rank ∧ o.chain.thread = thread)
  openRecvs : ∀ o ∈ s.openRecvs, ¬ (o.chain.rank = rank ∧ o.chain.thread = thread)

/-- No receive is posted twice. -/
theorem Inv.nodup_recvLog (h : Inv b s) : s.recvLog.Nodup := by
  rw [List.nodup_iff_count_le_one]
  intro o
  have hcount : s.recvLog.count o = (Benchmark.onChain o.chain s.recvLog).count o :=
    (List.count_filter (p := fun x : Op => x.chain = o.chain) (decide_eq_true rfl)).symm
  obtain ⟨k, hlog, -⟩ := h.recvs o.chain
  rw [hcount, hlog]
  refine List.nodup_iff_count_le_one.mp (List.nodup_range.map fun i j hij => ?_) o
  exact congrArg Op.index hij

/-- A receive that waits is not matched. -/
theorem Inv.not_matched_of_posted (h : Inv b s) (hbalanced : Balanced b s) {o : Op} (ho : o ∈ s.posted) :
    ∀ p ∈ s.matched, p.1 ≠ o := by
  intro p hp heq
  have hnodup := hbalanced.recvs.nodup_iff.mp h.nodup_recvLog
  exact (List.nodup_append.mp hnodup).2.2 o (List.mem_map.mpr ⟨p, hp, heq⟩) o ho rfl

/-- In every run a receive that waits is open. -/
theorem Reached.posted_open (h : b.Reached eager s) : s.posted ⊆ s.openRecvs := by
  have hinv : b.Reached eager s ∧ s.posted ⊆ s.openRecvs := by
    apply Reachable.invariant _ _ h
    · intro s₀ hs₀
      exact ⟨Reachable.initial hs₀, by rw [hs₀]; exact List.Subset.refl _⟩
    · rintro s t ⟨hs, hsub⟩ ⟨a, hstep⟩
      refine ⟨hs.tail ⟨a, hstep⟩, ?_⟩
      cases moves_of_next hstep with
      | @call r t hcall =>
        split
        · exact List.append_subset.mpr ⟨List.subset_append_of_subset_left _ hsub, List.subset_append_right _ _⟩
        · exact hsub
      | @pair rank p q tag m r pending posted hm hr =>
        exact fun o ho => hsub ((takeFirst_mem hr).2.2 o ho)
      | @sent o hopen hdone =>
        unfold Benchmark.sendCallback
        split <;> exact hsub
      | @received o hopen hdone =>
        obtain ⟨p, hp, heq⟩ := List.any_eq_true.mp hdone
        have hkept : s.posted ⊆ s.openRecvs.erase o := by
          intro x hx
          have hne : x ≠ o := by
            rintro rfl
            exact (Reached.inv hs).not_matched_of_posted (Reached.balanced hs) hx p hp
              (of_decide_eq_true heq)
          exact (List.mem_erase_of_ne hne).mpr (hsub hx)
        unfold Benchmark.recvCallback
        split
        · exact List.append_subset.mpr
            ⟨List.subset_append_of_subset_left _ hkept, List.subset_append_right _ _⟩
        · exact hkept
  exact hinv.2

/-- When `wait_all` has returned, every slot of the thread has received a message. -/
theorem Waited.exists_matched (h : b.Reached eager s) {rank thread slot : ℕ} (hw : Waited b s rank thread)
    (hslot : slot < b.window) : ∃ p ∈ s.matched, p.1.chain = ⟨rank, thread, slot⟩ := by
  have hinv := Reached.inv h
  have hcalls := hw.calls
  obtain ⟨k, hlog, ⟨hnot, -⟩ | ⟨-, -, -, hopened⟩ | ⟨-, rfl, hopened⟩⟩ := hinv.recvs ⟨rank, thread, slot⟩
  · exact absurd (show 2 * slot < s.calls rank thread by omega) hnot
  · have hmem : (⟨⟨rank, thread, slot⟩, k - 1⟩ : Op) ∈
        Benchmark.onChain ⟨rank, thread, slot⟩ s.openRecvs := by
      rw [hopened]
      exact List.mem_singleton_self _
    exact absurd ⟨rfl, rfl⟩ (hw.openRecvs _ (List.mem_filter.mp hmem).1)
  · have hmem : (⟨⟨rank, thread, slot⟩, 0⟩ : Op) ∈ Benchmark.onChain ⟨rank, thread, slot⟩ s.recvLog := by
      rw [hlog]
      exact List.mem_map.mpr ⟨0, List.mem_range.mpr b.nrep_pos, rfl⟩
    have hposted := (Reached.balanced h).recvs.subset (List.mem_filter.mp hmem).1
    cases List.mem_append.mp hposted with
    | inl hmatched =>
      obtain ⟨p, hp, heq⟩ := List.mem_map.mp hmatched
      exact ⟨p, hp, congrArg Op.chain heq⟩
    | inr hwaits => exact absurd ⟨rfl, rfl⟩ (hw.openRecvs _ (Reached.posted_open h hwaits))

/-- `check` never aborts: when `wait_all` has returned on a thread, all its receive buffers have the
expected contents, in every run and for all numbers of threads and slots. -/
theorem check_finds_ones (b : Benchmark) (bytes : ℕ) (eager : Op → Bool) (s : State)
    (h : b.Reached eager s) (rank thread : ℕ) (hw : Waited b s rank thread) :
    (⟨bytes, b.window⟩ : Buffers).check s rank thread = true := by
  rw [Buffers.check, List.all_eq_true]
  intro slot hslot
  obtain ⟨p, hp, hchain⟩ := hw.exists_matched h (List.mem_range.mp hslot)
  have hmem : p ∈ s.matched.filter fun p => p.1.chain = ⟨rank, thread, slot⟩ :=
    List.mem_filter.mpr ⟨hp, decide_eq_true hchain⟩
  have hlast : ∃ x, (s.matched.filter fun p => p.1.chain = ⟨rank, thread, slot⟩).getLast? = some x :=
    ⟨_, List.getLast?_eq_some_getLast (List.ne_nil_of_mem hmem)⟩
  obtain ⟨x, hx⟩ := hlast
  simp [Buffers.rmsg, hx, Buffers.smsg]

/-- The last thread of two ranks with colliding tags, at the end of a run. -/
theorem check_finds_ones_crowded : ∃ s, crowded.Reached (fun _ => false) s ∧
    (⟨8, 2⟩ : Buffers).check s 1 1000 = true := by
  obtain ⟨s, hs, hstuck⟩ := exists_end crowded fun _ => false
  have hcalls := calls_of_stuck (Reached.inv hs) hstuck (r := 1) (t := 1000) (by decide) (by decide)
  have hnone {l : List Op} (hrange : ∀ o ∈ l, crowded.InRange o.chain)
      (hnil : ∀ c, crowded.InRange c → Benchmark.onChain c l = []) (o : Op) (ho : o ∈ l) :
      ¬ (o.chain.rank = 1 ∧ o.chain.thread = 1000) := by
    have hempty := eq_nil_of_onChain hrange hnil
    rw [hempty] at ho
    cases ho
  refine ⟨s, hs, check_finds_ones crowded 8 _ s hs 1 1000 ⟨hcalls, ?_, ?_⟩⟩
  · exact hnone (fun _ => (Reached.inv hs).openSend_inRange) fun c hc =>
      (complete_of_stuck hs hstuck hc).1.opened
  · exact hnone (fun _ => (Reached.inv hs).openRecv_inRange) fun c hc =>
      (complete_of_stuck hs hstuck hc).2.opened

end Ghexbench.P2p
