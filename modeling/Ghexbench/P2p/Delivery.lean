import Ghexbench.P2p.ChainsExact

/-!
# Delivery with colliding tags

With more than 1000 threads the tags of different slots collide, and a receive may get the message of
another slot. Nothing else goes wrong: no message is lost or received twice, and every run ends with all
transfers complete, because as many messages are sent with every tag as are received with it.
-/

namespace Ghexbench.P2p

open Ghexbench.Common

variable {b : Benchmark} {s s' : State} {eager : Op → Bool}

/-- What has been posted is matched or waits, and the messages are matched with receives of the peer with
the same tag. -/
structure Balanced (b : Benchmark) (s : State) : Prop where
  sends : s.sendLog.Perm (s.matched.map Prod.snd ++ s.pending)
  recvs : s.recvLog.Perm (s.matched.map Prod.fst ++ s.posted)
  pairs : ∀ p ∈ s.matched,
    p.1.chain.rank = peerRank b.size p.2.chain.rank ∧ p.1.chain.tag = p.2.chain.tag

namespace Balanced

/-- A send that is posted waits. -/
theorem send (h : Balanced b s) (o : Op) : Balanced b (s.send o) where
  sends := by
    change (s.sendLog ++ [o]).Perm (s.matched.map Prod.snd ++ (s.pending ++ [o]))
    rw [← List.append_assoc]
    exact h.sends.append_right [o]
  recvs := h.recvs
  pairs := h.pairs

/-- A receive that is posted waits. -/
theorem recv (h : Balanced b s) (o : Op) : Balanced b (s.recv o) where
  sends := h.sends
  recvs := by
    change (s.recvLog ++ [o]).Perm (s.matched.map Prod.fst ++ (s.posted ++ [o]))
    rw [← List.append_assoc]
    exact h.recvs.append_right [o]
  pairs := h.pairs

/-- Every step keeps the balance. -/
theorem step (h : Balanced b s) {a : Action} (hstep : b.next eager s a = some s') : Balanced b s' := by
  cases moves_of_next hstep with
  | @call r t hcall =>
    have hadvance : Balanced b (s.advance r t) := ⟨h.sends, h.recvs, h.pairs⟩
    split
    · exact hadvance.recv _
    · exact hadvance.send _
  | @pair rank p q tag m r pending posted hm hr =>
    obtain ⟨-, hmtag, -⟩ := takeFirst_mem hm
    obtain ⟨-, hrtag, -⟩ := takeFirst_mem hr
    simp only [decide_eq_true_eq] at hmtag hrtag
    constructor
    · rw [List.map_append, List.append_assoc]
      exact h.sends.trans ((takeFirst_perm hm).append_left _)
    · rw [List.map_append, List.append_assoc]
      exact h.recvs.trans ((takeFirst_perm hr).append_left _)
    · intro p hp
      cases List.mem_append.mp hp with
      | inl hold => exact h.pairs p hold
      | inr hnew =>
        obtain rfl := List.mem_singleton.mp hnew
        exact ⟨by rw [hrtag.1, hmtag.1], hrtag.2.2.trans hmtag.2.2.symm⟩
  | @sent o hopen hdone =>
    have herase : Balanced b { s with openSends := s.openSends.erase o } := ⟨h.sends, h.recvs, h.pairs⟩
    unfold Benchmark.sendCallback
    split
    · exact herase.send _
    · exact herase
  | @received o hopen hdone =>
    have herase : Balanced b { s with openRecvs := s.openRecvs.erase o } := ⟨h.sends, h.recvs, h.pairs⟩
    unfold Benchmark.recvCallback
    split
    · exact herase.recv _
    · exact herase

end Balanced

/-- In every run what has been posted is matched or waits. -/
theorem Reached.balanced (h : b.Reached eager s) : Balanced b s := by
  apply Reachable.invariant _ _ h
  · rintro _ rfl
    exact ⟨List.Perm.refl _, List.Perm.refl _, fun p hp => by cases hp⟩
  · rintro s s' hs ⟨a, hstep⟩
    exact hs.step hstep

section Tags

variable {r τ : ℕ} {l : List Op}

/-- The chain belongs to a rank and has a tag. -/
def Chain.Uses (r τ : ℕ) (c : Chain) : Prop := c.rank = r ∧ c.tag = τ

instance (r τ : ℕ) (c : Chain) : Decidable (c.Uses r τ) := by unfold Chain.Uses; infer_instance

/-- The transfers of a rank with a tag. -/
def withTag (r τ : ℕ) (l : List Op) : List Op := l.filter fun o => o.chain.Uses r τ

/-- The chains of a rank with a tag. -/
def Benchmark.chainsAt (b : Benchmark) (r τ : ℕ) : Finset Chain := b.chains.filter (Chain.Uses r τ)

/-- The chains of a rank with a tag are those that use it. -/
theorem mem_chainsAt {c : Chain} : c ∈ b.chainsAt r τ ↔ b.InRange c ∧ c.Uses r τ := by
  rw [Benchmark.chainsAt, Finset.mem_filter, mem_chains]

/-- The transfers with a tag are those of the chains with this tag. -/
theorem length_withTag (h : ∀ o ∈ l, b.InRange o.chain) :
    (withTag r τ l).length = ∑ c ∈ b.chainsAt r τ, (Benchmark.onChain c l).length := by
  have hclass (o : Op) (ho : o ∈ withTag r τ l) : o.chain ∈ b.chainsAt r τ := by
    obtain ⟨hmem, huses⟩ := List.mem_filter.mp ho
    exact mem_chainsAt.mpr ⟨h o hmem, of_decide_eq_true huses⟩
  rw [← sum_length_filter Op.chain (b.chainsAt r τ) (withTag r τ l) hclass]
  refine Finset.sum_congr rfl fun c hc => ?_
  congr 1
  rw [withTag, List.filter_filter, Benchmark.onChain]
  refine List.filter_congr fun o _ => ?_
  have huses := (mem_chainsAt.mp hc).2
  by_cases ho : o.chain = c
  · simp [ho, huses]
  · simp [ho]

/-- A rank and its peer have as many chains with a tag. -/
theorem card_chainsAt_peer (hr : r < b.size) :
    (b.chainsAt (peerRank b.size r) τ).card = (b.chainsAt r τ).card := by
  have hpeer {r : ℕ} (hr : r < b.size) {c : Chain} (hc : c ∈ b.chainsAt r τ) :
      b.peer c ∈ b.chainsAt (peerRank b.size r) τ := by
    obtain ⟨hrange, rfl, htag⟩ := mem_chainsAt.mp hc
    exact mem_chainsAt.mpr ⟨peer_inRange hrange, rfl, htag⟩
  have hback : peerRank b.size (peerRank b.size r) = r := peerRank_peerRank hr
  refine Finset.card_nbij' b.peer b.peer (fun c hc => ?_) (fun c hc => hpeer hr hc) (fun c hc => ?_)
    fun c hc => ?_
  · have hc' := hpeer (peerRank_lt hr) hc
    rwa [← Benchmark.size, hback] at hc'
  · exact peer_peer (mem_chainsAt.mp hc).1.1
  · exact peer_peer (mem_chainsAt.mp hc).1.1

end Tags

section Sides

variable {log opened waiting : List Op} {r τ : ℕ} {c : Chain}

/-- A chain has been used for all its transfers in one direction. -/
structure Complete (b : Benchmark) (log opened : List Op) (c : Chain) : Prop where
  log : Benchmark.onChain c log = (List.range b.nrep).map (Op.mk c)
  opened : Benchmark.onChain c opened = []

/-- The sends or the receives at the end of a run: every chain is complete, or its last transfer waits for
its match. -/
structure Side (b : Benchmark) (log opened waiting : List Op) : Prop where
  inRange : ∀ o ∈ log, b.InRange o.chain
  waiting_sub : waiting ⊆ log
  log_le : ∀ c, (Benchmark.onChain c log).length ≤ b.nrep
  last : ∀ c, b.InRange c → Complete b log opened c ∨ ∃ o ∈ waiting, o.chain = c

namespace Side

/-- There are not more transfers with a tag than the chains have. -/
theorem length_le (h : Side b log opened waiting) :
    (withTag r τ log).length ≤ (b.chainsAt r τ).card * b.nrep := by
  rw [length_withTag h.inRange]
  exact Finset.sum_le_card_nsmul _ _ _ fun c _ => h.log_le c

/-- If nothing waits with a tag, the chains with this tag are complete. -/
theorem complete (h : Side b log opened waiting) (hnone : withTag r τ waiting = [])
    (hc : c ∈ b.chainsAt r τ) : Complete b log opened c := by
  obtain ⟨hrange, huses⟩ := mem_chainsAt.mp hc
  refine (h.last c hrange).resolve_right ?_
  rintro ⟨o, ho, rfl⟩
  exact List.filter_eq_nil_iff.mp hnone o ho (decide_eq_true huses)

/-- If nothing waits with a tag, the chains with this tag have made all their transfers. -/
theorem length_eq (h : Side b log opened waiting) (hnone : withTag r τ waiting = []) :
    (withTag r τ log).length = (b.chainsAt r τ).card * b.nrep := by
  rw [length_withTag h.inRange]
  apply Finset.sum_const_nat
  intro c hc
  rw [(h.complete hnone hc).log, List.length_map, List.length_range]

end Side

/-- At the end of a run the sends that are not complete wait. -/
theorem Inv.sendSide (h : Inv b s) (hbalanced : Balanced b s) (hlogged : Logged s)
    (hstuck : ∀ a, b.next eager s a = none) : Side b s.sendLog s.openSends s.pending where
  inRange _ := h.send_inRange
  waiting_sub := hlogged.pending_sub
  log_le c := (h.sends c).log_le
  last c hc := by
    have hcalls := calls_of_stuck h hstuck hc.1 hc.2.1
    have hslot := hc.2.2
    obtain ⟨k, hlog, -, ⟨rfl, hopened⟩ | ⟨hk, hopen⟩⟩ := last_of_stuck (h.sends c) (by omega)
    · exact Or.inl ⟨hlog, hopened⟩
    · right
      refine ⟨⟨c, k - 1⟩, ?_, rfl⟩
      have hmem : (⟨c, k - 1⟩ : Op) ∈ Benchmark.onChain c s.sendLog := by
        rw [hlog]
        exact List.mem_map.mpr ⟨k - 1, List.mem_range.mpr (by omega), rfl⟩
      have hposted := hbalanced.sends.subset (List.mem_filter.mp hmem).1
      refine (List.mem_append.mp hposted).resolve_left fun hmatched => ?_
      obtain ⟨p, hp, heq⟩ := List.mem_map.mp hmatched
      have hnone := hstuck (.sent ⟨c, k - 1⟩)
      simp only [Benchmark.next] at hnone
      rw [if_pos ⟨hopen, Or.inr (List.any_eq_true.mpr ⟨p, hp, decide_eq_true heq⟩)⟩] at hnone
      cases hnone

/-- At the end of a run the receives that are not complete wait. -/
theorem Inv.recvSide (h : Inv b s) (hbalanced : Balanced b s) (hlogged : Logged s)
    (hstuck : ∀ a, b.next eager s a = none) : Side b s.recvLog s.openRecvs s.posted where
  inRange _ := h.recv_inRange
  waiting_sub := hlogged.posted_sub
  log_le c := (h.recvs c).log_le
  last c hc := by
    have hcalls := calls_of_stuck h hstuck hc.1 hc.2.1
    have hslot := hc.2.2
    obtain ⟨k, hlog, -, ⟨rfl, hopened⟩ | ⟨hk, hopen⟩⟩ := last_of_stuck (h.recvs c) (by omega)
    · exact Or.inl ⟨hlog, hopened⟩
    · right
      refine ⟨⟨c, k - 1⟩, ?_, rfl⟩
      have hmem : (⟨c, k - 1⟩ : Op) ∈ Benchmark.onChain c s.recvLog := by
        rw [hlog]
        exact List.mem_map.mpr ⟨k - 1, List.mem_range.mpr (by omega), rfl⟩
      have hposted := hbalanced.recvs.subset (List.mem_filter.mp hmem).1
      refine (List.mem_append.mp hposted).resolve_left fun hmatched => ?_
      obtain ⟨p, hp, heq⟩ := List.mem_map.mp hmatched
      have hnone := hstuck (.received ⟨c, k - 1⟩)
      simp only [Benchmark.next] at hnone
      rw [if_pos ⟨hopen, List.any_eq_true.mpr ⟨p, hp, decide_eq_true heq⟩⟩] at hnone
      cases hnone

end Sides

section Matching

variable {r τ : ℕ}

/-- At the end of a run there are not both a message and a receive that could be matched. -/
theorem withTag_of_stuck (hstuck : ∀ a, b.next eager s a = none) (r τ : ℕ) :
    withTag r τ s.pending = [] ∨ withTag (peerRank b.size r) τ s.posted = [] := by
  by_contra hboth
  push Not at hboth
  obtain ⟨m, hm⟩ := List.exists_mem_of_ne_nil _ hboth.1
  obtain ⟨o, ho⟩ := List.exists_mem_of_ne_nil _ hboth.2
  obtain ⟨hmmem, hmuses⟩ := List.mem_filter.mp hm
  obtain ⟨homem, houses⟩ := List.mem_filter.mp ho
  obtain ⟨hmrank, hmtag⟩ := of_decide_eq_true hmuses
  obtain ⟨horank, hotag⟩ := of_decide_eq_true houses
  have hnone := hstuck (.pair r m.chain.thread o.chain.thread τ)
  simp only [Benchmark.next] at hnone
  split at hnone
  · cases hnone
  · next hfirst =>
    cases hsend : takeFirst (fun x : Op => x.chain.rank = r ∧ x.chain.thread = m.chain.thread ∧
        x.chain.tag = τ) s.pending with
    | none => exact of_decide_eq_false (takeFirst_eq_none hsend m hmmem) ⟨hmrank, rfl, hmtag⟩
    | some x =>
      cases hrecv : takeFirst (fun x : Op => x.chain.rank = peerRank b.size r ∧
          x.chain.thread = o.chain.thread ∧ x.chain.tag = τ) s.posted with
      | none => exact of_decide_eq_false (takeFirst_eq_none hrecv o homem) ⟨horank, rfl, hotag⟩
      | some y => exact hfirst x.1 x.2 y.1 y.2 hsend hrecv

/-- As many messages with a tag are matched as receives of the peer with this tag. -/
theorem Balanced.length_withTag_matched (h : Balanced b s) (hlogged : Logged s) (hinv : Inv b s)
    (hr : r < b.size) : (withTag r τ (s.matched.map Prod.snd)).length =
      (withTag (peerRank b.size r) τ (s.matched.map Prod.fst)).length := by
  simp only [withTag, List.filter_map, List.length_map]
  congr 1
  refine List.filter_congr fun p hp => ?_
  obtain ⟨hrank, htag⟩ := h.pairs p hp
  have hlt := (hinv.send_inRange (hlogged.matched_sub p hp)).1
  simp only [Function.comp_apply, Chain.Uses, hrank, htag]
  refine decide_eq_decide.mpr (and_congr_left fun _ => ⟨congrArg (peerRank b.size), fun heq => ?_⟩)
  rw [← peerRank_peerRank hlt, ← peerRank_peerRank hr]
  exact congrArg (peerRank b.size) heq

/-- At the end of a run nothing waits to be matched. -/
theorem withTag_nil (hs : b.Reached eager s) (hstuck : ∀ a, b.next eager s a = none) (hr : r < b.size) :
    withTag r τ s.pending = [] ∧ withTag (peerRank b.size r) τ s.posted = [] := by
  have hinv := Reached.inv hs
  have hlogged := Reached.logged hs
  have hbalanced := Reached.balanced hs
  have hsend := hinv.sendSide hbalanced hlogged hstuck
  have hrecv := hinv.recvSide hbalanced hlogged hstuck
  have hsends := (hbalanced.sends.filter fun o => decide (o.chain.Uses r τ)).length_eq
  have hrecvs := (hbalanced.recvs.filter fun o =>
    decide (o.chain.Uses (peerRank b.size r) τ)).length_eq
  have hmatched : (withTag r τ (s.matched.map Prod.snd)).length = _ :=
    hbalanced.length_withTag_matched hlogged hinv hr
  have hcard : (b.chainsAt (peerRank b.size r) τ).card = (b.chainsAt r τ).card := card_chainsAt_peer hr
  rw [List.filter_append, List.length_append] at hsends hrecvs
  change (withTag r τ s.sendLog).length = (withTag r τ _).length + (withTag r τ s.pending).length at hsends
  change (withTag _ τ s.recvLog).length = (withTag _ τ _).length + (withTag _ τ s.posted).length at hrecvs
  rcases withTag_of_stuck hstuck r τ with hnone | hnone
  · -- all messages with the tag have been received, so that no more receives can be posted
    have hall := hsend.length_eq hnone
    have hle := hrecv.length_le (r := peerRank b.size r) (τ := τ)
    rw [hcard] at hle
    rw [hnone, List.length_nil] at hsends
    exact ⟨hnone, List.length_eq_zero_iff.mp (by omega)⟩
  · have hall := hrecv.length_eq hnone
    have hle := hsend.length_le (r := r) (τ := τ)
    rw [hcard] at hall
    rw [hnone, List.length_nil] at hrecvs
    exact ⟨List.length_eq_zero_iff.mp (by omega), hnone⟩

end Matching

section Ends

/-- At the end of a run no receive waits. -/
theorem withTag_posted_nil (hs : b.Reached eager s) (hstuck : ∀ a, b.next eager s a = none) {r : ℕ}
    (hr : r < b.size) (τ : ℕ) : withTag r τ s.posted = [] := by
  have hnil := (withTag_nil hs hstuck (peerRank_lt hr) (τ := τ)).2
  have hback : peerRank b.size (peerRank (2 * b.pairs) r) = r := peerRank_peerRank hr
  rwa [hback] at hnil

/-- At the end of a run all chains are complete, also if tags collide. -/
theorem complete_of_stuck (hs : b.Reached eager s) (hstuck : ∀ a, b.next eager s a = none) {c : Chain}
    (hc : b.InRange c) : Complete b s.sendLog s.openSends c ∧ Complete b s.recvLog s.openRecvs c := by
  have hinv := Reached.inv hs
  have hlogged := Reached.logged hs
  have hbalanced := Reached.balanced hs
  have hat : c ∈ b.chainsAt c.rank c.tag := mem_chainsAt.mpr ⟨hc, rfl, rfl⟩
  exact ⟨(hinv.sendSide hbalanced hlogged hstuck).complete (withTag_nil hs hstuck hc.1).1 hat,
    (hinv.recvSide hbalanced hlogged hstuck).complete (withTag_posted_nil hs hstuck hc.1 _) hat⟩

/-- At the end of a run nothing waits. -/
theorem waiting_of_stuck (hs : b.Reached eager s) (hstuck : ∀ a, b.next eager s a = none) :
    s.pending = [] ∧ s.posted = [] := by
  have hinv := Reached.inv hs
  have hlogged := Reached.logged hs
  have hmem {l : List Op} {o : Op} (ho : o ∈ l) : o ∈ withTag o.chain.rank o.chain.tag l :=
    List.mem_filter.mpr ⟨ho, decide_eq_true ⟨rfl, rfl⟩⟩
  constructor
  · rw [List.eq_nil_iff_forall_not_mem]
    intro o ho
    have hin := hmem ho
    rw [(withTag_nil hs hstuck (hinv.send_inRange (hlogged.pending_sub ho)).1).1] at hin
    cases hin
  · rw [List.eq_nil_iff_forall_not_mem]
    intro o ho
    have hin := hmem ho
    rw [withTag_posted_nil hs hstuck (hinv.recv_inRange (hlogged.posted_sub ho)).1] at hin
    cases hin

end Ends

/-- No message is lost or received twice, whatever the numbers of threads and slots are: every run ends,
and at its end every slot has been used for `nrep` sends and `nrep` receives, every message is matched with
one receive of the peer with its tag, and nothing is left in flight. -/
theorem messages_delivered (b : Benchmark) (eager : Op → Bool) :
    (∀ actions s, runActions (b.next eager) init actions = some s → actions.length ≤ 5 * b.total) ∧
    ∀ s, b.Reached eager s → (∀ a, b.next eager s a = none) →
      (∀ c, b.InRange c → Complete b s.sendLog s.openSends c ∧ Complete b s.recvLog s.openRecvs c) ∧
      s.pending = [] ∧ s.posted = [] ∧ s.sendLog.Perm (s.matched.map Prod.snd) ∧
      s.recvLog.Perm (s.matched.map Prod.fst) ∧
      ∀ p ∈ s.matched, p.1.chain.rank = peerRank b.size p.2.chain.rank ∧
        p.1.chain.tag = p.2.chain.tag := by
  refine ⟨fun _ _ => length_le_of_run, fun s hs hstuck => ?_⟩
  have hbalanced := Reached.balanced hs
  obtain ⟨hpending, hposted⟩ := waiting_of_stuck hs hstuck
  refine ⟨fun c hc => complete_of_stuck hs hstuck hc, hpending, hposted, ?_, ?_, hbalanced.pairs⟩
  · have hperm := hbalanced.sends
    rwa [hpending, List.append_nil] at hperm
  · have hperm := hbalanced.recvs
    rwa [hposted, List.append_nil] at hperm

/-- At the end of a run of two ranks with colliding tags, the last slot of the last thread has received a
message, and no message waits. -/
theorem messages_delivered_crowded : ∃ s, crowded.Reached (fun _ => false) s ∧
    Benchmark.onChain ⟨1, 1000, 1⟩ s.recvLog = [⟨⟨1, 1000, 1⟩, 0⟩] ∧ s.pending = [] ∧ s.posted = [] ∧
    s.recvLog.Perm (s.matched.map Prod.fst) := by
  obtain ⟨s, hs, hstuck⟩ := exists_end crowded fun _ => false
  obtain ⟨hcomplete, hpending, hposted, -, hrecvs, -⟩ := (messages_delivered crowded fun _ => false).2 s hs hstuck
  exact ⟨s, hs, (hcomplete ⟨1, 1000, 1⟩ ⟨by decide, by decide, by decide⟩).2.log, hpending, hposted, hrecvs⟩

end Ghexbench.P2p
