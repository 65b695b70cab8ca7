import Ghexbench.Sync.RepeatForAgree

/-!
# The order of the callers

The work of a caller says how far it has come in the common sequence of passes. A caller that waits in a
broadcast waits for one that is not as far, so that among the callers that have not returned one of the least
advanced can always move. This still holds where `f` itself makes the callers wait for each other.
-/

namespace Ghexbench.RepeatFor

open Ghexbench.Common

variable {τ : Type*} [LinearOrder τ] {R T : ℕ} {a : Args τ} {clock : ℕ → ℕ → ℕ → τ}
  {s : State τ R T} {p q : Fin R × Fin T}

/-- A caller of a state. -/
def State.caller (s : State τ R T) (p : Fin R × Fin T) : Caller τ := s.callers p.1 p.2

/-- A caller is about to call `f`. -/
def Caller.Calling (a : Args τ) (c : Caller τ) : Prop := ∃ j < a.step, c.pc = .body j

/-- A step concerns one caller, and calls `f` if this caller is about to. -/
theorem next_frame {s' : State τ R T} (hstep : next a clock s p = some s') :
    (∀ q, q ≠ p → s'.caller q = s.caller q) ∧
      ((s.caller p).Calling a → (s'.caller p).fCalls = (s.caller p).fCalls + 1) ∧
      (¬ (s.caller p).Calling a → (s'.caller p).fCalls = (s.caller p).fCalls) := by
  obtain ⟨r, t⟩ := p
  have hother {s' : State τ R T} {c : Caller τ} (hcallers : s'.callers = (s.set r t c).callers) :
      (∀ q, q ≠ (r, t) → s'.caller q = s.caller q) ∧ s'.caller (r, t) = c := by
    refine ⟨fun q hq => ?_, ?_⟩
    · rw [State.caller, hcallers, State.set_callers, if_neg fun heq => hq (Prod.ext heq.1 heq.2)]
      rfl
    · rw [State.caller, hcallers, State.set_callers, if_pos ⟨rfl, rfl⟩]
  have hquiet {s' : State τ R T} {c : Caller τ} (hcallers : s'.callers = (s.set r t c).callers)
      (hf : c.fCalls = (s.callers r t).fCalls) (hnot : ¬ (s.caller (r, t)).Calling a) :
      (∀ q, q ≠ (r, t) → s'.caller q = s.caller q) ∧
        ((s.caller (r, t)).Calling a → (s'.caller (r, t)).fCalls = (s.caller (r, t)).fCalls + 1) ∧
        (¬ (s.caller (r, t)).Calling a → (s'.caller (r, t)).fCalls = (s.caller (r, t)).fCalls) := by
    obtain ⟨hsame, hself⟩ := hother hcallers
    exact ⟨hsame, fun hcalling => absurd hcalling hnot, fun _ => by rw [hself]; exact hf⟩
  have hnot {pc : Pc τ} (hpc : (s.callers r t).pc = pc) (hbody : ∀ j, pc = .body j → ¬ j < a.step) :
      ¬ (s.caller (r, t)).Calling a := by
    rintro ⟨j, hj, hpc'⟩
    exact hbody j (hpc.symm.trans hpc') hj
  cases moves_of_next hstep with
  | body hpc hlt =>
    obtain ⟨hsame, hself⟩ := hother rfl
    exact ⟨hsame, fun _ => by rw [hself]; rfl, fun hno => absurd ⟨_, hlt, hpc⟩ hno⟩
  | endPass hpc hge =>
    refine hquiet rfl ?_ (hnot hpc fun j hj => by cases hj; exact hge)
    simp only [endPass]
    split
    · rfl
    · split <;> rfl
  | sendRoot hpc hr => exact hquiet rfl rfl (hnot hpc fun j hj => by cases hj)
  | receive hpc hr hv => exact hquiet rfl rfl (hnot hpc fun j hj => by cases hj)
  | publish hpc ht => exact hquiet rfl rfl (hnot hpc fun j hj => by cases hj)
  | enter hpc ht => exact hquiet rfl rfl (hnot hpc fun j hj => by cases hj)
  | leave hpc hall hv => exact hquiet rfl rfl (hnot hpc fun j hj => by cases hj)

omit [LinearOrder τ] in
/-- More calls of `elapsed` need more passes. -/
theorem Args.lt_of_asked_lt {k m : ℕ} (h : a.asked k < a.asked m) : k < m := a.asked_mono.reflect_lt h

/-- The position within a pass is limited. -/
theorem Inv.position_le (h : Inv a clock s) (p : Fin R × Fin T) : (s.caller p).pc.position ≤ a.step + 3 := by
  obtain ⟨_, _, hmatch⟩ := h.callers p.1 p.2
  unfold State.caller
  cases hpc : (s.callers p.1 p.2).pc <;> simp only [hpc] at hmatch <;> simp only [Pc.position]
  case body j => exact Nat.add_le_add_right hmatch.1 3
  all_goals omega

/-- A caller that has completed fewer passes has worked less. -/
theorem Inv.work_lt_of_passes_lt (h : Inv a clock s) (hlt : (s.caller p).passes < (s.caller q).passes) :
    (s.caller p).work a < (s.caller q).work a := by
  have hposition := h.position_le p
  have hmul := Nat.mul_le_mul_left (a.step + 4) (Nat.succ_le_of_lt hlt)
  rw [Nat.mul_succ] at hmul
  rw [Caller.work, Caller.work]
  omega

/-- Nobody has completed more passes than a caller that has returned. -/
theorem Inv.passes_le_of_done (h : Inv a clock s) (hp : (s.caller p).pc = .done) (q : Fin R × Fin T) :
    (s.caller q).passes ≤ (s.caller p).passes := by
  obtain ⟨hlast, -⟩ := h.done hp
  obtain ⟨_, _, hmatch⟩ := h.callers q.1 q.2
  have hbefore (hruns : a.Runs clock ((s.caller q).passes - 1)) :
      (s.caller q).passes ≤ (s.caller p).passes := by
    have hlt : (s.caller q).passes - 1 < (s.caller p).passes := hruns.lt_of_stops hlast.1 hlast.2.1
    omega
  cases hpc : (s.callers q.1 q.2).pc <;> simp only [hpc] at hmatch
  case body j => exact (hmatch.2.2.2.lt_of_stops hlast.1 hlast.2.1).le
  case mpiBcast => exact hbefore hmatch.1.2.2.2
  case enterBcast => exact hbefore hmatch.1.2.2.2
  case leaveBcast => exact hbefore hmatch.1.2.2.2
  case done => exact hbefore hmatch.2.2.2.2

/-- A caller in the body of the loop has completed fewer passes than one that has returned. -/
theorem Inv.passes_lt_of_done (h : Inv a clock s) (hp : (s.caller p).pc = .done) {j : ℕ}
    (hq : (s.caller q).pc = .body j) : (s.caller q).passes < (s.caller p).passes := by
  obtain ⟨hlast, -⟩ := h.done hp
  obtain ⟨_, _, hmatch⟩ := h.callers q.1 q.2
  unfold State.caller at hq
  simp only [hq] at hmatch
  exact hmatch.2.2.2.lt_of_stops hlast.1 hlast.2.1

/-- Callers that have returned have called `f` equally often. -/
theorem Inv.fCalls_eq_of_done (h : Inv a clock s) (hp : (s.caller p).pc = .done)
    (hq : (s.caller q).pc = .done) : (s.caller p).fCalls = (s.caller q).fCalls := by
  have hpasses := le_antisymm (h.passes_le_of_done hq p) (h.passes_le_of_done hp q)
  have hf : (s.caller p).fCalls = a.step * (s.caller p).passes := (h.done hp).2.1
  have hf' : (s.caller q).fCalls = a.step * (s.caller q).passes := (h.done hq).2.1
  rw [hf, hf', hpasses]

/-- A caller in `bcast` is ahead of those that have not entered the round. -/
theorem Inv.earlier_of_entered (h : Inv a clock s) (hq : (s.caller q).pc = .leaveBcast)
    (hlt : (s.caller p).entered < (s.caller q).entered) :
    (s.caller p).pc ≠ .done ∧ (s.caller p).work a < (s.caller q).work a := by
  obtain ⟨_, _, hmatch⟩ := h.callers q.1 q.2
  unfold State.caller at hq
  simp only [hq] at hmatch
  have hentered : (s.caller q).entered = a.asked (s.caller q).passes := hmatch.2
  rw [hentered] at hlt
  obtain ⟨_, _, hmatch'⟩ := h.callers p.1 p.2
  -- one that is in front of the round at the end of pass `k` has completed the rounds before it
  have hfront (hasking : Asking a clock (s.caller p))
      (hone : (s.caller p).entered + 1 = a.asked (s.caller p).passes)
      (hposition : (s.caller p).pc.position < (s.caller q).pc.position) :
      (s.caller p).work a < (s.caller q).work a := by
    have hasked := Asking.asked _ hasking
    have hbefore : a.asked ((s.caller p).passes - 1) < a.asked (s.caller q).passes := by omega
    have hpasses := Args.lt_of_asked_lt hbefore
    rcases Nat.lt_or_ge (s.caller p).passes (s.caller q).passes with hless | hge
    · exact h.work_lt_of_passes_lt hless
    · have heq : (s.caller p).passes = (s.caller q).passes := by omega
      rw [Caller.work, Caller.work, heq]
      exact Nat.add_lt_add_left hposition _
  have hbehind (hall : (s.caller p).entered = a.asked (s.caller p).passes) :
      (s.caller p).work a < (s.caller q).work a :=
    h.work_lt_of_passes_lt (Args.lt_of_asked_lt (hall ▸ hlt))
  have hposition : (s.caller q).pc.position = 2 := by rw [State.caller, hq]; rfl
  cases hpc : (s.callers p.1 p.2).pc <;> simp only [hpc] at hmatch'
  case body j => exact ⟨by simp [State.caller, hpc], hbehind hmatch'.2.2.1⟩
  case mpiBcast dt =>
    refine ⟨by simp [State.caller, hpc], hfront hmatch'.1 hmatch'.2.1 ?_⟩
    rw [hposition, State.caller, hpc]
    exact Nat.zero_lt_two
  case enterBcast dt =>
    refine ⟨by simp [State.caller, hpc], hfront hmatch'.1 hmatch'.2.1 ?_⟩
    rw [hposition, State.caller, hpc]
    exact Nat.one_lt_two
  case leaveBcast => exact ⟨by simp [State.caller, hpc], hbehind hmatch'.2⟩
  case done =>
    have hmono := a.asked_mono (h.passes_le_of_done hpc q)
    have hall : (s.caller p).entered = a.asked (s.caller p).passes := hmatch'.2.2.1
    omega

/-- A caller that waits for rank 0 in `MPI_Bcast` is ahead of it, or rank 0 is about to send. -/
theorem Inv.earlier_of_mpi (h : Inv a clock s) {dt : τ} (hq : (s.caller q).pc = .mpiBcast dt)
    (hwaits : s.mpi.length ≤ (s.caller q).elapsedCalls - 1) (hroot : p.1.val = 0 ∧ p.2.val = 0) :
    (s.caller p).pc ≠ .done ∧ ((s.caller p).work a < (s.caller q).work a ∨
      (∃ dt, (s.caller p).pc = .mpiBcast dt) ∧ (s.caller p).work a ≤ (s.caller q).work a) := by
  obtain ⟨_, helapsed, hmatch⟩ := h.callers q.1 q.2
  have helapsed : (s.caller q).elapsedCalls = a.asked (s.caller q).passes := helapsed
  unfold State.caller at hq
  simp only [hq] at hmatch
  have hasked : a.asked (s.caller q).passes = a.asked ((s.caller q).passes - 1) + 1 :=
    Asking.asked _ hmatch.1
  obtain ⟨_, helapsed', hmatch'⟩ := h.callers p.1 p.2
  have helapsed' : (s.caller p).elapsedCalls = a.asked (s.caller p).passes := helapsed'
  have hlength : s.mpi.length = (s.caller p).sent := h.mpiLength p.1 p.2 hroot.1 hroot.2
  have hbehind (hsent : (s.caller p).sent = (s.caller p).elapsedCalls) :
      (s.caller p).work a < (s.caller q).work a :=
    h.work_lt_of_passes_lt (Args.lt_of_asked_lt (a := a) (by omega))
  cases hpc : (s.callers p.1 p.2).pc <;> simp only [hpc] at hmatch'
  case body j =>
    exact ⟨by simp [State.caller, hpc], Or.inl (hbehind (by simp [Caller.sent, State.caller, hpc]))⟩
  case mpiBcast dt' =>
    refine ⟨by simp [State.caller, hpc], Or.inr ⟨⟨dt', hpc⟩, ?_⟩⟩
    have hsent : (s.caller p).sent = (s.caller p).elapsedCalls - 1 := by simp [Caller.sent, State.caller, hpc]
    have hasked' : a.asked (s.caller p).passes = a.asked ((s.caller p).passes - 1) + 1 :=
      Asking.asked _ hmatch'.1
    have hpasses : (s.caller p).passes - 1 < (s.caller q).passes := Args.lt_of_asked_lt (a := a) (by omega)
    rcases Nat.lt_or_ge (s.caller p).passes (s.caller q).passes with hless | hge
    · exact (h.work_lt_of_passes_lt hless).le
    · have heq : (s.caller p).passes = (s.caller q).passes := by omega
      have hposition : (s.caller p).pc.position = 0 := by rw [State.caller, hpc]; rfl
      rw [Caller.work, Caller.work, heq, hposition]
      exact Nat.le_add_right _ _
  case enterBcast dt' =>
    exact ⟨by simp [State.caller, hpc], Or.inl (hbehind (by simp [Caller.sent, State.caller, hpc]))⟩
  case leaveBcast =>
    exact ⟨by simp [State.caller, hpc], Or.inl (hbehind (by simp [Caller.sent, State.caller, hpc]))⟩
  case done =>
    have hmono := a.asked_mono (h.passes_le_of_done hpc q)
    have hsent : (s.caller p).sent = (s.caller p).elapsedCalls := by simp [Caller.sent, State.caller, hpc]
    omega

/-- Among the callers that are not ahead of one that has not returned there is one that can move. -/
theorem Inv.exists_can_move (h : Inv a clock s) (hq : (s.caller q).pc ≠ .done) :
    ∃ p, (s.caller p).pc ≠ .done ∧ (s.caller p).work a ≤ (s.caller q).work a ∧
      ∃ s', next a clock s p = some s' := by
  induction hwork : (s.caller q).work a using Nat.strongRecOn generalizing q with
  | ind work ih =>
    subst hwork
    have hearlier {p : Fin R × Fin T} (hp : (s.caller p).pc ≠ .done)
        (hlt : (s.caller p).work a < (s.caller q).work a) :
        ∃ p, (s.caller p).pc ≠ .done ∧ (s.caller p).work a ≤ (s.caller q).work a ∧
          ∃ s', next a clock s p = some s' := by
      obtain ⟨p', hp', hle, hmove⟩ := ih _ hlt hp rfl
      exact ⟨p', hp', hle.trans hlt.le, hmove⟩
    cases hnext : next a clock s q with
    | some s' => exact ⟨q, hq, le_rfl, s', hnext⟩
    | none =>
      rcases blocked_cases hnext with hdone | hleave | ⟨dt, hmpi, hr, hwaits⟩
      · exact absurd hdone hq
      · obtain ⟨t, ht⟩ : ∃ t, (s.caller (q.1, t)).entered < (s.caller q).entered := by
          by_contra hall
          push Not at hall
          obtain ⟨s', hs'⟩ := h.leaves hleave hall
          rw [hnext] at hs'
          cases hs'
        obtain ⟨hp, hlt⟩ := h.earlier_of_entered hleave ht
        exact hearlier hp hlt
      · let root : Fin R × Fin T := (⟨0, q.1.pos⟩, ⟨0, q.2.pos⟩)
        obtain ⟨hp, hlt | ⟨⟨dt', hmpi'⟩, hle⟩⟩ := h.earlier_of_mpi (p := root) hmpi hwaits ⟨rfl, rfl⟩
        · exact hearlier hp hlt
        · refine ⟨root, hp, hle, ?_⟩
          unfold next
          rw [State.caller] at hmpi'
          simp only [hmpi']
          exact ⟨_, rfl⟩

/-- A caller that is about to call `f` has called it less often than a caller that is not behind it, or as
often as one that is about to call it too. -/
theorem Inv.fCalls_of_work_le (h : Inv a clock s) (hp : (s.caller p).Calling a)
    (hq : (s.caller q).pc = .done ∨ (s.caller p).work a ≤ (s.caller q).work a) :
    (s.caller p).fCalls < (s.caller q).fCalls ∨
      (s.caller p).fCalls = (s.caller q).fCalls ∧ (s.caller q).Calling a := by
  obtain ⟨j, hj, hp⟩ := hp
  obtain ⟨_, _, hmatch⟩ := h.callers p.1 p.2
  have hp' := hp
  unfold State.caller at hp'
  simp only [hp'] at hmatch
  have hf : (s.caller p).fCalls = a.step * (s.caller p).passes + j := hmatch.2.1
  have hfewer {k : ℕ} (hlt : (s.caller p).passes < k) : (s.caller p).fCalls < a.step * k := by
    have hmul := Nat.mul_le_mul_left a.step (Nat.succ_le_of_lt hlt)
    rw [Nat.mul_succ] at hmul
    omega
  obtain ⟨_, _, hmatch'⟩ := h.callers q.1 q.2
  -- in front of the last step of a broadcast a caller has not completed more passes
  have hbcast (hposition : (s.caller q).pc.position < 3) (hnot : (s.caller q).pc ≠ .done) :
      (s.caller p).passes < (s.caller q).passes := by
    by_contra hge
    have hle := hq.resolve_left hnot
    rcases Nat.eq_or_lt_of_le (Nat.le_of_not_lt hge) with heq | hlt
    · rw [Caller.work, Caller.work, heq, hp, Pc.position] at hle
      omega
    · exact absurd (h.work_lt_of_passes_lt hlt) (Nat.not_lt.mpr hle)
  cases hpc : (s.callers q.1 q.2).pc <;> simp only [hpc] at hmatch'
  case body j' =>
    have hle := hq.resolve_left (by simp [State.caller, hpc])
    have hf' : (s.caller q).fCalls = a.step * (s.caller q).passes + j' := hmatch'.2.1
    rcases Nat.lt_trichotomy (s.caller p).passes (s.caller q).passes with hlt | heq | hgt
    · have hless := hfewer hlt
      exact Or.inl (by omega)
    · have hpc' : (s.caller q).pc = .body j' := hpc
      rw [Caller.work, Caller.work, heq, hp, hpc', Pc.position, Pc.position] at hle
      have hle : j ≤ j' := Nat.le_of_add_le_add_right (Nat.le_of_add_le_add_left hle)
      rcases Nat.eq_or_lt_of_le hle with hsame | hless
      · exact Or.inr ⟨by rw [hf, hf', heq, hsame], j', hsame ▸ hj, hpc'⟩
      · rw [heq] at hf
        exact Or.inl (by omega)
    · exact absurd (h.work_lt_of_passes_lt hgt) (Nat.not_lt.mpr hle)
  case mpiBcast dt =>
    have hlt := hbcast (by rw [State.caller, hpc]; exact Nat.zero_lt_succ 2) (by simp [State.caller, hpc])
    exact Or.inl ((hfewer hlt).trans_eq hmatch'.1.2.1.symm)
  case enterBcast dt =>
    have hlt := hbcast (by rw [State.caller, hpc, Pc.position]; omega) (by simp [State.caller, hpc])
    exact Or.inl ((hfewer hlt).trans_eq hmatch'.1.2.1.symm)
  case leaveBcast =>
    have hlt := hbcast (by rw [State.caller, hpc, Pc.position]; omega) (by simp [State.caller, hpc])
    exact Or.inl ((hfewer hlt).trans_eq hmatch'.1.2.1.symm)
  case done =>
    have hlt := h.passes_lt_of_done hpc hp
    exact Or.inl ((hfewer hlt).trans_eq hmatch'.2.1.symm)

/-- The work of all callers is bounded as soon as some pass ends the loop. -/
theorem Inv.sum_work_le (h : Inv a clock s) {k : ℕ} (hk : 1 ≤ k) (hstops : a.Stops clock k) :
    s.work a ≤ R * T * ((a.step + 4) * (k + 1)) := by
  have hsum := Finset.sum_le_card_nsmul Finset.univ
    (fun p : Fin R × Fin T => (s.callers p.1 p.2).work a) _ fun p _ => h.work_le hk hstops p.1 p.2
  rwa [Finset.card_univ, Fintype.card_prod, Fintype.card_fin, Fintype.card_fin, smul_eq_mul] at hsum

end Ghexbench.RepeatFor
