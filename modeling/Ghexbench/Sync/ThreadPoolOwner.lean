import Ghexbench.Sync.ThreadPoolInvariant

/-!
# The owner of the thread pool

Every step of `schedule`, `sync` and `join` keeps the invariant of the pool. The flags and
what a call in progress has established are recorded at each of its program points, so each
step is checked against the next point only.
-/

namespace Ghexbench.ThreadPool

variable {J : Type*} {n : ℕ} {s t : State J n} {i threadId : Fin n} {job : Job J} {ret : Return n}

/-- A returned call of `schedule` accounts for its job exactly if it returned true. -/
theorem returned_append (results : List (Fin n × Job J × Bool)) (ok : Bool)
    (ht : t.results = results ++ [(threadId, job, ok)]) (hs : s.results = results) (i : Fin n) :
    t.returned i = s.returned i ++ if threadId = i ∧ ok = true then [job] else [] := by
  rw [State.returned, ht, List.filterMap_append, ← hs]
  by_cases hi : threadId = i ∧ ok = true <;> simp [State.returned, hi]

/-- Marks depend only on what is accepted and on whether the pool is joined. -/
theorem State.Marked.congr {before : Fin n → ℕ} {p q : Fin n → Prop} (h : s.Marked before p)
    (hacc : ∀ i, t.accepted i = s.accepted i) (hjoined : t.joined = s.joined)
    (hq : ∀ i, q i → s.joined = false → p i) : t.Marked before q := by
  intro i
  rw [hacc, hjoined]
  exact ⟨(h i).1, fun hi hj => (h i).2 (hq i hi hj) hj⟩

/-- The owner moves without touching the workers or what is accepted. -/
theorem Inv.goto (h : Inv s) (hworkers : t.workers = s.workers)
    (hacc : ∀ i, t.accepted i = s.accepted i) (hrunning : t.running = s.running)
    (hjoined : t.joined = s.joined) (hsynced : t.synced = s.synced)
    (hnotify : ∀ i, (s.workers i).pc = .blocked → s.pc.WillNotify i → t.pc.WillNotify i)
    (howner : OwnerOk t t.pc) : Inv t where
  jobs i := by rw [hworkers, hacc, h.jobs i]
  ids i := by
    rw [hworkers]
    exact h.ids i
  blocked i hi := by
    rw [hworkers] at hi ⊢
    rw [hrunning]
    exact (h.blocked i hi).imp_right (hnotify i hi)
  exited i hi := by
    rw [hworkers] at hi ⊢
    rw [hrunning]
    exact h.exited i hi
  joined hj i := by
    rw [hworkers]
    exact h.joined (hjoined ▸ hj) i
  owner := howner
  synced i := by
    rw [hworkers, hsynced]
    exact h.synced i

/-- The owner enters `schedule` from its program or from the loop in `sync`. -/
theorem Inv.schedule (h : Inv s) (hpending : ∀ i, s.pc.pending i = [])
    (hnotify : ∀ i, ¬ s.pc.WillNotify i) (hrunning : s.running = !s.joined)
    (hret : ret.Ok s (threadId = ·)) : Inv (s.schedule threadId job ret) := by
  have hreturned (i : Fin n) : s.returned i = s.accepted i := by
    rw [State.accepted, hpending i, List.append_nil]
  unfold State.schedule
  by_cases hj : s.joined = true
  · rw [if_pos hj]
    have hacc (i : Fin n) : ({ s with
        pc := ret.pc, results := s.results ++ [(threadId, job, false)] } : State J n).accepted i =
        s.accepted i := by
      rw [State.accepted, returned_append (s := s) s.results false rfl rfl, hreturned]
      cases ret <;> simp [Return.pc, OwnerPc.pending]
    refine h.goto rfl hacc rfl rfl rfl (fun i _ hi => absurd hi (hnotify i)) ?_
    cases ret with
    | caller => exact hrunning
    | sync j before =>
      exact ⟨hrunning, State.Marked.congr hret hacc rfl fun i _ hf => by simp [hj] at hf⟩
  · rw [if_neg hj]
    have hacc (i : Fin n) : ({ s with pc := .push threadId job ret } : State J n).accepted i =
        s.accepted i := by
      rw [← hreturned]
      simp [State.accepted, OwnerPc.pending, State.returned]
    refine h.goto rfl hacc rfl rfl rfl (fun i _ hi => absurd hi (hnotify i)) ?_
    refine ⟨by simpa [hrunning] using hj, by simpa using hj, ?_⟩
    cases ret with
    | caller => trivial
    | sync j before => exact State.Marked.congr hret hacc rfl fun i hi _ => hi

/-- The locked part of `schedule_impl` queues the job. -/
theorem Inv.push (h : Inv s) (hpc : s.pc = .push threadId job ret) :
    Inv ({ s.setWorker threadId { s.workers threadId with
      queue := (s.workers threadId).queue ++ [job] } with pc := .notify threadId job ret }) := by
  have howner := h.owner
  rw [hpc] at howner
  obtain ⟨hrunning, hjoined, hret⟩ := howner
  set t : State J n := { s.setWorker threadId { s.workers threadId with
      queue := (s.workers threadId).queue ++ [job] } with pc := .notify threadId job ret } with ht
  have hacc (i : Fin n) : t.accepted i = s.accepted i ++ if threadId = i then [job] else [] := by
    simp [State.accepted, OwnerPc.pending, State.returned, ht, State.setWorker, hpc]
  have hworker (i : Fin n) : (t.workers i).pc = (s.workers i).pc ∧
      (t.workers i).finished = (s.workers i).finished ∧
      (t.workers i).queue = (s.workers i).queue ++ if threadId = i then [job] else [] := by
    by_cases hi : i = threadId
    · subst hi
      simp [ht, State.setWorker]
    · simp [ht, State.setWorker, hi, Ne.symm hi]
  have hjobs (i : Fin n) : (t.workers i).jobs =
      (s.workers i).jobs ++ if threadId = i then [job] else [] := by
    simp [Worker.jobs, Worker.current, hworker i]
  refine ⟨fun i => ?_, fun i => ?_, fun i hi => ?_, fun i hi => ?_, fun hj => ?_, ?_, fun i => ?_⟩
  · rw [hjobs, hacc, h.jobs]
  · rw [(hworker i).2.1]
    exact h.ids i
  · -- a worker that was blocked with an empty queue is the one that will be notified
    rw [(hworker i).1] at hi
    cases eq_or_ne threadId i with
    | inl hti => exact Or.inr hti
    | inr hti =>
      refine (h.blocked i hi).imp (fun hb => ⟨?_, hb.2⟩)
        (fun hb => by simp [hpc, OwnerPc.WillNotify] at hb)
      rw [(hworker i).2.2, hb.1, if_neg hti]
      rfl
  · rw [(hworker i).1] at hi
    exact absurd (h.exited i hi).2 (by simp [hrunning])
  · exact absurd hj (by simp [ht, State.setWorker, hjoined])
  · refine ⟨hrunning, hjoined, ?_⟩
    cases ret with
    | caller => trivial
    | sync j before =>
      intro i
      have hi := hret i
      rw [hacc, List.length_append]
      refine ⟨hi.1.trans (Nat.le_add_right _ _), fun hj _ => ?_⟩
      cases eq_or_ne threadId i with
      | inl hti =>
        simp only [if_pos hti, List.length_singleton]
        exact Nat.add_le_add_right hi.1 1
      | inr hti => exact (hi.2 ⟨hj.1, hti⟩ hjoined).trans (Nat.le_add_right _ _)
  · rw [(hworker i).2.1]
    exact h.synced i

/-- `schedule_impl` returns true once the worker is notified. -/
theorem Inv.returnTrue (h : Inv s) (hpc : s.pc = .notify threadId job ret)
    (hunblocked : (s.workers threadId).pc ≠ .blocked) :
    Inv { s with pc := ret.pc, results := s.results ++ [(threadId, job, true)] } := by
  have howner := h.owner
  rw [hpc] at howner
  obtain ⟨hrunning, hjoined, hret⟩ := howner
  have hacc (i : Fin n) : ({ s with
      pc := ret.pc, results := s.results ++ [(threadId, job, true)] } : State J n).accepted i =
      s.accepted i := by
    rw [State.accepted, returned_append (s := s) s.results true rfl rfl, State.accepted, hpc]
    cases ret <;> simp [Return.pc, OwnerPc.pending]
  refine h.goto rfl hacc rfl rfl rfl (fun i hi hn => ?_) ?_
  · rw [hpc] at hn
    exact absurd hi (by rw [← show threadId = i from hn]; exact hunblocked)
  · have hflags : s.running = !s.joined := by simp [hrunning, hjoined]
    cases ret with
    | caller => exact hflags
    | sync j before => exact ⟨hflags, State.Marked.congr hret hacc rfl fun i hi _ => ⟨hi, id⟩⟩

/-- The notification in `schedule_impl`, with its return. -/
theorem Inv.notify (h : Inv s) (hpc : s.pc = .notify threadId job ret) :
    Inv { s.wake threadId with
      pc := ret.pc, results := s.results ++ [(threadId, job, true)] } := by
  obtain ⟨workers, heq⟩ := State.wake_eq (s := s) (i := threadId)
  have hwake : Inv (s.wake threadId) := h.wake
  have hunblocked := State.wake_not_blocked (s := s) (i := threadId)
  rw [heq] at hwake hunblocked ⊢
  exact hwake.returnTrue hpc hunblocked

/-- Nothing is pending and nobody is about to be notified between the calls of `schedule`. -/
theorem Inv.enterSchedule (h : Inv s) (hpc : s.pc = .idle ∨ ∃ j before, s.pc = .syncSchedule j before)
    (hret : ret.Ok s (threadId = ·)) : Inv (s.schedule threadId job ret) := by
  have howner := h.owner
  rcases hpc with hpc | ⟨j, before, hpc⟩ <;> rw [hpc] at howner
  · exact h.schedule (by simp [hpc, OwnerPc.pending]) (by simp [hpc, OwnerPc.WillNotify]) howner hret
  · exact h.schedule (by simp [hpc, OwnerPc.pending]) (by simp [hpc, OwnerPc.WillNotify]) howner.1 hret

/-- Moves of the owner between points that neither hold a pending job nor promise to notify. -/
theorem Inv.jump (h : Inv s) (pc : OwnerPc J n) (program : List (Call J n))
    (hs : ∀ i, s.pc.pending i = [] ∧ ¬ s.pc.WillNotify i) (ht : ∀ i, pc.pending i = [])
    (howner : (∀ i, ({ s with program := program, pc := pc } : State J n).accepted i = s.accepted i) →
      OwnerOk { s with program := program, pc := pc } pc) :
    Inv { s with program := program, pc := pc } := by
  have hacc (i : Fin n) :
      ({ s with program := program, pc := pc } : State J n).accepted i = s.accepted i := by
    simp [State.accepted, State.returned, (hs i).1, ht i]
  exact h.goto rfl hacc rfl rfl rfl (fun i _ hi => absurd hi (hs i).2) (howner hacc)

/-- The calls of the owner's program start from a pool at rest. -/
theorem Inv.call (h : Inv s) (hpc : s.pc = .idle) (hstep : ownerStep s = some t) : Inv t := by
  have hrest (i : Fin n) : s.pc.pending i = [] ∧ ¬ s.pc.WillNotify i := by
    simp [hpc, OwnerPc.pending, OwnerPc.WillNotify]
  have howner := h.owner
  rw [hpc] at howner
  unfold ownerStep at hstep
  simp only [hpc] at hstep
  cases hprogram : s.program with
  | nil => simp [hprogram] at hstep
  | cons call rest =>
    cases call with
    | schedule threadId job =>
      simp only [hprogram, Option.some.injEq] at hstep
      subst hstep
      have hskip : Inv { s with program := rest } := by
        have hjump := h.jump .idle rest hrest (fun _ => rfl) (fun _ => howner)
        rwa [← hpc] at hjump
      exact hskip.enterSchedule (Or.inl hpc) trivial
    | sync =>
      simp only [hprogram, Option.some.injEq] at hstep
      subst hstep
      refine h.jump _ rest hrest (fun _ => rfl) fun hacc => ⟨howner, fun i => ?_⟩
      exact ⟨(congrArg List.length (hacc i)).ge, fun hi => absurd hi (Nat.not_lt_zero _)⟩
    | join =>
      simp only [hprogram, Option.some.injEq] at hstep
      subst hstep
      refine h.jump _ rest hrest (fun i => ?_) fun _ => ?_
      · split <;> rfl
      · by_cases hj : s.joined = true
        · rw [if_pos hj]
          exact howner
        · rw [if_neg hj]
          exact ⟨by rw [show s.running = !s.joined from howner]; simpa using hj, by simpa using hj⟩

/-- `sync` gives every worker an empty job. -/
theorem Inv.syncSchedule (h : Inv s) {j : ℕ} {before : Fin n → ℕ}
    (hpc : s.pc = .syncSchedule j before) (hstep : ownerStep s = some t) : Inv t := by
  have hrest (i : Fin n) : s.pc.pending i = [] ∧ ¬ s.pc.WillNotify i := by
    simp [hpc, OwnerPc.pending, OwnerPc.WillNotify]
  have howner := h.owner
  rw [hpc] at howner
  obtain ⟨hflags, hmarked⟩ := howner
  simp only [ownerStep, hpc] at hstep
  split at hstep
  · next hj =>
    simp only [Option.some.injEq] at hstep
    subst hstep
    apply h.enterSchedule (Or.inr ⟨j, before, hpc⟩)
    apply State.Marked.congr hmarked (fun _ => rfl) rfl
    intro i hi _
    have hne : j ≠ i.val := fun heq => hi.2 (Fin.ext heq)
    omega
  · next hj =>
    simp only [Option.some.injEq] at hstep
    subst hstep
    refine h.jump _ s.program hrest (fun _ => rfl) fun hacc => ⟨hflags, ?_, fun _ i hi => ?_⟩
    · exact hmarked.congr hacc rfl fun i _ _ => by have hlt := i.isLt; omega
    · exact absurd hi (Nat.not_lt_zero _)

/-- A worker with an empty queue has finished the jobs that were accepted before `sync`: the one that
it may be running is the empty one, if any. -/
theorem Inv.finished_of_empty (h : Inv s) {before : Fin n → ℕ} {p : Fin n → Prop}
    (hmarked : s.Marked before p) {i : Fin n} (hi : p i) (hqueue : (s.workers i).queue = []) :
    before i ≤ (s.workers i).finished.length := by
  have hlength := congrArg List.length (h.jobs i)
  simp only [Worker.jobs, hqueue, List.append_nil, List.length_append, List.length_map] at hlength
  have hmark := hmarked i
  cases hj : s.joined with
  | true =>
    have hexited := h.joined hj i
    simp only [Worker.current, hexited, List.length_nil, add_zero] at hlength
    omega
  | false =>
    have hcurrent : (s.workers i).current.length ≤ 1 := by
      unfold Worker.current
      split <;> simp
    have hnoop := hmark.2 hi hj
    omega

/-- `sync` counts until all queues are empty. -/
theorem Inv.syncCount (h : Inv s) {j found : ℕ} {before : Fin n → ℕ}
    (hpc : s.pc = .syncCount j found before) (hstep : ownerStep s = some t) : Inv t := by
  have hrest (i : Fin n) : s.pc.pending i = [] ∧ ¬ s.pc.WillNotify i := by
    simp [hpc, OwnerPc.pending, OwnerPc.WillNotify]
  have howner := h.owner
  rw [hpc] at howner
  obtain ⟨hflags, hmarked, hempty⟩ := howner
  simp only [ownerStep, hpc] at hstep
  split at hstep
  · next hj =>
    simp only [Option.some.injEq] at hstep
    subst hstep
    refine h.jump _ s.program hrest (fun _ => rfl) fun hacc =>
      ⟨hflags, hmarked.congr hacc rfl fun _ hi _ => hi, fun hf i hi => ?_⟩
    split at hf
    · exact absurd hf (Nat.succ_ne_zero found)
    · next hqueue =>
      cases Nat.lt_succ_iff_lt_or_eq.mp hi with
      | inl hi => exact hempty hf i hi
      | inr hi =>
        have hij : i = ⟨j, hj⟩ := Fin.ext hi
        simpa [hij] using hqueue
  · next hj =>
    split at hstep
    · simp only [Option.some.injEq] at hstep
      subst hstep
      exact h.jump _ s.program hrest (fun _ => rfl) fun hacc => ⟨hflags,
        hmarked.congr hacc rfl fun _ hi _ => hi, fun _ i hi => absurd hi (Nat.not_lt_zero _)⟩
    · next hfound =>
      simp only [Option.some.injEq] at hstep
      subst hstep
      have hdone : Inv { s with pc := .idle } :=
        h.jump _ s.program hrest (fun _ => rfl) fun _ => hflags
      refine { hdone with synced := fun i => ?_ }
      apply h.finished_of_empty hmarked trivial
      apply hempty (not_not.mp hfound)
      have hlt := i.isLt
      omega

/-- `join` stops all workers. -/
theorem Inv.joinLock (h : Inv s) (hpc : s.pc = .joinLock) (hstep : ownerStep s = some t) :
    Inv t := by
  have howner := h.owner
  rw [hpc] at howner
  simp only [ownerStep, hpc, Option.some.injEq] at hstep
  subst hstep
  exact { h with
    jobs := fun i => by
      rw [h.jobs i]
      simp [State.accepted, State.returned, hpc, OwnerPc.pending]
    blocked := fun i _ => Or.inr (Nat.zero_le _)
    exited := fun i hi => absurd (h.exited i hi).2 (by simp [howner.1])
    owner := ⟨rfl, howner.2, fun i hi => absurd hi (Nat.not_lt_zero _)⟩ }

/-- `join` notifies the next worker, or returns when all have exited. -/
theorem Inv.joinNotify (h : Inv s) {j : ℕ} (hpc : s.pc = .joinNotify j)
    (hstep : ownerStep s = some t) : Inv t := by
  have howner := h.owner
  rw [hpc] at howner
  obtain ⟨hrunning, hjoined, hexited⟩ := howner
  simp only [ownerStep, hpc] at hstep
  split at hstep
  · next hj =>
    simp only [Option.some.injEq] at hstep
    subst hstep
    have hwake : Inv (s.wake ⟨j, hj⟩) := h.wake
    have hunblocked := State.wake_not_blocked (s := s) (i := ⟨j, hj⟩)
    obtain ⟨workers, heq⟩ := State.wake_eq (s := s) (i := ⟨j, hj⟩)
    rw [heq] at hwake hunblocked ⊢
    have hstill := hwake.owner
    change OwnerOk _ s.pc at hstill
    rw [hpc] at hstill
    refine hwake.goto rfl (fun i => ?_) rfl rfl rfl (fun i hi hn => ?_)
      ⟨hstill.1, hstill.2.1, hstill.2.2⟩
    · simp [State.accepted, State.returned, hpc, OwnerPc.pending]
    · change s.pc.WillNotify i at hn
      rw [hpc] at hn
      have hne : j ≠ i.val := by
        intro hji
        apply hunblocked
        rw [show (⟨j, hj⟩ : Fin n) = i from Fin.ext hji]
        exact hi
      exact lt_of_le_of_ne hn hne
  · next hj =>
    simp only [Option.some.injEq] at hstep
    subst hstep
    have hall (i : Fin n) : (s.workers i).pc = .exited :=
      hexited i (by have hlt := i.isLt; omega)
    exact { h with
      jobs := fun i => by
        rw [h.jobs i]
        simp [State.accepted, State.returned, hpc, OwnerPc.pending]
      blocked := fun i hi => by
        change (s.workers i).pc = .blocked at hi
        rw [hall i] at hi
        cases hi
      joined := fun _ => hall
      owner := by simp [OwnerOk, hrunning] }

/-- `join` goes on when the thread of a worker has exited. -/
theorem Inv.joinWait (h : Inv s) {j : Fin n} (hpc : s.pc = .joinWait j)
    (hstep : ownerStep s = some t) : Inv t := by
  have howner := h.owner
  rw [hpc] at howner
  obtain ⟨hrunning, hjoined, hexited⟩ := howner
  simp only [ownerStep, hpc] at hstep
  split at hstep
  · next hj =>
    simp only [Option.some.injEq] at hstep
    subst hstep
    refine h.goto rfl (fun i => ?_) rfl rfl rfl (fun i _ hn => ?_)
      ⟨hrunning, hjoined, fun i hi => ?_⟩
    · simp [State.accepted, State.returned, hpc, OwnerPc.pending]
    · rw [hpc] at hn
      exact hn
    · cases Nat.lt_succ_iff_lt_or_eq.mp hi with
      | inl hi => exact hexited i hi
      | inr hi =>
        rw [show i = j from Fin.ext hi]
        exact hj
  · cases hstep

/-- Every step of the owner keeps the invariant. -/
theorem Inv.of_ownerStep (h : Inv s) (hstep : ownerStep s = some t) : Inv t := by
  cases hpc : s.pc with
  | idle => exact h.call hpc hstep
  | push threadId job ret =>
    simp only [ownerStep, hpc, Option.some.injEq] at hstep
    exact hstep ▸ h.push hpc
  | notify threadId job ret =>
    simp only [ownerStep, hpc, Option.some.injEq] at hstep
    exact hstep ▸ h.notify hpc
  | syncSchedule j before => exact h.syncSchedule hpc hstep
  | syncCount j found before => exact h.syncCount hpc hstep
  | joinLock => exact h.joinLock hpc hstep
  | joinNotify i => exact h.joinNotify hpc hstep
  | joinWait i => exact h.joinWait hpc hstep

end Ghexbench.ThreadPool
