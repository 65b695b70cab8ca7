import Ghexbench.Common.Loops
import Ghexbench.Sync.ThreadPoolCollective

/-!
# Rounds of jobs

The programs of the benchmarks schedule the same jobs for all workers, call `sync` in between, and `join` at
the end. Every worker then runs the jobs of all rounds in order, and the rounds do not overlap.
-/

namespace Ghexbench.ThreadPool

open Ghexbench.Common

variable {J : Type*} {n : ℕ}

/-- A loop over the workers that schedules the same jobs for each. -/
def forEach (n : ℕ) (jobs : List J) : List (Call J n) :=
  (List.finRange n).flatMap fun i => jobs.map (Call.schedule i)

/-- The jobs that a worker has taken from its queue, in this order. -/
def Worker.taken (w : Worker J) : List (Job J) := w.finished.map Prod.fst ++ w.current

variable {s : State J n} {calls : List (Call J n)} {jobs : List J} {collective : J → Bool} {i : Fin n}

section Given

/-- What a worker is given by such a loop. -/
theorem given_forEach (i : Fin n) (jobs : List J) : given i (forEach n jobs) = jobs.map Job.user := by
  have hpart (j : Fin n) : given i (jobs.map (Call.schedule j)) =
      if j = i then jobs.map Job.user else [] := by
    rw [given, List.flatMap_map]
    split
    · next hj =>
      simp only [Call.given, hj, if_true]
      exact List.map_eq_flatMap.symm
    · next hj => simp [Call.given, hj]
  have hparts : given i (forEach n jobs) =
      (List.finRange n).flatMap fun j => given i (jobs.map (Call.schedule j)) := List.flatMap_assoc
  rw [hparts]
  simp only [hpart]
  exact flatMap_ite_eq (List.nodup_finRange n) (List.mem_finRange i) fun _ => jobs.map Job.user

/-- What a worker is given by `sync`. -/
theorem given_sync (i : Fin n) : given i [.sync] = ([.noop] : List (Job J)) := rfl

/-- Such a loop calls `schedule` only. -/
theorem eq_schedule_of_mem_forEach {call : Call J n} (h : call ∈ forEach n jobs) :
    ∃ i job, call = .schedule i job := by
  obtain ⟨i, -, hcall⟩ := List.mem_flatMap.mp h
  obtain ⟨job, -, rfl⟩ := List.mem_map.mp hcall
  exact ⟨i, job, rfl⟩

/-- Such a loop does not join the pool. -/
theorem join_not_mem_forEach : (.join : Call J n) ∉ forEach n jobs := by
  intro h
  obtain ⟨i, job, hcall⟩ := eq_schedule_of_mem_forEach h
  cases hcall

/-- Such a loop does not call `sync`. -/
theorem sync_not_mem_forEach : (.sync : Call J n) ∉ forEach n jobs := by
  intro h
  obtain ⟨i, job, hcall⟩ := eq_schedule_of_mem_forEach h
  cases hcall

/-- Without calls nothing is given. -/
theorem balanced_nil : Balanced ([] : List (Call J n)) where
  whole _ _ := rfl
  sync pre post h := by simp at h

/-- One more loop. -/
theorem Balanced.forEach (h : Balanced calls) (jobs : List J) : Balanced (calls ++ forEach n jobs) where
  whole i j := by
    rw [given_append, given_append, given_forEach, given_forEach, h.whole i j]
  sync pre post heq := by
    rcases List.append_eq_append_iff.mp heq with ⟨mid, rfl, hmid⟩ | ⟨mid, rfl, hmid⟩
    · refine absurd (?_ : .sync ∈ Ghexbench.ThreadPool.forEach n jobs) sync_not_mem_forEach
      rw [hmid]
      simp
    · cases mid with
      | nil =>
        refine absurd (?_ : .sync ∈ Ghexbench.ThreadPool.forEach n jobs) sync_not_mem_forEach
        rw [List.nil_append] at hmid
        rw [← hmid]
        simp
      | cons call mid =>
        rw [List.cons_append, List.cons.injEq] at hmid
        obtain ⟨rfl, -⟩ := hmid
        exact h.sync pre mid rfl

/-- One more `sync`. -/
theorem Balanced.sync' (h : Balanced calls) : Balanced (calls ++ [.sync]) where
  whole i j := by rw [given_append, given_append, given_sync, given_sync, h.whole i j]
  sync pre post heq := by
    rcases List.append_eq_append_iff.mp heq with ⟨mid, rfl, hmid⟩ | ⟨mid, rfl, hmid⟩
    · cases mid with
      | nil => simpa using h.whole
      | cons call mid => simp at hmid
    · cases mid with
      | nil => simpa using h.whole
      | cons call mid =>
        rw [List.cons_append, List.cons.injEq] at hmid
        obtain ⟨rfl, -⟩ := hmid
        exact h.sync pre mid rfl

end Given

section Runs

/-- The jobs that a worker has begun. -/
theorem length_taken (w : Worker J) : w.taken.length = w.begun := by
  simp [Worker.taken, Worker.begun]

/-- What a worker has taken is part of what it has been given. -/
theorem taken_isPrefix (hjoin : .join ∉ calls) (h : Reached (calls ++ [.join]) s) (i : Fin n) :
    (s.workers i).taken <+: given i calls := by
  refine List.IsPrefix.trans ?_ (accepted_isPrefix hjoin h i)
  rw [← h.inv.jobs i, Worker.jobs]
  exact List.prefix_append _ _

/-- When a worker has taken more jobs than it is given up to a `sync`, all workers have finished the jobs in
front of it. -/
theorem finished_of_taken {pre post : List (Call J n)} (hpre : calls = pre ++ .sync :: post)
    (hjoin : .join ∉ calls) (h : Reached (calls ++ [.join]) s)
    (hi : (given i (pre ++ [.sync])).length < (s.workers i).taken.length) (j : Fin n) :
    given j pre <+: (s.workers j).finished.map Prod.fst := by
  have hprogram : calls ++ [.join] = pre ++ .sync :: (post ++ [.join]) := by
    rw [hpre, List.append_assoc, List.cons_append]
  have hjoin' : .join ∉ pre := fun hmem => hjoin (by rw [hpre]; simp [hmem])
  apply finished_of_accepted hjoin' hprogram h (hi.trans_le _)
  rw [← h.inv.jobs i, Worker.jobs, Worker.taken]
  exact (List.prefix_append _ _).length_le

/-- When a worker has taken a job behind a collective one, all workers have taken the latter. -/
theorem CollectiveReached.taken (h : CollectiveReached collective (calls ++ [.join]) s)
    (hjoin : .join ∉ calls) {k : ℕ} {job : J} (hk : (given i calls)[k]? = some (.user job)) (hcollective : collective job = true)
    (hi : k + 1 < (s.workers i).taken.length) (j : Fin n) : k < (s.workers j).taken.length := by
  have hcurrent : (s.workers i).current.length ≤ 1 := by
    unfold Worker.current
    split <;> simp
  have hlength : k < (s.workers i).finished.length := by
    rw [Worker.taken, List.length_append, List.length_map] at hi
    omega
  obtain ⟨tail, htail⟩ := taken_isPrefix hjoin h.reached i
  have hfinished : ((s.workers i).finished[k]?).map Prod.fst = some (.user job) := by
    rw [← hk, ← htail, List.getElem?_append_left (by omega), Worker.taken,
      List.getElem?_append_left (by rwa [List.length_map]), List.getElem?_map]
  obtain ⟨r, hr, hjob⟩ := Option.map_eq_some_iff.mp hfinished
  rw [length_taken]
  exact h.waited i k r hr job hjob hcollective j

/-- Every worker takes what it is given, in order, and calls it with its own id; at the end everything is
finished; and until then somebody can go on. -/
theorem CollectiveReached.orderly (h : CollectiveReached collective (calls ++ [.join]) s)
    (hjoin : .join ∉ calls) (hbalanced : Balanced calls) :
    (∀ i, (s.workers i).taken <+: given i calls ∧ ∀ r ∈ (s.workers i).finished, r.2 = i.val) ∧
    (s.pc = .idle → s.program = [] → ∀ i, (s.workers i).pc = .exited ∧
      (s.workers i).finished.map Prod.fst = given i calls) ∧
    ((s.pc = .idle → s.program ≠ []) →
      (∃ i t, MayEnd collective s (.worker i) ∧ workerStep s i = some t) ∨
        ((∃ t, ownerStep s = some t) ∧ ¬ s.Polling)) :=
  ⟨fun i => ⟨taken_isPrefix hjoin h.reached i, h.reached.inv.ids i⟩,
    fun hidle hprogram i => finished_at_end hjoin h.reached hidle hprogram i,
    fun hdone => collective_progress hjoin hbalanced h.reached hdone⟩

/-- Jobs that have been taken, one of which is not among the first ones, are more than these. -/
theorem lt_length_of_mem {l l' : List (Job J)} {job : Job J} {k : ℕ} (hbegin : l' <+: l)
    (hmem : job ∈ l') (hnot : job ∉ l.take k) : k < l'.length := by
  by_contra hle
  have hfirst : l' <+: l.take k := List.prefix_take_iff.mpr ⟨hbegin, Nat.le_of_not_lt hle⟩
  exact hnot (hfirst.mem hmem)

/-- Jobs that have been taken are more than those in front of one that is still missing. -/
theorem mem_of_lt_length {l l' : List (Job J)} {job : Job J} {k : ℕ} (hbegin : l' <+: l)
    (hk : l[k]? = some job) (hlt : k < l'.length) : job ∈ l' := by
  obtain ⟨tail, rfl⟩ := hbegin
  rw [List.getElem?_append_left hlt] at hk
  exact List.mem_of_getElem? hk

/-- When a worker has taken a job that first comes behind a `sync`, all workers have finished the jobs in
front of it. -/
theorem finished_of_mem_taken {pre post : List (Call J n)} {job : Job J} (hpre : calls = pre ++ .sync :: post)
    (hjoin : .join ∉ calls) (h : Reached (calls ++ [.join]) s) (hjob : job ∈ (s.workers i).taken)
    (hnot : job ∉ given i (pre ++ [.sync])) (j : Fin n) :
    given j pre <+: (s.workers j).finished.map Prod.fst := by
  apply finished_of_taken hpre hjoin h
  have hgiven : given i calls = given i (pre ++ [.sync]) ++ given i post := by
    rw [hpre, List.append_cons, given_append]
  refine lt_length_of_mem (taken_isPrefix hjoin h i) hjob ?_
  rwa [hgiven, List.take_left]

/-- When a worker has taken a job that comes behind a collective one only, all workers have taken the
latter. -/
theorem CollectiveReached.mem_taken (h : CollectiveReached collective (calls ++ [.join]) s)
    (hjoin : .join ∉ calls) {k : ℕ} {job : J} (hk : ∀ i, (given i calls)[k]? = some (.user job))
    (hcollective : collective job = true) {later : Job J} (hlater : later ∈ (s.workers i).taken)
    (hnot : later ∉ (given i calls).take (k + 1)) (j : Fin n) : .user job ∈ (s.workers j).taken := by
  have hi := lt_length_of_mem (taken_isPrefix hjoin h.reached i) hlater hnot
  exact mem_of_lt_length (taken_isPrefix hjoin h.reached j) (hk j) (h.taken hjoin (hk i) hcollective hi j)

end Runs

end Ghexbench.ThreadPool
