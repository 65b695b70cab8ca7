import Ghexbench.Common.Script

/-!
# Runs of programs with barriers

Programs that follow a script are never stuck: the participant whose next entry comes first in the script
can go on, or another one whose next entry is the same barrier. The log contains the actions of the
instructions that have been completed.
-/

namespace Ghexbench.Common

namespace Ensemble

variable {ι γ α : Type*} [DecidableEq ι] [DecidableEq γ] {E : Ensemble ι γ α}
  {s t : EnsembleState ι α} {p q : ι} {script pre post : List (Entry ι γ α)}

section Progress

omit [DecidableEq γ] in
/-- A participant that has not completed the program for a script stands before one of the entries. -/
theorem exists_entry {n : ℕ} (hlt : n < (E.project script p).length) :
    ∃ pre e post i, script = pre ++ e :: post ∧ (E.project pre p).length = n ∧ E.view p e = some i ∧
      (E.project script p)[n]? = some i := by
  induction script generalizing n with
  | nil => simp [project] at hlt
  | cons e rest ih =>
    cases he : E.view p e with
    | none =>
      have hskip : E.project (e :: rest) p = E.project rest p := by simp [project, he]
      rw [hskip] at hlt ⊢
      obtain ⟨pre, e', post, i, rfl, hlength, hview, hget⟩ := ih hlt
      exact ⟨e :: pre, e', post, i, rfl, by simpa [project, he] using hlength, hview, hget⟩
    | some i =>
      have hcons : E.project (e :: rest) p = i :: E.project rest p := by simp [project, he]
      rw [hcons] at hlt ⊢
      cases n with
      | zero => exact ⟨[], e, rest, i, rfl, rfl, he, rfl⟩
      | succ n =>
        obtain ⟨pre, e', post, j, rfl, hlength, hview, hget⟩ := ih (by simpa using hlt)
        refine ⟨e :: pre, e', post, j, rfl, ?_, hview, by simpa using hget⟩
        simpa [project, he] using hlength

/-- The participant stands before the entry after the beginning of a script. -/
def StandsBefore (E : Ensemble ι γ α) (s : EnsembleState ι α) (p : ι) (pre : List (Entry ι γ α)) : Prop :=
  (E.project pre p).length = s.done p

omit [DecidableEq γ] in
/-- The next instruction of a participant is what it sees of the entry it stands before. -/
theorem Follows.instr_eq {e : Entry ι γ α} {i : Instr γ α} (h : E.Follows (pre ++ e :: post))
    (hp : p ∈ E.members) (hat : E.StandsBefore s p pre) (hview : E.view p e = some i) :
    (E.prog p)[s.done p]? = some i := by
  rw [h.prog p hp, ← hat, project_append, List.getElem?_append_right le_rfl, Nat.sub_self]
  simp [project, hview]

/-- At the end of a run a participant that stands before an action would perform it, and one that stands
before a barrier is inside. -/
theorem Follows.inside_of_stuck {e : Entry ι γ α} {i : Instr γ α} (h : E.Follows (pre ++ e :: post))
    (hp : p ∈ E.members) (hstuck : ∀ q, E.next s q = none) (hat : E.StandsBefore s p pre)
    (hview : E.view p e = some i) : ∃ g, e = .sync g ∧ p ∈ E.group g ∧ s.inside p = true := by
  have hget := h.instr_eq hp hat hview
  have hnone := hstuck p
  simp only [next, if_pos hp, hget] at hnone
  cases e with
  | act q a =>
    simp only [view, Option.ite_none_right_eq_some, Option.some.injEq] at hview
    rw [← hview.2] at hnone
    cases hnone
  | sync g =>
    simp only [view, Option.ite_none_right_eq_some, Option.some.injEq] at hview
    rw [← hview.2] at hnone
    refine ⟨g, rfl, hview.1, ?_⟩
    by_contra hout
    simp only [if_pos (eq_false_of_ne_true hout), reduceCtorEq] at hnone

/-- At the end of a run a participant that is inside a barrier waits for a member that has not entered. -/
theorem Follows.waits_of_stuck {g : γ} (h : E.Follows (pre ++ .sync g :: post))
    (hstuck : ∀ q, E.next s q = none) (hat : E.StandsBefore s p pre) (hp : p ∈ E.group g)
    (hin : s.inside p = true) : ∃ m ∈ E.group g, E.entered s m g ≤ pre.countP (Entry.isSync g) := by
  have hmember := h.group g hp
  have hview : E.view p (.sync g) = some (.sync g) := by simp [view, hp]
  have hget := h.instr_eq hmember hat hview
  have hdeparted : E.departed s p g = pre.countP (Entry.isSync g) := by
    rw [departed, h.prog p hmember, project_append, ← hat, List.take_left', countP_project hp]
    rfl
  have hnone := hstuck p
  simp only [next, if_pos hmember, hget, hin, Bool.true_eq_false, if_false] at hnone
  by_contra hall
  push Not at hall
  rw [if_pos fun m hm => hdeparted ▸ hall m hm] at hnone
  cases hnone

/-- Programs that follow a script are never stuck before their end. -/
theorem Follows.done_of_stuck (h : E.Follows script) (hstuck : ∀ q, E.next s q = none)
    (hp : p ∈ E.members) : (E.project script p).length ≤ s.done p := by
  by_contra hlt
  obtain ⟨pre, e, post, i, rfl, hat, hview, -⟩ := exists_entry (not_le.mp hlt)
  -- the participants that stand before the earliest entry do not wait for others
  induction hn : pre.length using Nat.strongRecOn generalizing p pre e post i with
  | ind n ih =>
    obtain ⟨g, rfl, hgroup, hin⟩ := h.inside_of_stuck hp hstuck hat hview
    obtain ⟨m, hm, hle⟩ := h.waits_of_stuck hstuck hat hgroup hin
    have hmember := h.group g hm
    have hviewm : E.view m (.sync g) = some (.sync g) := by simp [view, hm]
    rcases Nat.lt_trichotomy (s.done m) (E.project pre m).length with hless | hsame | hmore
    · obtain ⟨pre', e', post', i', rfl, hat', hview', -⟩ := exists_entry hless
      have hassoc : pre' ++ e' :: post' ++ Entry.sync g :: post =
          pre' ++ e' :: (post' ++ Entry.sync g :: post) := by simp
      have hbound : ¬ (E.project (pre' ++ e' :: (post' ++ Entry.sync g :: post)) m).length ≤
          s.done m := by
        rw [project_append]
        simp [project, hview', ← hat']
      rw [hassoc] at h
      exact ih pre'.length (by rw [← hn]; simp) hmember pre' e' _ i' h hbound hat' hview' rfl
    · obtain ⟨g', heq, -, hinm⟩ := h.inside_of_stuck hmember hstuck hsame.symm hviewm
      have hentered : E.entered s m g = pre.countP (Entry.isSync g) + 1 := by
        rw [entered, hinm, h.prog m hmember, project_append, hsame, Bool.toNat_true,
          List.take_length_add_append, List.countP_append, countP_project hm]
        simp [project, hviewm, Instr.isSync]
      omega
    · have hpassed : E.Passed s m (pre ++ [.sync g]) := by
        unfold Passed
        rw [project_append, List.length_append]
        simp only [project, List.filterMap_cons, hviewm, List.filterMap_nil, List.length_singleton]
        exact hmore
      have hassoc : pre ++ Entry.sync g :: post = pre ++ [.sync g] ++ post := by simp
      rw [hassoc] at h
      have hdeparted := h.departed_of_passed hm hpassed
      rw [List.countP_append] at hdeparted
      have hone : ([Entry.sync g] : List (Entry ι γ α)).countP (Entry.isSync g) = 1 := by
        simp [Entry.isSync]
      have hmono : E.departed s m g ≤ E.entered s m g :=
        (List.take_prefix_take_left (Nat.le_add_right _ _)).sublist.countP_le
      omega

end Progress

section Log

omit [DecidableEq γ] [DecidableEq ι] in
/-- The action of an instruction. -/
def actOf : Instr γ α → Option α
  | .act a => some a
  | .sync _ => none

omit [DecidableEq γ] [DecidableEq ι] in
/-- The actions of a script. -/
def acts (script : List (Entry ι γ α)) : List (ι × α) :=
  script.filterMap fun
    | .act p a => some (p, a)
    | .sync _ => none

/-- The log contains the actions of the instructions that have been completed. -/
theorem Reached.log_filter (h : E.Reached s) (q : ι) :
    (s.log.filter fun x => x.1 = q).map Prod.snd = ((E.prog q).take (s.done q)).filterMap actOf := by
  revert q
  apply Reachable.invariant _ _ h
  · intro s₀ hs₀ q
    subst hs₀
    simp [EnsembleState.init]
  · rintro s t hlog ⟨p, hstep⟩ q
    have hmove := (moves_of_next hstep).2
    cases hmove with
    | @act a hinstr =>
      rw [List.filter_append, List.map_append, hlog]
      by_cases hq : q = p
      · subst hq
        simp only [Function.update_self]
        rw [List.take_add_one, hinstr, List.filterMap_append]
        simp [actOf]
      · simp only [Function.update_of_ne hq]
        simp [Ne.symm hq]
    | enter hinstr hout => exact hlog q
    | @leave g hinstr hin hall =>
      rw [hlog]
      by_cases hq : q = p
      · subst hq
        simp only [Function.update_self]
        rw [List.take_add_one, hinstr, List.filterMap_append]
        simp [actOf]
      · simp only [Function.update_of_ne hq]

/-- The log contains an action if and only if its instruction has been completed. -/
theorem Reached.mem_log_iff (h : E.Reached s) {a : α} :
    (p, a) ∈ s.log ↔ Instr.act a ∈ (E.prog p).take (s.done p) := by
  have hfilter : (p, a) ∈ s.log ↔ a ∈ (s.log.filter fun x => x.1 = p).map Prod.snd := by
    simp [List.mem_map, List.mem_filter]
  rw [hfilter, h.log_filter, List.mem_filterMap]
  constructor
  · rintro ⟨i, hi, hact⟩
    cases i with
    | act b =>
      obtain rfl : b = a := Option.some.inj hact
      exact hi
    | sync g => cases hact
  · exact fun hi => ⟨.act a, hi, rfl⟩

/-- Whoever has performed an action that does not belong to the beginning of a script has passed the
beginning. -/
theorem Reached.passed_of_mem_log (h : E.Reached s) (hf : E.Follows (pre ++ post)) {a : α}
    (hp : p ∈ E.members) (hlog : (p, a) ∈ s.log) (hnot : Entry.act p a ∉ pre) : E.Passed s p pre := by
  by_contra hless
  have hmem := h.mem_log_iff.mp hlog
  rw [hf.prog p hp, project_append, List.take_append_of_le_length (not_le.mp hless).le] at hmem
  exact hnot (act_mem_project.mp (List.mem_of_mem_take hmem))

/-- Whoever has passed the beginning of a script has performed its actions. -/
theorem Reached.mem_log_of_passed (h : E.Reached s) (hf : E.Follows (pre ++ post)) {a : α}
    (hp : p ∈ E.members) (hpassed : E.Passed s p pre) (hact : Entry.act p a ∈ pre) : (p, a) ∈ s.log := by
  rw [h.mem_log_iff, hf.prog p hp, project_append]
  have hprefix : E.project pre p <+: (E.project pre p ++ E.project post p).take (s.done p) :=
    List.prefix_take_iff.mpr ⟨List.prefix_append _ _, hpassed⟩
  exact hprefix.sublist.subset (act_mem_project.mpr hact)

end Log

end Ensemble

end Ghexbench.Common
