import Ghexbench.Common.ScriptRuns

/-!
# Scripts whose actions are ordered

If every action of some kind in a script is informed of the actions of this kind before it, then these
actions happen in the order of the script, in every run of programs that follow it. To see that a script
is so it is enough to go through it once and to keep track of the participants that are informed of the
latest action.
-/

namespace Ghexbench.Common

namespace Ensemble

variable {ι γ α : Type*} [DecidableEq ι] [DecidableEq γ] {E : Ensemble ι γ α} {P : ι × α → Bool}
  {s t : EnsembleState ι α} {p q : ι} {script pre mid post : List (Entry ι γ α)}

section Performed

/-- Every action of a kind is informed of the actions of this kind before it. -/
def Sequential (E : Ensemble ι γ α) (P : ι × α → Bool) (script : List (Entry ι γ α)) : Prop :=
  ∀ pre p a mid q b post, script = pre ++ .act p a :: (mid ++ .act q b :: post) → P (p, a) = true →
    P (q, b) = true → q ∈ E.informed {p} mid

/-- Of the actions of a kind, those of the beginning of a script have been performed, in this order, and
no others. -/
structure Performed (E : Ensemble ι γ α) (P : ι × α → Bool) (s : EnsembleState ι α)
    (pre post : List (Entry ι γ α)) : Prop where
  log : s.log.filter P = (acts pre).filter P
  passed : ∀ l p a r, pre = l ++ .act p a :: r → P (p, a) = true → E.Passed s p (l ++ [.act p a])
  ahead : ∀ l p a r, post = l ++ .act p a :: r → P (p, a) = true →
    ¬ E.Passed s p (pre ++ l ++ [.act p a])

omit [DecidableEq γ] in
/-- An action is part of the program of its participant. -/
theorem length_project_act (pre : List (Entry ι γ α)) (p : ι) (a : α) :
    (E.project (pre ++ [.act p a]) p).length = (E.project pre p).length + 1 := by
  rw [project_append, List.length_append]
  simp [project, view]

omit [DecidableEq γ] in
/-- A participant completes an instruction that is no action of the kind. -/
theorem Performed.skip {i : Instr γ α} (h : E.Performed P s pre post) (hf : E.Follows (pre ++ post))
    (hp : p ∈ E.members) (hinstr : (E.prog p)[s.done p]? = some i)
    (hi : ∀ a, i = .act a → P (p, a) = false)
    (hdone : t.done = Function.update s.done p (s.done p + 1))
    (hlog : t.log.filter P = s.log.filter P) : E.Performed P t pre post where
  log := hlog.trans h.log
  passed l q a r heq ha := by
    have hpassed := h.passed l q a r heq ha
    unfold Passed at hpassed ⊢
    rw [hdone]
    by_cases hq : q = p
    · subst hq
      simp only [Function.update_self]
      omega
    · simpa only [Function.update_of_ne hq] using hpassed
  ahead l q a r heq ha := by
    have hahead := h.ahead l q a r heq ha
    unfold Passed at hahead ⊢
    rw [hdone]
    by_cases hq : q = p
    · subst hq
      simp only [Function.update_self]
      intro hle
      -- the instruction would be the action itself
      rw [length_project_act] at hahead hle
      have hat : E.StandsBefore s q (pre ++ l) := by
        unfold StandsBefore
        omega
      subst heq
      rw [← List.append_assoc] at hf
      have hact := hf.instr_eq hp hat (show E.view q (.act q a) = some (.act a) by simp [view])
      rw [hinstr, Option.some.injEq] at hact
      rw [hi a hact] at ha
      cases ha
    · simpa only [Function.update_of_ne hq] using hahead

omit [DecidableEq γ] [DecidableEq ι] in
/-- The actions of a kind in a part of a script that contains none. -/
theorem filter_acts_eq_nil (h : ∀ l q b r, mid = l ++ .act q b :: r → P (q, b) = false) :
    (acts mid).filter P = [] := by
  rw [List.filter_eq_nil_iff]
  rintro ⟨q, b⟩ hmem hP
  obtain ⟨e, he, hact⟩ := List.mem_filterMap.mp hmem
  obtain ⟨l, r, heq⟩ := List.append_of_mem he
  cases e with
  | act q' b' =>
    simp only [Option.some.injEq] at hact
    rw [← hact, h l q' b' r heq] at hP
    cases hP
  | sync g => cases hact

omit [DecidableEq γ] [DecidableEq ι] in
/-- The actions of a kind in the beginning of a script up to an action are those before, and this one. -/
theorem act_of_append {a b : α} {l r : List (Entry ι γ α)}
    (hmid : ∀ l q b r, mid = l ++ .act q b :: r → P (q, b) = false)
    (h : pre ++ mid ++ [.act p a] = l ++ .act q b :: r) (hP : P (q, b) = true) :
    (l = pre ++ mid ∧ q = p ∧ b = a) ∨ ∃ r', pre = l ++ .act q b :: r' := by
  rcases List.append_eq_append_iff.mp h with ⟨m, hl, hm⟩ | ⟨m, hm, hr⟩
  · cases m with
    | cons e m => simp at hm
    | nil =>
      simp only [List.nil_append, List.cons.injEq, Entry.act.injEq] at hm
      exact Or.inl ⟨by simpa using hl, hm.1.1.symm, hm.1.2.symm⟩
  · cases m with
    | nil =>
      simp only [List.nil_append, List.cons.injEq, Entry.act.injEq] at hr
      exact Or.inl ⟨by simpa using hm.symm, hr.1.1, hr.1.2⟩
    | cons e m =>
      rw [List.cons_append, List.cons.injEq] at hr
      obtain ⟨rfl, -⟩ := hr
      have hnot (m' : List (Entry ι γ α)) : mid ≠ m' ++ .act q b :: m := by
        intro heq
        rw [hmid m' q b m heq] at hP
        cases hP
      rcases List.append_eq_append_iff.mp hm with ⟨m', hl, hm'⟩ | ⟨m', hpre, hr'⟩
      · exact absurd hm' (hnot m')
      · cases m' with
        | nil => exact absurd hr'.symm (hnot [])
        | cons e' m' =>
          rw [List.cons_append, List.cons.injEq] at hr'
          exact Or.inr ⟨m', by rw [hpre, ← hr'.1]⟩

/-- A participant that stands before an action of the kind has not passed by another one. -/
theorem Performed.act_first {a : α} (h : E.Performed P s pre (mid ++ .act p a :: post))
    (hf : E.Follows (pre ++ (mid ++ .act p a :: post)))
    (hseq : E.Sequential P (pre ++ (mid ++ .act p a :: post))) (hfair : E.Fair s)
    (hat : E.StandsBefore s p (pre ++ mid)) (ha : P (p, a) = true) (l : List (Entry ι γ α)) (q : ι)
    (b : α) (r : List (Entry ι γ α)) (heq : mid = l ++ .act q b :: r) : P (q, b) = false := by
  by_contra hb
  subst heq
  have hsplit : pre ++ (l ++ .act q b :: r ++ .act p a :: post) =
      (pre ++ l) ++ .act q b :: (r ++ .act p a :: post) := by simp
  have hsplit' : pre ++ (l ++ .act q b :: r ++ .act p a :: post) =
      (pre ++ l ++ [.act q b]) ++ r ++ .act p a :: post := by simp
  have hinformed : p ∈ E.informed {q} r :=
    hseq (pre ++ l) q b r p a post hsplit (eq_true_of_ne_false hb) ha
  have hpre : pre ++ l ++ [Entry.act q b] ++ r = pre ++ (l ++ .act q b :: r) := by simp
  rw [hsplit'] at hf
  apply h.ahead l q b (r ++ .act p a :: post) (by simp) (eq_true_of_ne_false hb)
  apply hf.passed_of_informed hfair hinformed
  rw [hpre]
  exact hat.le

omit [DecidableEq γ] in
/-- A participant performs the next action of the kind. -/
theorem Performed.act {a : α} (h : E.Performed P s pre (mid ++ .act p a :: post))
    (hmid : ∀ l q b r, mid = l ++ .act q b :: r → P (q, b) = false)
    (hat : E.StandsBefore s p (pre ++ mid)) :
    E.Performed P { s with done := Function.update s.done p (s.done p + 1), log := s.log ++ [(p, a)] }
      (pre ++ mid ++ [.act p a]) post where
  log := by
    have happend : acts (pre ++ mid ++ [.act p a]) = acts pre ++ acts mid ++ [(p, a)] := by
      simp [acts]
    rw [happend, List.filter_append, List.filter_append, List.filter_append, filter_acts_eq_nil hmid,
      List.append_nil, h.log]
  passed l q b r heq hb := by
    rcases act_of_append hmid heq hb with ⟨rfl, rfl, rfl⟩ | ⟨r', hpre⟩
    · unfold Passed
      rw [length_project_act, hat]
      simp
    · have hpassed := h.passed l q b r' hpre hb
      unfold Passed at hpassed ⊢
      by_cases hq : q = p
      · subst hq
        simp only [Function.update_self]
        omega
      · simpa only [Function.update_of_ne hq] using hpassed
  ahead l q b r heq hb := by
    have hahead := h.ahead (mid ++ .act p a :: l) q b r (by simp [heq]) hb
    have hassoc : pre ++ (mid ++ .act p a :: l) ++ [Entry.act q b] =
        pre ++ mid ++ [.act p a] ++ l ++ [.act q b] := by simp
    rw [hassoc] at hahead
    unfold Passed at hahead ⊢
    by_cases hq : q = p
    · subst hq
      simp only [Function.update_self]
      rw [length_project_act, project_append, List.length_append, length_project_act, hat]
      omega
    · simpa only [Function.update_of_ne hq] using hahead

omit [DecidableEq γ] in
/-- An action of the kind that has been performed is not the next instruction of its participant. -/
theorem Performed.not_performed {a : α} {A B : List (Entry ι γ α)} (h : E.Performed P s pre post)
    (heq : pre ++ post = A ++ .act p a :: B) (hat : E.StandsBefore s p A) (ha : P (p, a) = true) :
    ∃ mid, A = pre ++ mid ∧ post = mid ++ .act p a :: B := by
  rcases List.append_eq_append_iff.mp heq with ⟨m, hA, hpost⟩ | ⟨m, hpre, hm⟩
  · exact ⟨m, hA, hpost⟩
  · cases m with
    | nil => exact ⟨[], by simpa using hpre.symm, hm.symm⟩
    | cons e m =>
      rw [List.cons_append, List.cons.injEq] at hm
      obtain ⟨rfl, -⟩ := hm
      have hpassed := h.passed A p a m hpre ha
      unfold Passed at hpassed
      rw [length_project_act, hat] at hpassed
      omega

/-- Every step performs the next action of the kind, if any. -/
theorem Performed.step (h : E.Performed P s pre post) (hf : E.Follows (pre ++ post))
    (hseq : E.Sequential P (pre ++ post)) (hfair : E.Fair s) (hstep : E.next s p = some t) :
    ∃ pre' post', pre ++ post = pre' ++ post' ∧ E.Performed P t pre' post' := by
  obtain ⟨hp, hmove⟩ := moves_of_next hstep
  cases hmove with
  | enter hinstr hout => exact ⟨pre, post, rfl, ⟨h.log, h.passed, h.ahead⟩⟩
  | leave hinstr hin hall =>
    exact ⟨pre, post, rfl, h.skip hf hp hinstr (fun a ha => by cases ha) rfl rfl⟩
  | @act a hinstr =>
    by_cases ha : P (p, a) = true
    · have hlt := (List.getElem?_eq_some_iff.mp hinstr).1
      have hprog := hinstr
      rw [hf.prog p hp] at hprog hlt
      obtain ⟨A, e, B, i, heq, hat, hview, hget⟩ := exists_entry hlt
      rw [hprog] at hget
      obtain rfl := Option.some.inj hget
      cases e with
      | sync g => simp [view] at hview
      | act q b =>
        simp only [view, Option.ite_none_right_eq_some, Option.some.injEq, Instr.act.injEq] at hview
        obtain ⟨rfl, rfl⟩ := hview
        obtain ⟨mid, rfl, rfl⟩ := h.not_performed heq hat ha
        refine ⟨pre ++ mid ++ [.act p b], B, by simp, ?_⟩
        exact h.act (h.act_first hf hseq hfair hat ha) hat
    · have hother (b : α) (hb : Instr.act a = (.act b : Instr γ α)) : P (p, b) = false := by
        rw [Instr.act.injEq] at hb
        exact hb ▸ eq_false_of_ne_true ha
      refine ⟨pre, post, rfl, h.skip hf hp hinstr hother rfl ?_⟩
      simp [List.filter_append, ha]

/-- In every run the actions of the beginning of the script have been performed. -/
theorem Reached.performed (h : E.Reached s) (hf : E.Follows script) (hseq : E.Sequential P script) :
    ∃ pre post, script = pre ++ post ∧ E.Performed P s pre post := by
  have hinv : E.Reached s ∧ ∃ pre post, script = pre ++ post ∧ E.Performed P s pre post := by
    apply Reachable.invariant _ _ h
    · intro s₀ hs₀
      refine ⟨Reachable.initial hs₀, [], script, rfl, ?_⟩
      subst hs₀
      refine ⟨rfl, fun l p a r heq => by simp at heq, fun l p a r heq _ => ?_⟩
      unfold Passed
      rw [List.nil_append, length_project_act]
      exact Nat.not_succ_le_zero _
    · rintro s t ⟨hs, pre, post, rfl, hperformed⟩ ⟨p, hstep⟩
      exact ⟨hs.tail ⟨p, hstep⟩, hperformed.step hf hseq hs.fair hstep⟩
  exact hinv.2

/-- The actions of the kind happen in the order of the script. -/
theorem Reached.log_prefix (h : E.Reached s) (hf : E.Follows script) (hseq : E.Sequential P script) :
    s.log.filter P <+: (acts script).filter P := by
  obtain ⟨pre, post, rfl, hperformed⟩ := h.performed hf hseq
  rw [hperformed.log, acts, acts, List.filterMap_append, List.filter_append]
  exact List.prefix_append _ _

/-- When the beginning of the script has been passed by everybody, its actions have all happened. -/
theorem Reached.prefix_log (h : E.Reached s) (hf : E.Follows (pre ++ post))
    (hseq : E.Sequential P (pre ++ post)) (hpassed : ∀ q ∈ E.members, E.Passed s q pre) :
    (acts pre).filter P <+: s.log.filter P := by
  obtain ⟨pre', post', heq, hperformed⟩ := h.performed hf hseq
  rw [hperformed.log]
  rcases List.append_eq_append_iff.mp heq with ⟨m, rfl, -⟩ | ⟨m, rfl, rfl⟩
  · rw [acts, acts, List.filterMap_append, List.filter_append]
    exact List.prefix_append _ _
  · have hnone (l : List (Entry ι γ α)) (q : ι) (b : α) (r : List (Entry ι γ α))
        (hm : m = l ++ .act q b :: r) : P (q, b) = false := by
      by_contra hb
      have hsplit : pre' ++ m = pre' ++ l ++ [.act q b] ++ r := by simp [hm]
      have hmember := hf.act q b (by simp [hm])
      apply hperformed.ahead l q b (r ++ post) (by simp [hm]) (eq_true_of_ne_false hb)
      exact Passed.of_append (hsplit ▸ hpassed q hmember)
    have hm := filter_acts_eq_nil hnone
    unfold acts at hm
    rw [acts, acts, List.filterMap_append, List.filter_append, hm, List.append_nil]

end Performed

section Chains

variable {known known' : Finset ι}

omit [DecidableEq γ] in
/-- The participants that are informed of the latest action of the kind, after an entry. -/
def hold (E : Ensemble ι γ α) (P : ι × α → Bool) (known : Finset ι) : Entry ι γ α → Finset ι
  | .act p a => if P (p, a) = true then {p} else known
  | .sync g => E.spread known (.sync g)

omit [DecidableEq γ] in
/-- Every action of the kind is performed by somebody who is informed of the latest one. -/
def Chained (E : Ensemble ι γ α) (P : ι × α → Bool) : Finset ι → List (Entry ι γ α) → Prop
  | _, [] => True
  | known, .act p a :: rest => (P (p, a) = true → p ∈ known) ∧ E.Chained P (E.hold P known (.act p a)) rest
  | known, .sync g :: rest => E.Chained P (E.spread known (.sync g)) rest

omit [DecidableEq γ] in
/-- A chain in two parts. -/
theorem chained_append (known : Finset ι) (l l' : List (Entry ι γ α)) :
    E.Chained P known (l ++ l') ↔ E.Chained P known l ∧ E.Chained P (l.foldl (E.hold P) known) l' := by
  induction l generalizing known with
  | nil => simp [Chained]
  | cons e rest ih =>
    cases e with
    | act p a => simp only [List.cons_append, Chained, ih, List.foldl_cons, and_assoc]
    | sync g => exact ih _

omit [DecidableEq γ] in
/-- A part of a script that contains no action of the kind. -/
theorem chained_of_not (h : ∀ q b, .act q b ∈ mid → P (q, b) = false) (known : Finset ι) :
    E.Chained P known mid ∧ mid.foldl (E.hold P) known = E.informed known mid := by
  induction mid generalizing known with
  | nil => exact ⟨trivial, rfl⟩
  | cons e rest ih =>
    have hrest := ih fun q b hmem => h q b (List.mem_cons_of_mem _ hmem)
    cases e with
    | act p a =>
      have ha := h p a List.mem_cons_self
      have hhold : E.hold P known (.act p a) = known := by simp [hold, ha]
      refine ⟨⟨fun h => absurd (ha.symm.trans h) Bool.false_ne_true, hhold.symm ▸ (hrest known).1⟩, ?_⟩
      rw [List.foldl_cons, hhold]
      exact (hrest known).2
    | sync g => exact hrest _

omit [DecidableEq γ] in
/-- A chain of parts that all keep an invariant of what is known. -/
theorem chained_flatMap {κ : Type*} {l : List κ} {f : κ → List (Entry ι γ α)}
    (inv : Finset ι → Prop) (h : ∀ x ∈ l, ∀ known, inv known →
      E.Chained P known (f x) ∧ inv ((f x).foldl (E.hold P) known)) (hknown : inv known) :
    E.Chained P known (l.flatMap f) ∧ inv ((l.flatMap f).foldl (E.hold P) known) := by
  induction l generalizing known with
  | nil => exact ⟨trivial, hknown⟩
  | cons x rest ih =>
    obtain ⟨hx, hinv⟩ := h x List.mem_cons_self known hknown
    obtain ⟨hrest, hend⟩ := ih (fun y hy => h y (List.mem_cons_of_mem _ hy)) hinv
    rw [List.flatMap_cons, chained_append, List.foldl_append]
    exact ⟨⟨hx, hrest⟩, hend⟩

omit [DecidableEq γ] in
/-- Along a chain, whoever is informed of the latest action is informed of the first one. -/
theorem Chained.hold_subset (h : E.Chained P known mid) :
    mid.foldl (E.hold P) known ⊆ E.informed known mid := by
  induction mid generalizing known with
  | nil => exact subset_rfl
  | cons e rest ih =>
    cases e with
    | act p a =>
      obtain ⟨hp, hrest⟩ := h
      have hle : E.hold P known (.act p a) ⊆ known := by
        simp only [hold]
        split
        · next ha => exact Finset.singleton_subset_iff.mpr (hp ha)
        · exact subset_rfl
      exact (ih hrest).trans (informed_mono hle rest)
    | sync g => exact ih h

omit [DecidableEq γ] in
/-- Every action of a chain is informed of the actions before it. -/
theorem Chained.sequential (h : E.Chained P known script) : E.Sequential P script := by
  intro pre p a mid q b post heq ha hb
  subst heq
  have hrest := ((chained_append known pre _).mp h).2.2
  simp only [hold, if_pos ha] at hrest
  obtain ⟨hmid, hq, -⟩ := (chained_append {p} mid _).mp hrest
  exact hmid.hold_subset (hq hb)

end Chains

end Ensemble

end Ghexbench.Common
