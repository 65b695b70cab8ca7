import Ghexbench.Common.Transition
import Mathlib.Data.Finset.Union
import Mathlib.Data.List.Infix

/-!
# Programs with barriers

Participants run straight-line programs of local actions and of calls of barriers. A call of a barrier
has two halves: a participant enters it, and it leaves when every member of the group of the barrier has
entered at least as many calls of it. Nothing else is known about the barrier.

A script lists the actions and barriers of all participants together. Programs follow a script if each
of them consists of the entries that its participant takes part in. A participant is then informed of what
another one has done before it, if a chain of barriers leads from the one to the other.
-/

namespace Ghexbench.Common

/-- An instruction of a program. -/
inductive Instr (γ α : Type*)
  | act (a : α)
  | sync (g : γ)
  deriving DecidableEq, Repr

/-- An entry of a script. -/
inductive Entry (ι γ α : Type*)
  | act (p : ι) (a : α)
  | sync (g : γ)
  deriving DecidableEq, Repr

/-- The participants, the members of each barrier among them, and their programs. -/
structure Ensemble (ι γ α : Type*) where
  members : Finset ι
  group : γ → Finset ι
  prog : ι → List (Instr γ α)

/-- The number of instructions that each participant has completed, whether it is inside a barrier, and
the actions in the order in which they have been performed. -/
structure EnsembleState (ι α : Type*) where
  done : ι → ℕ
  inside : ι → Bool
  log : List (ι × α)

/-- All participants at the start of their programs. -/
def EnsembleState.init {ι α : Type*} : EnsembleState ι α := ⟨fun _ => 0, fun _ => false, []⟩

variable {ι γ α : Type*} [DecidableEq γ]

/-- The instruction is a call of this barrier. -/
def Instr.isSync (g : γ) : Instr γ α → Bool
  | act _ => false
  | sync g' => g' = g

/-- The entry is a call of this barrier. -/
def Entry.isSync (g : γ) : Entry ι γ α → Bool
  | act _ _ => false
  | sync g' => g' = g

namespace Ensemble

section System

variable (E : Ensemble ι γ α)

/-- The calls of a barrier that a participant has left. -/
def departed (s : EnsembleState ι α) (p : ι) (g : γ) : ℕ :=
  ((E.prog p).take (s.done p)).countP (Instr.isSync g)

/-- The calls of a barrier that a participant has entered. -/
def entered (s : EnsembleState ι α) (p : ι) (g : γ) : ℕ :=
  ((E.prog p).take (s.done p + (s.inside p).toNat)).countP (Instr.isSync g)

variable [DecidableEq ι]

/-- The next step of a participant, if it is enabled. -/
def next (s : EnsembleState ι α) (p : ι) : Option (EnsembleState ι α) :=
  if p ∈ E.members then
    match (E.prog p)[s.done p]? with
    | none => none
    | some (.act a) =>
      some { s with done := Function.update s.done p (s.done p + 1), log := s.log ++ [(p, a)] }
    | some (.sync g) =>
      if s.inside p = false then some { s with inside := Function.update s.inside p true }
      else if ∀ m ∈ E.group g, E.departed s p g < E.entered s m g then
        some { s with
          done := Function.update s.done p (s.done p + 1)
          inside := Function.update s.inside p false }
      else none
  else none

/-- The states of all runs. -/
def Reached (s : EnsembleState ι α) : Prop := Reachable (· = EnsembleState.init) (Steps E.next) s

end System

section Steps

variable [DecidableEq ι] {E : Ensemble ι γ α} {s t : EnsembleState ι α} {p : ι} {g : γ}

/-- What a participant does. -/
inductive Moves (E : Ensemble ι γ α) (s : EnsembleState ι α) (p : ι) : EnsembleState ι α → Prop
  | act {a : α} (hinstr : (E.prog p)[s.done p]? = some (.act a)) :
    Moves E s p { s with done := Function.update s.done p (s.done p + 1), log := s.log ++ [(p, a)] }
  | enter {g : γ} (hinstr : (E.prog p)[s.done p]? = some (.sync g)) (hout : s.inside p = false) :
    Moves E s p { s with inside := Function.update s.inside p true }
  | leave {g : γ} (hinstr : (E.prog p)[s.done p]? = some (.sync g)) (hin : s.inside p = true)
    (hall : ∀ m ∈ E.group g, E.departed s p g < E.entered s m g) :
    Moves E s p { s with
      done := Function.update s.done p (s.done p + 1)
      inside := Function.update s.inside p false }

/-- Every step is one of these, of one of the participants. -/
theorem moves_of_next (hstep : E.next s p = some t) : p ∈ E.members ∧ E.Moves s p t := by
  simp only [next, Option.ite_none_right_eq_some] at hstep
  obtain ⟨hp, hstep⟩ := hstep
  refine ⟨hp, ?_⟩
  cases hinstr : (E.prog p)[s.done p]? with
  | none => simp [hinstr] at hstep
  | some i =>
    cases i with
    | act a =>
      simp only [hinstr, Option.some.injEq] at hstep
      exact hstep ▸ Moves.act hinstr
    | sync g =>
      simp only [hinstr] at hstep
      split at hstep
      · next hout =>
        simp only [Option.some.injEq] at hstep
        exact hstep ▸ Moves.enter hinstr hout
      · next hin =>
        simp only [Option.ite_none_right_eq_some, Option.some.injEq] at hstep
        exact hstep.2 ▸ Moves.leave hinstr (eq_true_of_ne_false hin) hstep.1

/-- A participant can do each of these. -/
theorem Moves.next_eq (h : E.Moves s p t) (hp : p ∈ E.members) : E.next s p = some t := by
  rw [next, if_pos hp]
  cases h with
  | act hinstr => simp only [hinstr]
  | enter hinstr hout => simp only [hinstr, hout, if_true]
  | leave hinstr hin hall => simp only [hinstr, hin, Bool.true_eq_false, if_false, if_pos hall]

/-- One more instruction of a program. -/
theorem countP_take_succ {l : List (Instr γ α)} {n : ℕ} {i : Instr γ α} (h : l[n]? = some i) :
    (l.take (n + 1)).countP (Instr.isSync g) =
      (l.take n).countP (Instr.isSync g) + (i.isSync g).toNat := by
  rw [List.take_add_one, h, List.countP_append]
  cases hi : i.isSync g <;> simp [hi]

/-- Nobody has left a call of a barrier before every member of its group has entered it. -/
def Fair (E : Ensemble ι γ α) (s : EnsembleState ι α) : Prop :=
  ∀ g, ∀ p ∈ E.group g, ∀ m ∈ E.group g, E.departed s p g ≤ E.entered s m g

/-- Whoever enters a barrier has left no more of its calls than before. -/
theorem Moves.departed_le (h : E.Moves s p t) (q : ι) (g : γ) :
    E.departed t q g ≤ E.departed s q g ∨ (q = p ∧ E.departed t q g = E.departed s q g + 1 ∧
      ∀ m ∈ E.group g, E.departed s q g < E.entered s m g) := by
  cases h with
  | enter hinstr hout => exact Or.inl le_rfl
  | act hinstr =>
    by_cases hq : q = p
    · subst hq
      left
      simp only [departed, Function.update_self, countP_take_succ hinstr]
      simp [Instr.isSync]
    · left
      simp only [departed, Function.update_of_ne hq, le_refl]
  | @leave g' hinstr hin hall =>
    by_cases hq : q = p
    · subst hq
      have hcount : ((E.prog q).take (s.done q + 1)).countP (Instr.isSync g) =
          E.departed s q g + ((Instr.sync g' : Instr γ α).isSync g).toNat := countP_take_succ hinstr
      by_cases hg : g' = g
      · subst hg
        right
        refine ⟨rfl, ?_, hall⟩
        simp only [departed, Function.update_self] at hcount ⊢
        rw [hcount]
        simp [Instr.isSync]
      · left
        simp only [departed, Function.update_self] at hcount ⊢
        rw [hcount]
        simp [Instr.isSync, hg]
    · left
      simp only [departed, Function.update_of_ne hq, le_refl]

/-- What has been entered stays entered. -/
theorem Moves.entered_le (h : E.Moves s p t) (m : ι) (g : γ) : E.entered s m g ≤ E.entered t m g := by
  have hle : s.done m + (s.inside m).toNat ≤ t.done m + (t.inside m).toNat := by
    by_cases hm : m = p
    · subst hm
      cases h with
      | act hinstr => simp only [Function.update_self]; omega
      | enter hinstr hout => simp [hout]
      | leave hinstr hin hall => simp [hin]
    · cases h with
      | act hinstr => simp only [Function.update_of_ne hm]; exact le_rfl
      | enter hinstr hout => simp only [Function.update_of_ne hm]; exact le_rfl
      | leave hinstr hin hall => simp only [Function.update_of_ne hm]; exact le_rfl
  exact ((List.take_prefix_take_left hle).sublist).countP_le

/-- In every run the barriers are fair. -/
theorem Reached.fair (h : E.Reached s) : E.Fair s := by
  apply Reachable.invariant _ _ h
  · intro s₀ hs₀ g p _ m _
    subst hs₀
    simp [departed, EnsembleState.init]
  · rintro s t hfair ⟨p, hstep⟩ g q hq m hm
    have hmove := (moves_of_next hstep).2
    have hentered := hmove.entered_le m g
    rcases hmove.departed_le q g with hle | ⟨-, heq, hall⟩
    · exact (hle.trans (hfair g q hq m hm)).trans hentered
    · have hlt := hall m hm
      omega

end Steps

section Scripts

variable [DecidableEq ι] {E : Ensemble ι γ α} {s : EnsembleState ι α} {p q : ι} {g : γ}
  {pre mid post : List (Entry ι γ α)}

omit [DecidableEq γ] in
/-- What a participant sees of an entry. -/
def view (E : Ensemble ι γ α) (p : ι) : Entry ι γ α → Option (Instr γ α)
  | .act q a => if p = q then some (.act a) else none
  | .sync g => if p ∈ E.group g then some (.sync g) else none

omit [DecidableEq γ] in
/-- The program that a script prescribes for a participant. -/
def project (E : Ensemble ι γ α) (script : List (Entry ι γ α)) (p : ι) : List (Instr γ α) :=
  script.filterMap (E.view p)

/-- The programs are those that a script prescribes. -/
structure Follows (E : Ensemble ι γ α) (script : List (Entry ι γ α)) : Prop where
  prog : ∀ p ∈ E.members, E.prog p = E.project script p
  group : ∀ g, E.group g ⊆ E.members
  act : ∀ p a, Entry.act p a ∈ script → p ∈ E.members

/-- A participant has completed its part of the beginning of a script. -/
def Passed (E : Ensemble ι γ α) (s : EnsembleState ι α) (p : ι) (pre : List (Entry ι γ α)) : Prop :=
  (E.project pre p).length ≤ s.done p

omit [DecidableEq γ] in
/-- The participants that know what somebody in a set knows, after an entry of a script: a barrier
informs its whole group. -/
def spread (E : Ensemble ι γ α) (known : Finset ι) : Entry ι γ α → Finset ι
  | .act _ _ => known
  | .sync g => if (known ∩ E.group g).Nonempty then known ∪ E.group g else known

omit [DecidableEq γ] in
/-- The participants that know what somebody in a set knows, after some entries of a script. -/
def informed (E : Ensemble ι γ α) (known : Finset ι) (l : List (Entry ι γ α)) : Finset ι :=
  l.foldl E.spread known

omit [DecidableEq γ] in
/-- Nothing that is known is forgotten. -/
theorem subset_spread (known : Finset ι) (e : Entry ι γ α) : known ⊆ E.spread known e := by
  cases e with
  | act p a => exact subset_rfl
  | sync g =>
    simp only [spread]
    split
    · exact Finset.subset_union_left
    · exact subset_rfl

omit [DecidableEq γ] in
/-- Nothing that is known is forgotten. -/
theorem subset_informed (known : Finset ι) (l : List (Entry ι γ α)) : known ⊆ E.informed known l := by
  induction l generalizing known with
  | nil => exact subset_rfl
  | cons e rest ih => exact (subset_spread known e).trans (ih _)

omit [DecidableEq γ] in
/-- Who knows more is informed of more. -/
theorem spread_mono {known known' : Finset ι} (hle : known ⊆ known') (e : Entry ι γ α) :
    E.spread known e ⊆ E.spread known' e := by
  cases e with
  | act p a => exact hle
  | sync g =>
    simp only [spread]
    split
    · next hmeet =>
      rw [if_pos (hmeet.mono (Finset.inter_subset_inter_right hle))]
      exact Finset.union_subset_union_left hle
    · split
      · exact hle.trans Finset.subset_union_left
      · exact hle

omit [DecidableEq γ] in
/-- Who knows more is informed of more. -/
theorem informed_mono {known known' : Finset ι} (hle : known ⊆ known') (l : List (Entry ι γ α)) :
    E.informed known l ⊆ E.informed known' l := by
  induction l generalizing known known' with
  | nil => exact hle
  | cons e rest ih => exact ih (spread_mono hle e)

omit [DecidableEq γ] in
/-- A barrier informs its group of what one of its members knows. -/
theorem mem_informed_of_sync {known : Finset ι} {l : List (Entry ι γ α)} (hp : p ∈ known)
    (hg : .sync g ∈ l) (hpg : p ∈ E.group g) (hqg : q ∈ E.group g) : q ∈ E.informed known l := by
  obtain ⟨before, after, rfl⟩ := List.append_of_mem hg
  rw [informed, List.foldl_append, List.foldl_cons]
  apply subset_informed _ after
  have hmeet : (before.foldl E.spread known ∩ E.group g).Nonempty :=
    ⟨p, Finset.mem_inter.mpr ⟨subset_informed known before hp, hpg⟩⟩
  simp only [spread, if_pos hmeet]
  exact Finset.mem_union_right _ hqg

omit [DecidableEq γ] in
/-- The program of a participant contains its actions in the script. -/
theorem act_mem_project {a : α} : .act a ∈ E.project pre p ↔ Entry.act p a ∈ pre := by
  rw [project, List.mem_filterMap]
  constructor
  · rintro ⟨e, he, hview⟩
    cases e with
    | act q b =>
      simp only [view, Option.ite_none_right_eq_some, Option.some.injEq, Instr.act.injEq] at hview
      obtain ⟨rfl, rfl⟩ := hview
      exact he
    | sync g => simp [view] at hview
  · exact fun h => ⟨_, h, by simp [view]⟩

omit [DecidableEq γ] in
/-- The program for a script in two parts. -/
theorem project_append (p : ι) : E.project (pre ++ post) p = E.project pre p ++ E.project post p :=
  List.filterMap_append

omit [DecidableEq γ] in
/-- Whoever has passed more has passed less. -/
theorem Passed.of_append (h : E.Passed s p (pre ++ post)) : E.Passed s p pre := by
  unfold Passed at h ⊢
  rw [project_append, List.length_append] at h
  omega

/-- A member of a group sees all calls of its barrier. -/
theorem countP_project (hp : p ∈ E.group g) (pre : List (Entry ι γ α)) :
    (E.project pre p).countP (Instr.isSync g) = pre.countP (Entry.isSync g) := by
  induction pre with
  | nil => rfl
  | cons e rest ih =>
    unfold project at ih ⊢
    cases e with
    | act q a =>
      by_cases hq : p = q <;> simp [view, hq, Instr.isSync, Entry.isSync] <;> simpa [hq] using ih
    | sync g' =>
      by_cases hg : g' = g
      · subst hg
        simp [view, hp, Instr.isSync, Entry.isSync, ih]
      · by_cases hg' : p ∈ E.group g' <;> simp [view, hg', Instr.isSync, Entry.isSync, hg, ih]

/-- Whoever has passed the beginning of a script has left the barriers there. -/
theorem Follows.departed_of_passed (h : E.Follows (pre ++ post)) (hp : p ∈ E.group g)
    (hpassed : E.Passed s p pre) : pre.countP (Entry.isSync g) ≤ E.departed s p g := by
  rw [departed, h.prog p (h.group g hp), project_append, ← countP_project hp]
  have hprefix : E.project pre p <+: (E.project pre p ++ E.project post p).take (s.done p) :=
    List.prefix_take_iff.mpr ⟨List.prefix_append _ _, hpassed⟩
  exact hprefix.sublist.countP_le

/-- Whoever has entered the barrier after the beginning of a script has passed the beginning. -/
theorem Follows.passed_of_entered (h : E.Follows (pre ++ post)) (hp : p ∈ E.group g)
    (hentered : pre.countP (Entry.isSync g) < E.entered s p g) : E.Passed s p pre := by
  by_contra hnot
  have hle : s.done p + (s.inside p).toNat ≤ (E.project pre p).length := by
    have := Bool.toNat_le (s.inside p)
    unfold Passed at hnot
    omega
  rw [entered, h.prog p (h.group g hp), project_append, List.take_append_of_le_length hle,
    ← countP_project hp] at hentered
  exact absurd hentered (not_lt.mpr (List.take_sublist _ _).countP_le)

/-- Whoever is informed of a participant after the middle of a script, and has passed the middle, can
rely on it that this participant has passed the beginning. -/
theorem Follows.passed_of_informed (h : E.Follows (pre ++ mid ++ post)) (hfair : E.Fair s)
    (hinformed : q ∈ E.informed {p} mid) (hpassed : E.Passed s q (pre ++ mid)) : E.Passed s p pre := by
  induction mid using List.reverseRecOn generalizing q post with
  | nil =>
    obtain rfl : q = p := Finset.mem_singleton.mp hinformed
    rwa [List.append_nil] at hpassed
  | append_singleton mid e ih =>
    have hsplit : pre ++ (mid ++ [e]) ++ post = pre ++ mid ++ ([e] ++ post) := by
      simp only [List.append_assoc]
    rw [hsplit] at h
    rw [← List.append_assoc] at hpassed
    have hbefore := hpassed.of_append
    rw [informed, List.foldl_append] at hinformed
    cases e with
    | act r a => exact ih h hinformed hbefore
    | sync g =>
      simp only [List.foldl_cons, List.foldl_nil, spread] at hinformed
      split at hinformed
      · next hmeet =>
        cases Finset.mem_union.mp hinformed with
        | inl hq => exact ih h hq hbefore
        | inr hq =>
          -- a member of the group that is informed has entered the barrier
          obtain ⟨r, hr⟩ := hmeet
          obtain ⟨hknown, hmember⟩ := Finset.mem_inter.mp hr
          have hsync : (pre ++ mid ++ [Entry.sync g]).countP (Entry.isSync g) =
              (pre ++ mid).countP (Entry.isSync g) + 1 := by
            rw [List.countP_append]
            simp [Entry.isSync]
          rw [← List.append_assoc] at h
          have hdeparted := h.departed_of_passed hq hpassed
          have hle := hfair g q hq r hmember
          rw [List.append_assoc] at h
          have hentered : (pre ++ mid).countP (Entry.isSync g) < E.entered s r g := by omega
          exact ih h hknown (h.passed_of_entered hmember hentered)
      · exact ih h hinformed hbefore

end Scripts

end Ensemble

end Ghexbench.Common
