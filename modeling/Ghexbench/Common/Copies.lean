import Ghexbench.Common.Loops
import Ghexbench.Common.Transition
import Mathlib.Algebra.BigOperators.Group.Finset.Basic
import Mathlib.Algebra.Order.BigOperators.Group.Finset

/-!
# Copies between places of a memory

A copy reads one place of a memory and writes another. Copies that do not write what others read, and that
agree on what they write, have a result that does not depend on their order. Threads that perform such
copies, each in its own order and in any interleaving of their loads and stores, leave the memory that
one thread with all copies leaves.
-/

namespace Ghexbench.Common

variable {ι κ V σ : Type*}

/-- The assignment of an element of a memory to another place. -/
structure Copy (ι : Type*) where
  dst : ι
  src : ι

namespace Copy

/-- Copies that may be made in any order. -/
structure Independent (s : Set (Copy ι)) : Prop where
  reads : ∀ c ∈ s, ∀ c' ∈ s, c.src ≠ c'.dst
  writes : ∀ c ∈ s, ∀ c' ∈ s, c.dst = c'.dst → c.src = c'.src

/-- The memory after copies that may be made in any order. -/
structure Result (s : Set (Copy ι)) (mem mem' : ι → V) : Prop where
  copied : ∀ c ∈ s, mem' c.dst = mem c.src
  kept : ∀ i, (∀ c ∈ s, c.dst ≠ i) → mem' i = mem i

/-- There is one such memory. -/
theorem Result.unique {s : Set (Copy ι)} {mem a b : ι → V} (ha : Result s mem a)
    (hb : Result s mem b) : a = b := by
  funext i
  by_cases h : ∃ c ∈ s, c.dst = i
  · obtain ⟨c, hc, rfl⟩ := h
    rw [ha.copied c hc, hb.copied c hc]
  · push Not at h
    rw [ha.kept i h, hb.kept i h]

variable [DecidableEq ι]

/-- The assignment. -/
def run (c : Copy ι) (mem : ι → V) : ι → V := Function.update mem c.dst (mem c.src)

/-- Copies one after another. -/
def runAll (l : List (Copy ι)) (mem : ι → V) : ι → V := l.foldl (fun mem c => c.run mem) mem

/-- Some copies and then others. -/
theorem runAll_append (l l' : List (Copy ι)) (mem : ι → V) :
    runAll (l ++ l') mem = runAll l' (runAll l mem) := List.foldl_append ..

/-- What copies leave that do not disturb each other. -/
theorem Independent.result_runAll {l : List (Copy ι)} (h : Independent {c | c ∈ l}) (mem : ι → V) :
    Result {c | c ∈ l} mem (runAll l mem) := by
  induction l generalizing mem with
  | nil => exact ⟨fun c hc => absurd hc List.not_mem_nil, fun _ _ => rfl⟩
  | cons c l ih =>
    have htail : Independent {c | c ∈ l} :=
      ⟨fun c hc c' hc' => h.reads c (List.mem_cons_of_mem _ hc) c' (List.mem_cons_of_mem _ hc'),
        fun c hc c' hc' => h.writes c (List.mem_cons_of_mem _ hc) c' (List.mem_cons_of_mem _ hc')⟩
    have hrest := ih htail (c.run mem)
    have hcopied (c' : Copy ι) (hc' : c' ∈ l) : runAll l (c.run mem) c'.dst = mem c'.src := by
      have hne := h.reads c' (List.mem_cons_of_mem _ hc') c List.mem_cons_self
      rw [hrest.copied c' hc', run, Function.update_of_ne hne]
    constructor
    · intro c' hc'
      cases List.mem_cons.mp hc' with
      | inr hin => exact hcopied c' hin
      | inl heq =>
        subst heq
        by_cases hagain : ∃ c'' ∈ l, c''.dst = c'.dst
        · obtain ⟨c'', hin, hdst⟩ := hagain
          have hsrc := h.writes c'' (List.mem_cons_of_mem _ hin) c' List.mem_cons_self hdst
          rw [← hdst, ← hsrc]
          exact hcopied c'' hin
        · push Not at hagain
          exact (hrest.kept _ hagain).trans (Function.update_self ..)
    · intro i hi
      have hfirst := hi c List.mem_cons_self
      have hkept := hrest.kept i fun c' hc' => hi c' (List.mem_cons_of_mem _ hc')
      exact hkept.trans (Function.update_of_ne hfirst.symm _ _)

end Copy

section Follows

variable [DecidableEq ι] {φ : σ → ι → V}

/-- A statement makes copies in the memory that stands for its state. -/
def Follows (φ : σ → ι → V) (body : σ → σ) (copies : List (Copy ι)) : Prop :=
  ∀ s, φ (body s) = Copy.runAll copies (φ s)

namespace Follows

/-- One statement and then another. -/
theorem comp {body body' : σ → σ} {copies copies' : List (Copy ι)} (h : Follows φ body copies)
    (h' : Follows φ body' copies') : Follows φ (fun s => body' (body s)) (copies ++ copies') := by
  intro s
  rw [Copy.runAll_append, ← h, ← h']

/-- A loop of statements. -/
theorem forRange {n : ℕ} {body : ℕ → σ → σ} {copies : ℕ → List (Copy ι)}
    (h : ∀ i, Follows φ (body i) (copies i)) :
    Follows φ (forRange n body) ((List.range n).flatMap copies) := by
  have hloop (l : List ℕ) :
      Follows φ (fun s => l.foldl (fun s i => body i s) s) (l.flatMap copies) := by
    induction l with
    | nil => exact fun _ => rfl
    | cons i l ih => exact (h i).comp ih
  exact hloop _

/-- A loop of single copies. -/
theorem forRange_map {n : ℕ} {body : ℕ → σ → σ} {copy : ℕ → Copy ι}
    (h : ∀ i, Follows φ (body i) [copy i]) :
    Follows φ (Common.forRange n body) ((List.range n).map copy) := by
  rw [List.map_eq_flatMap]
  exact forRange h

end Follows

end Follows

/-- Threads that make copies: the memory, the copies that are left to each thread, and the element that it
has loaded for the first of them. -/
structure ThreadsState (κ ι V : Type*) where
  mem : ι → V
  rest : κ → List (Copy ι)
  loaded : κ → Option V

namespace ThreadsState

/-- The state at the start of the threads. -/
def init (copies : κ → List (Copy ι)) (mem : ι → V) : ThreadsState κ ι V := ⟨mem, copies, fun _ => none⟩

/-- The copies of all threads. -/
def allCopies (copies : κ → List (Copy ι)) : Set (Copy ι) := {c | ∃ k, c ∈ copies k}

/-- The copies that are left to a thread are its last ones, and no others have been made. -/
structure Progress (copies : κ → List (Copy ι)) (mem : ι → V) (s : ThreadsState κ ι V) : Prop where
  suffix : ∀ k, s.rest k <:+ copies k
  ne_nil : ∀ k, (s.loaded k).isSome → s.rest k ≠ []
  kept : ∀ i, (∀ c ∈ allCopies copies, c.dst ≠ i) → s.mem i = mem i

/-- The copies that are not left have been made, with the elements of the memory at the start. -/
structure Inv (copies : κ → List (Copy ι)) (mem : ι → V) (s : ThreadsState κ ι V) : Prop where
  copied : ∀ k, ∀ c ∈ copies k, c ∈ s.rest k ∨ s.mem c.dst = mem c.src
  loaded : ∀ k v c rest, s.loaded k = some v → s.rest k = c :: rest → v = mem c.src

variable {copies : κ → List (Copy ι)} {mem : ι → V} {s t : ThreadsState κ ι V} {k : κ}

/-- The copies that are left are copies of the thread. -/
theorem Progress.mem_of_rest (h : Progress copies mem s) {c : Copy ι} {rest : List (Copy ι)}
    (hrest : s.rest k = c :: rest) : c ∈ allCopies copies :=
  ⟨k, (h.suffix k).subset (hrest ▸ List.mem_cons_self)⟩

/-- The number of steps that a thread has made. -/
def workOf (copies : κ → List (Copy ι)) (s : ThreadsState κ ι V) (k : κ) : ℕ :=
  2 * ((copies k).length - (s.rest k).length) + if (s.loaded k).isSome then 1 else 0

/-- A thread has made no more steps than it has loads and stores. -/
theorem Progress.workOf_le (h : Progress copies mem s) (k : κ) :
    workOf copies s k ≤ 2 * (copies k).length := by
  have hlength := (h.suffix k).length_le
  unfold workOf
  split
  · next hsome =>
    have hpos := List.length_pos_iff.mpr (h.ne_nil k hsome)
    omega
  · omega

variable [DecidableEq ι] [DecidableEq κ]

/-- A thread loads an element or stores the one that it has loaded. -/
def next (s : ThreadsState κ ι V) (k : κ) : Option (ThreadsState κ ι V) :=
  match s.rest k, s.loaded k with
  | [], _ => none
  | c :: _, none => some { s with loaded := Function.update s.loaded k (some (s.mem c.src)) }
  | c :: rest, some v => some
      { mem := Function.update s.mem c.dst v
        rest := Function.update s.rest k rest
        loaded := Function.update s.loaded k none }

/-- The states of the runs of the threads. -/
def Reached (copies : κ → List (Copy ι)) (mem : ι → V) : ThreadsState κ ι V → Prop :=
  Reachable (· = init copies mem) (Steps next)

/-- What a step of a thread can be. -/
inductive Moves (s : ThreadsState κ ι V) (k : κ) : ThreadsState κ ι V → Prop
  | load (c rest) (hrest : s.rest k = c :: rest) (hloaded : s.loaded k = none) :
      Moves s k { s with loaded := Function.update s.loaded k (some (s.mem c.src)) }
  | store (c rest v) (hrest : s.rest k = c :: rest) (hloaded : s.loaded k = some v) :
      Moves s k
        { mem := Function.update s.mem c.dst v
          rest := Function.update s.rest k rest
          loaded := Function.update s.loaded k none }

/-- The steps are those. -/
theorem moves_of_next (h : next s k = some t) : Moves s k t := by
  unfold next at h
  split at h
  · cases h
  · next hrest hloaded =>
    obtain rfl := Option.some.inj h
    exact .load _ _ hrest hloaded
  · next hrest hloaded =>
    obtain rfl := Option.some.inj h
    exact .store _ _ _ hrest hloaded

/-- A step makes progress. -/
theorem Progress.step (h : Progress copies mem s) (hmoves : Moves s k t) : Progress copies mem t := by
  cases hmoves with
  | load c rest hrest hloaded =>
    use h.suffix, ?_, h.kept
    intro k' hsome
    dsimp only at hsome ⊢
    by_cases hk : k' = k
    · rw [hk, hrest]
      exact List.cons_ne_nil c rest
    · rw [Function.update_of_ne hk] at hsome
      exact h.ne_nil k' hsome
  | store c rest v hrest hloaded =>
    constructor
    · intro k'
      dsimp only
      by_cases hk : k' = k
      · rw [hk, Function.update_self]
        exact (hrest ▸ List.suffix_cons c rest).trans (h.suffix k)
      · rw [Function.update_of_ne hk]
        exact h.suffix k'
    · intro k' hsome
      dsimp only at hsome ⊢
      by_cases hk : k' = k
      · rw [hk, Function.update_self] at hsome
        exact absurd hsome Bool.false_ne_true
      · rw [Function.update_of_ne hk] at hsome ⊢
        exact h.ne_nil k' hsome
    · intro i hi
      dsimp only
      rw [Function.update_of_ne (hi c (h.mem_of_rest hrest)).symm]
      exact h.kept i hi

/-- There is progress in all states of all runs. -/
theorem Reached.progress (hs : Reached copies mem s) : Progress copies mem s := by
  apply Reachable.invariant _ _ hs
  · rintro _ rfl
    exact ⟨fun k => List.suffix_rfl, fun k hsome => absurd hsome Bool.false_ne_true, fun _ _ => rfl⟩
  · rintro s t h ⟨k, hk⟩
    exact h.step (moves_of_next hk)

/-- A step of a thread keeps the elements that others have copied or loaded. -/
theorem Inv.step (hind : Copy.Independent (allCopies copies)) (hp : Progress copies mem s)
    (h : Inv copies mem s) (hmoves : Moves s k t) : Inv copies mem t := by
  cases hmoves with
  | load c rest hrest hloaded =>
    have hc : c ∈ allCopies copies := hp.mem_of_rest hrest
    use h.copied
    intro k' v c' rest' hv hrest'
    dsimp only at hv hrest'
    by_cases hk : k' = k
    · subst hk
      rw [Function.update_self] at hv
      rw [hrest] at hrest'
      rw [← Option.some.inj hv, ← (List.cons.inj hrest').1,
        hp.kept c.src fun c' hc' => (hind.reads c hc c' hc').symm]
    · rw [Function.update_of_ne hk] at hv
      exact h.loaded k' v c' rest' hv hrest'
  | store c rest v hrest hloaded =>
    have hv : v = mem c.src := h.loaded k v c rest hloaded hrest
    constructor
    · intro k' c' hc'
      dsimp only
      by_cases hdst : c'.dst = c.dst
      · -- what has been copied is copied again at most
        rw [hdst, Function.update_self, hv, hind.writes c' ⟨k', hc'⟩ c (hp.mem_of_rest hrest) hdst]
        exact Or.inr rfl
      · rw [Function.update_of_ne hdst]
        apply (h.copied k' c' hc').imp_left
        intro hleft
        by_cases hk : k' = k
        · subst hk
          rw [Function.update_self]
          rw [hrest] at hleft
          exact List.mem_of_ne_of_mem (fun heq => hdst (congrArg Copy.dst heq)) hleft
        · rw [Function.update_of_ne hk]
          exact hleft
    · intro k' v' c' rest' hv' hrest'
      dsimp only at hv' hrest'
      by_cases hk : k' = k
      · subst hk
        rw [Function.update_self] at hv'
        exact absurd hv' (Option.some_ne_none v').symm
      · rw [Function.update_of_ne hk] at hv' hrest'
        exact h.loaded k' v' c' rest' hv' hrest'

/-- The invariant holds in all states of all runs. -/
theorem Reached.inv (hind : Copy.Independent (allCopies copies)) (hs : Reached copies mem s) :
    Inv copies mem s := by
  suffices h : Progress copies mem s ∧ Inv copies mem s from h.2
  apply Reachable.invariant _ _ hs
  · rintro s rfl
    use Reached.progress (Reachable.initial rfl), fun k c hc => Or.inl hc
    intro k v c rest hv
    exact absurd hv (Option.some_ne_none v).symm
  · rintro s t ⟨hp, h⟩ ⟨k, hk⟩
    exact ⟨hp.step (moves_of_next hk), h.step hind hp (moves_of_next hk)⟩

/-- When no thread can go on, no copies are left. -/
theorem rest_of_stuck (hend : ∀ k, next s k = none) (k : κ) : s.rest k = [] := by
  have hk := hend k
  unfold next at hk
  split at hk
  · assumption
  · cases hk
  · cases hk

/-- When no thread can go on, all copies have been made. -/
theorem Reached.result (hind : Copy.Independent (allCopies copies)) (hs : Reached copies mem s)
    (hend : ∀ k, next s k = none) : Copy.Result (allCopies copies) mem s.mem := by
  use ?_, hs.progress.kept
  rintro c ⟨k, hk⟩
  cases (hs.inv hind).copied k c hk with
  | inl hleft =>
    rw [rest_of_stuck hend] at hleft
    exact absurd hleft List.not_mem_nil
  | inr hcopied => exact hcopied

/-- At the end of every run the threads have done what one thread does with all copies. -/
theorem Reached.mem_eq_runAll {l : List (Copy ι)} (hall : allCopies copies = {c | c ∈ l})
    (hind : Copy.Independent (allCopies copies)) (hs : Reached copies mem s)
    (hend : ∀ k, next s k = none) : s.mem = Copy.runAll l mem := by
  have hresult := hs.result hind hend
  rw [hall] at hind hresult
  exact hresult.unique (hind.result_runAll mem)

section Ends

variable [Fintype κ]

/-- The number of steps that have been made. -/
def work (copies : κ → List (Copy ι)) (s : ThreadsState κ ι V) : ℕ := ∑ k, workOf copies s k

/-- Every step is work. -/
theorem Progress.work_lt (h : Progress copies mem s) (hmoves : Moves s k t) :
    work copies s < work copies t := by
  have hlength := (h.suffix k).length_le
  apply Finset.sum_lt_sum
  · intro k' _
    by_cases hk : k' = k
    · subst hk
      cases hmoves with
      | load c rest hrest hloaded => simp [workOf, hloaded]
      | store c rest v hrest hloaded =>
        simp [workOf, hloaded, hrest] at hlength ⊢
        omega
    · cases hmoves with
      | load c rest hrest hloaded => simp [workOf, hk]
      | store c rest v hrest hloaded => simp [workOf, hk]
  · refine ⟨k, Finset.mem_univ k, ?_⟩
    cases hmoves with
    | load c rest hrest hloaded => simp [workOf, hloaded]
    | store c rest v hrest hloaded =>
      simp [workOf, hloaded, hrest] at hlength ⊢
      omega

/-- No run goes on for ever. -/
theorem length_le_of_run {actions : List κ}
    (hrun : runActions next (init copies mem) actions = some s) :
    actions.length ≤ ∑ k, 2 * (copies k).length := by
  have hbound := length_le_of_measure (work copies)
    (fun _ _ _ hs hk => (Reached.progress hs).work_lt (moves_of_next hk))
    (fun _ hs => Finset.sum_le_sum fun k _ => (Reached.progress hs).workOf_le k)
    (Reachable.initial rfl) hrun
  omega

/-- Some run comes to its end. -/
theorem exists_end (copies : κ → List (Copy ι)) (mem : ι → V) :
    ∃ s, Reached copies mem s ∧ ∀ k, next s k = none :=
  exists_stuck (work copies)
    (fun _ _ _ hs hk => (Reached.progress hs).work_lt (moves_of_next hk))
    (fun _ hs => Finset.sum_le_sum fun k _ => (Reached.progress hs).workOf_le k)
    (Reachable.initial rfl)

end Ends

end ThreadsState

end Ghexbench.Common
