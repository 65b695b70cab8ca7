import Ghexbench.Cartex.HaloRounds
import Mathlib.Tactic.IntervalCases

/-!
# The halo exchange is correct

Three rounds fill the halos of a field, first the faces and then, with what has been received in
the earlier rounds, the edges and corners. All versions of `exchange` leave what the rounds leave,
for each field, in whatever order the messages are read and arrive.
-/

namespace Ghexbench.Cartex

open Ghexbench.Common

namespace Setup

variable {su : Setup} {h : ℕ} {q : ℕ × ℕ} {V : Type*} {field : ℕ × ℕ → ℕ → V} {c : Arr ℕ}

section Owners

/-- A cell inside a domain is its own image. -/
theorem periodicImage_inner (hq : su.InRange q) (hin : su.InsideFrom q 0 c) :
    su.periodicImage q c =
      fun d => (su.neighborhood q).d.domainCoord d + (c d - haloLeft su.halos d) := by
  have hcontains : (su.neighborhood q).d.Contains
      fun d => (su.neighborhood q).d.domainCoord d + (c d - haloLeft su.halos d) := by
    intro d
    obtain ⟨hle, hlt⟩ := hin d (Nat.zero_le _)
    dsimp only
    omega
  have hbox := su.cfg.inBox_of_contains su.placement hq.1 hq.2 hcontains
  funext d
  have hlt : (su.neighborhood q).d.domainCoord d + (c d - haloLeft su.halos d) <
      su.cfg.globalSize d := hbox d
  have hcell : ((su.neighborhood q).d.domainCoord d : ℤ) + c d - haloLeft su.halos d =
      (((su.neighborhood q).d.domainCoord d + (c d - haloLeft su.halos d) : ℕ) : ℤ) := by
    have := (hin d (Nat.zero_le _)).1
    omega
  rw [periodicImage, hcell, ← Int.natCast_emod, Nat.mod_eq_of_lt hlt]
  rfl

/-- The cells inside a domain are owned by it. -/
theorem contains_periodicImage (hq : su.InRange q) (hin : su.InsideFrom q 0 c) :
    (su.neighborhood q).d.Contains (su.periodicImage q c) := by
  rw [periodicImage_inner hq hin]
  intro d
  obtain ⟨hle, hlt⟩ := hin d (Nat.zero_le _)
  dsimp only
  omega

/-- The place of a cell inside a domain. -/
theorem place_periodicImage (hq : su.InRange q) (hin : su.InsideFrom q 0 c) :
    (fun d => su.periodicImage q c d - (su.neighborhood q).d.domainCoord d + haloLeft su.halos d) =
      c := by
  rw [periodicImage_inner hq hin]
  funext d
  have := (hin d (Nat.zero_le _)).1
  dsimp only
  omega

/-- The cells inside a domain have the values that the domain has there. -/
theorem ownerValue_inner (hq : su.InRange q) (hin : su.InsideFrom q 0 c) :
    su.OwnerValue field q c (field q (index (su.neighborhood q).extBuffer c)) := by
  refine ⟨q, hq, contains_periodicImage hq hin, ?_⟩
  rw [place_periodicImage hq hin]

/-- Only the domain itself owns the cells inside it. -/
theorem OwnerValue.eq_inner {v : V} (hvalue : su.OwnerValue field q c v) (hq : su.InRange q)
    (hin : su.InsideFrom q 0 c) : v = field q (index (su.neighborhood q).extBuffer c) := by
  obtain ⟨q', hq', hcontains, rfl⟩ := hvalue
  have hbox := su.cfg.inBox_of_contains su.placement hq.1 hq.2 (contains_periodicImage hq hin)
  obtain ⟨_, _, hunique⟩ := su.cfg.existsUnique_contains su.placement hbox
  have heq : q' = q :=
    (hunique q' ⟨hq', hcontains⟩).trans (hunique q ⟨hq, contains_periodicImage hq hin⟩).symm
  subst heq
  rw [place_periodicImage hq hin]

/-- Images of the same cell have the same owner. -/
theorem OwnerValue.congr {q' : ℕ × ℕ} {c' : Arr ℕ} {v : V} (hvalue : su.OwnerValue field q' c' v)
    (himage : su.periodicImage q' c' = su.periodicImage q c) : su.OwnerValue field q c v := by
  unfold OwnerValue at hvalue ⊢
  rwa [himage] at hvalue

end Owners

section Rounds

/-- The field of all threads after some rounds. -/
def haloRounds (su : Setup) (field : ℕ × ℕ → ℕ → V) : ℕ → ℕ × ℕ → ℕ → V
  | 0 => field
  | k + 1 => su.haloRound (phaseDim k) (su.haloRounds field k)

/-- The cell of a neighbour that a halo cell is an image of lies inside its domain in the dimension
of the round. -/
theorem source_cell (hq : su.InRange q) {dim : Fin 3} (left : Bool)
    (hc : InBox (su.neighborhood q).extBuffer c) (hin : su.InsideFrom q (dim.val + 1) c) {x : ℕ}
    (hx : haloLeft su.halos dim ≤ x ∧
      x < haloLeft su.halos dim + (su.neighborhood (su.source q dim left)).d.domainExt dim) :
    InBox (su.neighborhood (su.source q dim left)).extBuffer (Function.update c dim x) ∧
      su.InsideFrom (su.source q dim left) dim.val (Function.update c dim x) := by
  constructor
  · intro d
    have hd := hc d
    rw [su.extBuffer_apply] at hd ⊢
    by_cases heq : d = dim
    · subst heq
      rw [Function.update_self]
      omega
    · rw [Function.update_of_ne heq, (aligned hq left heq).2]
      exact hd
  · intro d hd
    by_cases heq : d = dim
    · subst heq
      rw [Function.update_self]
      exact hx
    · rw [Function.update_of_ne heq, (aligned hq left heq).2]
      exact hin d (by omega)

/-- The round of a dimension fills the halo of this dimension. -/
theorem Fitting.ownerValue_haloRound (w : su.Fitting) {dim : Fin 3} {field' : ℕ × ℕ → ℕ → V}
    (hbefore : ∀ q, su.InRange q → ∀ c, InBox (su.neighborhood q).extBuffer c →
      su.InsideFrom q dim.val c →
      su.OwnerValue field q c (field' q (index (su.neighborhood q).extBuffer c)))
    (hq : su.InRange q) (hc : InBox (su.neighborhood q).extBuffer c)
    (hin : su.InsideFrom q (dim.val + 1) c) : su.OwnerValue field q c
      (su.haloRound dim field' q (index (su.neighborhood q).extBuffer c)) := by
  have hbox := hc dim
  rw [su.extBuffer_apply] at hbox
  cases lt_or_ge (c dim) (haloLeft su.halos dim) with
  | inl hlt =>
    have hsource := source_inRange hq dim false
    have hle := w.left_le _ hsource dim
    obtain ⟨hbox', hinner⟩ := source_cell hq false hc hin
      (x := c dim + (su.neighborhood (su.source q dim false)).d.domainExt dim) (by omega)
    rw [haloRound_left hq hc hin hlt]
    exact (hbefore _ hsource _ hbox' hinner).congr (periodicImage_left hq c)
  | inr hge =>
    cases lt_or_ge (c dim) (haloLeft su.halos dim + (su.neighborhood q).d.domainExt dim) with
    | inl hlt =>
      have hinner : su.InsideFrom q dim.val c := by
        intro d hd
        by_cases heq : d = dim
        · subst heq
          exact ⟨hge, hlt⟩
        · exact hin d (by omega)
      rw [haloRound_inner hc hinner]
      exact hbefore q hq c hc hinner
    | inr hge' =>
      have hsource := source_inRange hq dim true
      have hle := w.right_le _ hsource dim
      obtain ⟨hbox', hinner⟩ := source_cell hq true hc hin
        (x := c dim - (su.neighborhood q).d.domainExt dim) (by omega)
      rw [haloRound_right hq hc hin hge']
      exact (hbefore _ hsource _ hbox' hinner).congr (periodicImage_right hq (by omega))

/-- After some rounds all cells that are inside the domain in the remaining dimensions are filled. -/
theorem Fitting.ownerValue_haloRounds (w : su.Fitting) {k : ℕ} (hk : k ≤ 3) (hq : su.InRange q)
    (hc : InBox (su.neighborhood q).extBuffer c) (hin : su.InsideFrom q k c) :
    su.OwnerValue field q c (su.haloRounds field k q (index (su.neighborhood q).extBuffer c)) := by
  induction k generalizing q c with
  | zero => exact ownerValue_inner hq hin
  | succ k ih =>
    have hdim : (phaseDim k).val = k := Nat.mod_eq_of_lt hk
    apply w.ownerValue_haloRound _ hq hc
    · rw [hdim]
      exact hin
    · intro q hq c hc hinner
      rw [hdim] at hinner
      exact ih (Nat.le_of_succ_le hk) hq hc hinner

end Rounds

section Versions

variable {path : Path} {start : ℕ × ℕ → Memory V} {mem : ℕ × ℕ → Memory V}

/-- The members of the exchange are the threads of the run. -/
theorem mem_members : q ∈ (su.exchange V path).members ↔ su.InRange q := by
  rw [exchange, Finset.mem_product, Finset.mem_range, Finset.mem_range]
  rfl

/-- A version of `exchange` that moves the outermost cells of the domains: all but the one with MPI
datatypes, and that one if both halos of each dimension have the same width. -/
def PathSuits (su : Setup) (path : Path) : Prop :=
  path = .datatypes → haloLeft su.halos = haloRight su.halos

/-- All phases of a version exchange the blocks of a dimension of a field. -/
def ExchangesBlocks (su : Setup) (V : Type*) (path : Path) : Prop :=
  ∀ q, su.InRange q → ∀ fieldId dim, Neighborhood.Exchanges (su.neighborhood q) fieldId dim
    ((su.neighborhood q).phase (V := V) path fieldId dim)

/-- If the domains are at least as large as their halos, the versions exchange the blocks. -/
theorem Fitting.exchangesBlocks (w : su.Fitting) (hpath : PathSuits su path) :
    su.ExchangesBlocks V path := fun _ hq => (w.neighborhood hq).exchanges hpath

/-- The version that packs all messages always exchanges the blocks. -/
theorem exchangesBlocks_packedZ (su : Setup) : su.ExchangesBlocks V .packedZ :=
  fun q _ => (su.neighborhood_built q).packed_exchanges

/-- Messages are read from places where no message arrives. -/
theorem ExchangesBlocks.independent (x : su.ExchangesBlocks V path) :
    (su.exchange V path).Independent where
  outgoing_incoming p q hq :=
    (x q (mem_members.mp hq) (p / 3) (phaseDim p)).outgoing_incoming
  incoming_comm p q hq := (x q (mem_members.mp hq) (p / 3) (phaseDim p)).incoming_comm
  source_mem p _ hq left := mem_members.mpr (source_inRange (mem_members.mp hq) (phaseDim p) left)

/-- A phase is a round for its field and leaves the other fields alone. -/
theorem ExchangesBlocks.fields_round (x : su.ExchangesBlocks V path) (hq : su.InRange q)
    (p f : ℕ) : ((su.exchange V path).round p mem q).fields f =
      if f = p / 3 then su.haloRound (phaseDim p) (fun q => (mem q).fields f) q
      else (mem q).fields f := by
  have hphase := x q hq (p / 3) (phaseDim p)
  have hmessage (left : Bool) : (su.exchange V path).message p mem (su.source q (phaseDim p) left) left =
      su.blockFrom (phaseDim p) (fun q => (mem q).fields (p / 3)) q left :=
    (x _ (source_inRange hq (phaseDim p) left) (p / 3) (phaseDim p)).outgoing_prepare left _
  have hlength (left : Bool) :
      (su.blockFrom (phaseDim p) (fun q => (mem q).fields (p / 3)) q left).length =
        volume ((su.neighborhood q).recvType (phaseDim p) left).size := by
    rw [blockFrom, Block.length_read, packed_source_size hq]
  simp only [Staged.round, Staged.receive, if_true]
  change ((((su.neighborhood q).phase path (p / 3) (phaseDim p)).conclude
    (((su.neighborhood q).phase path (p / 3) (phaseDim p)).incoming false
      ((su.exchange V path).message p mem (su.source q (phaseDim p) false) false)
      (((su.neighborhood q).phase path (p / 3) (phaseDim p)).incoming true
        ((su.exchange V path).message p mem (su.source q (phaseDim p) true) true)
        (((su.neighborhood q).phase path (p / 3) (phaseDim p)).prepare (mem q))))).fields f) = _
  rw [hmessage, hmessage]
  split
  · next hf =>
    subst hf
    exact hphase.field _ _ _ (hlength true) (hlength false)
  · next hf =>
    exact hphase.others _ _ _ f hf

/-- A round depends on the fields of the threads of the run only. -/
theorem haloRound_congr {field' : ℕ × ℕ → ℕ → V} (heq : ∀ q, su.InRange q → field q = field' q)
    (hq : su.InRange q) (dim : Fin 3) : su.haloRound dim field q = su.haloRound dim field' q := by
  unfold haloRound blockFrom
  dsimp only
  rw [heq q hq, heq _ (source_inRange hq dim false), heq _ (source_inRange hq dim true)]

/-- Rounds depend on the fields of the threads of the run only. -/
theorem haloRounds_congr {field' : ℕ × ℕ → ℕ → V} (heq : ∀ q, su.InRange q → field q = field' q)
    (hq : su.InRange q) (k : ℕ) : su.haloRounds field k q = su.haloRounds field' k q := by
  induction k generalizing q with
  | zero => exact heq q hq
  | succ k ih => exact haloRound_congr (fun q hq => ih hq) hq (phaseDim k)

/-- In lockstep each field goes through its three rounds. -/
theorem ExchangesBlocks.fields_after (x : su.ExchangesBlocks V path) (hq : su.InRange q)
    (p f : ℕ) : ((su.exchange V path).after start p q).fields f =
      su.haloRounds (fun q => (start q).fields f) (min (p - 3 * f) 3) q := by
  induction p generalizing q with
  | zero =>
    rw [Nat.zero_sub, Nat.zero_min]
    rfl
  | succ p ih =>
    rw [Staged.after, x.fields_round hq]
    split
    · next hf =>
      have hcount : min (p + 1 - 3 * f) 3 = min (p - 3 * f) 3 + 1 := by omega
      have hdim : phaseDim p = phaseDim (min (p - 3 * f) 3) := by
        apply Fin.ext
        change p % 3 = min (p - 3 * f) 3 % 3
        omega
      rw [hcount, haloRounds, ← hdim]
      exact haloRound_congr (fun q hq => ih hq) hq (phaseDim p)
    · next hf =>
      have hcount : min (p + 1 - 3 * f) 3 = min (p - 3 * f) 3 := by omega
      rw [hcount]
      exact ih hq

/-- At the end of any run each field has gone through its three rounds. -/
theorem ExchangesBlocks.fields_of_stuck (x : su.ExchangesBlocks V path)
    {s : StagedState (ℕ × ℕ) (Memory V) (List V)} (hs : (su.exchange V path).Reached start s)
    (hstuck : ∀ a, (su.exchange V path).next s a = none) (hq : su.InRange q) {f : ℕ}
    (hf : f < su.numFields) :
    (s.mem q).fields f = su.haloRounds (fun q => (start q).fields f) 3 q := by
  have hmem : s.mem q = (su.exchange V path).after start (3 * su.numFields) q :=
    Staged.mem_of_stuck x.independent hs hstuck (mem_members.mpr hq)
  have hcount : min (3 * su.numFields - 3 * f) 3 = 3 := by omega
  rw [hmem, x.fields_after hq, hcount]

/-- Every cell of the extended buffers has, in each field, the value that the domain which owns its
periodic image had in its interior at the start, and the cells inside the domains are unchanged. -/
def Filled (su : Setup) (h : ℕ) (start : ℕ × ℕ → Memory V)
    (s : StagedState (ℕ × ℕ) (Memory V) (List V)) : Prop :=
  ∀ q, su.InRange q → ∀ f < su.numFields, ∀ c, InBox (su.neighborhood q).extBuffer c →
    su.Owned h (fun q => (start q).fields f) q c
      ((s.mem q).fields f (index (su.neighborhood q).extBuffer c)) ∧
    ((∀ d, h ≤ c d ∧ c d < h + (su.neighborhood q).d.domainExt d) →
      (s.mem q).fields f (index (su.neighborhood q).extBuffer c) =
        (start q).fields f (index (su.neighborhood q).extBuffer c))

/-- After three rounds the halos of a field are filled. -/
theorem Fitting.ownerValue_end (w : su.Fitting) (hq : su.InRange q)
    (hc : InBox (su.neighborhood q).extBuffer c) : su.OwnerValue field q c
      (su.haloRounds field 3 q (index (su.neighborhood q).extBuffer c)) := by
  apply w.ownerValue_haloRounds le_rfl hq hc
  intro d hd
  exact absurd d.isLt (not_lt.mpr hd)

/-- For halos of equal width the cells inside a domain are those of `InnerFrom`. -/
theorem insideFrom_iff (hhalos : ∀ i, su.halos i = h) (q : ℕ × ℕ) (k : ℕ) (c : Arr ℕ) :
    su.InsideFrom q k c ↔ su.InnerFrom h q k c := by
  unfold InsideFrom InnerFrom
  rw [Neighborhood.haloLeft_of_forall hhalos]

end Versions

section Ends

variable {path : Path}

/-- Every run comes to an end, and at the end all threads have completed all phases. -/
theorem ExchangesBlocks.ends (x : su.ExchangesBlocks V path) (start : ℕ × ℕ → Memory V) :
    let ex := su.exchange V path
    (∃ bound, ∀ actions s, runActions ex.next (StagedState.init start) actions = some s →
      actions.length ≤ bound) ∧
    (∃ s, ex.Reached start s ∧ ∀ a, ex.next s a = none) ∧
    ∀ s, ex.Reached start s → (∀ a, ex.next s a = none) →
      ∀ q, su.InRange q → s.done q = 3 * su.numFields := by
  intro ex
  have hind : ex.Independent := x.independent
  refine ⟨⟨_, fun _ _ => Staged.length_le_of_run hind⟩, Staged.exists_end hind start, ?_⟩
  intro s hs hstuck q hq
  exact (Staged.Reached.inStep hind hs).done_of_stuck hind hstuck (mem_members.mpr hq)

end Ends

end Setup

/-- The halo exchange is correct. When all threads call `step` once, every run comes to an end, at
which all threads have completed all phases and the halos of all fields are filled. -/
theorem halo_exchange {V : Type*} (su : Setup) (path : Path) (h : ℕ) (start : ℕ × ℕ → Memory V)
    (hpos : 1 ≤ h) (hhalos : ∀ i, su.halos i = h)
    (hext : ∀ q, su.InRange q → ∀ d, h ≤ ((su.decomposition q.1).domain q.2).domainExt d) :
    let ex := su.exchange V path
    (∃ bound, ∀ actions s, runActions ex.next (StagedState.init start) actions = some s →
      actions.length ≤ bound) ∧
    (∃ s, ex.Reached start s ∧ ∀ a, ex.next s a = none) ∧
    ∀ s, ex.Reached start s → (∀ a, ex.next s a = none) →
      (∀ q, su.InRange q → s.done q = 3 * su.numFields) ∧ su.Filled h start s := by
  intro ex
  have u : su.Uniform h := ⟨hpos, hhalos, hext⟩
  have hpath : Setup.PathSuits su path := fun _ => by
    rw [Neighborhood.haloLeft_of_forall hhalos, Neighborhood.haloRight_of_forall hhalos]
  have x : su.ExchangesBlocks V path := u.fitting.exchangesBlocks hpath
  obtain ⟨hbound, hexists, hdone⟩ := x.ends start
  refine ⟨hbound, hexists, fun s hs hstuck => ⟨hdone s hs hstuck, ?_⟩⟩
  intro q hq f hf c hc
  have hvalue : su.OwnerValue (fun q => (start q).fields f) q c _ := u.fitting.ownerValue_end hq hc
  rw [x.fields_of_stuck hs hstuck hq hf, su.owned_iff hhalos]
  refine ⟨hvalue, fun hin => hvalue.eq_inner hq ?_⟩
  rw [Setup.insideFrom_iff hhalos]
  exact fun d _ => hin d

/-- Two ranks of two threads each with halos of width one. -/
def twoRanksSetup : Setup where
  cfg := twoRanks
  placement := .mpiCart (RankMap.xyz _ twoRanks.rankGrid_pos)
  halos _ := 1
  numFields := 2

/-- What holds for the four threads holds for all. -/
theorem twoRanksSetup_forall {p : ℕ × ℕ → Prop} (h : ∀ r < 2, ∀ t < 2, p (r, t)) (q : ℕ × ℕ)
    (hq : twoRanksSetup.InRange q) : p q := h q.1 hq.1 q.2 hq.2

/-- The domains are at least as large as their halos. -/
theorem twoRanksSetup_ext : ∀ q, twoRanksSetup.InRange q →
    ∀ d, 1 ≤ ((twoRanksSetup.decomposition q.1).domain q.2).domainExt d :=
  twoRanksSetup_forall (by decide)

/-- Fields in which all values of all threads are different. -/
def labelled (q : ℕ × ℕ) : Memory ℕ where
  fields f i := 10000 * q.1 + 1000 * q.2 + 100 * f + i
  sendBuffers _ _ _ := 0
  recvBuffers _ _ _ := 0

/-- The first corner of thread 0 of rank 0 comes from the last cell of thread 1 of rank 1, across
three periodic boundaries. -/
theorem halo_exchange_corner : ∃ s, (twoRanksSetup.exchange ℕ .packed).Reached labelled s ∧
    (s.mem (0, 0)).fields 1 0 = 11130 := by
  obtain ⟨_, ⟨s, hs, hstuck⟩, hfilled⟩ :=
    halo_exchange twoRanksSetup .packed 1 labelled le_rfl (fun _ => rfl) twoRanksSetup_ext
  refine ⟨s, hs, ?_⟩
  obtain ⟨⟨⟨r, t⟩, hq, hcontains, hvalue⟩, _⟩ :=
    (hfilled s hs hstuck).2 (0, 0) (by decide) 1 (by decide) ![0, 0, 0] (by decide)
  have hr : r < 2 := hq.1
  have ht : t < 2 := hq.2
  unfold Domain.Contains at hcontains
  apply Eq.trans hvalue _
  interval_cases r <;> interval_cases t
  · exact absurd hcontains (by decide)
  · exact absurd hcontains (by decide)
  · exact absurd hcontains (by decide)
  · rfl

end Ghexbench.Cartex
