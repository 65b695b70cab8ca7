import Ghexbench.Cartex.DomainGrid
import Mathlib.Tactic.Ring

/-!
# The domains tile the global domain

A cell of the global domain determines one part in each dimension, the parts determine a
coordinate in the grid of domains, and the coordinate determines the rank and the thread.
-/

namespace Ghexbench.Cartex

open Ghexbench.Common

/-- A cell of the global domain lies in a domain. -/
def Domain.Contains (dom : Domain) (x : Arr ℕ) : Prop :=
  ∀ d, dom.domainCoord d ≤ x d ∧ x d < dom.domainCoord d + dom.domainExt d

namespace Config

variable (cfg : Config) (placement : Placement cfg.rankGrid) {r t : ℕ} {c x : Arr ℕ}

/-- The domain of a thread contains the cells whose parts are at its place in the grid. -/
theorem contains_iff (hr : r < cfg.numRanks) (ht : t < cfg.numThreads) :
    ((cfg.decomposition placement r).domain t).Contains x ↔ ∀ d,
      InPart (cfg.globalSize d) (cfg.dim d) ((cfg.decomposition placement r).coord t d) (x d) := by
  rw [cfg.domain_eq placement hr ht]
  rfl

/-- A place in the grid of domains belongs to one thread of one rank. -/
theorem existsUnique_owner (hc : InBox cfg.dim c) :
    ∃! q : ℕ × ℕ, (q.1 < cfg.numRanks ∧ q.2 < cfg.numThreads) ∧
      (cfg.decomposition placement q.1).coord q.2 = c := by
  refine ⟨(cfg.rankAt placement c, cfg.threadAt c), ⟨⟨cfg.rankAt_lt placement hc,
    cfg.threadAt_lt c⟩, cfg.coord_at placement hc⟩, ?_⟩
  rintro ⟨r, t⟩ ⟨⟨hr, ht⟩, hcoord⟩
  apply Prod.ext
  · change r = cfg.rankAt placement c
    rw [← hcoord, cfg.rankAt_coord placement hr ht]
  · change t = cfg.threadAt c
    rw [← hcoord, cfg.threadAt_coord placement ht]

/-- Every cell of the global domain lies in the domain of one thread of one rank. -/
theorem existsUnique_contains (hx : InBox cfg.globalSize x) :
    ∃! q : ℕ × ℕ, (q.1 < cfg.numRanks ∧ q.2 < cfg.numThreads) ∧
      ((cfg.decomposition placement q.1).domain q.2).Contains x := by
  have hpart (d : Fin 3) : ∃ i < cfg.dim d, InPart (cfg.globalSize d) (cfg.dim d) i (x d) := by
    apply exists_inPart
    rw [start_last (cfg.dim_pos d)]
    exact hx d
  choose c hc hin using hpart
  obtain ⟨q, ⟨hq, hcoord⟩, hunique⟩ := cfg.existsUnique_owner placement hc
  refine ⟨q, ⟨hq, ?_⟩, ?_⟩
  · rw [cfg.contains_iff placement hq.1 hq.2, hcoord]
    exact hin
  · intro q' hother
    obtain ⟨hq', hcontains⟩ := hother
    apply hunique q'
    rw [cfg.contains_iff placement hq'.1 hq'.2] at hcontains
    exact ⟨hq', funext fun d => (hcontains d).unique (hin d)⟩

/-- A domain contains no cell outside the global domain. -/
theorem inBox_of_contains (hr : r < cfg.numRanks) (ht : t < cfg.numThreads)
    (h : ((cfg.decomposition placement r).domain t).Contains x) : InBox cfg.globalSize x := by
  rw [cfg.contains_iff placement hr ht] at h
  intro d
  exact (h d).lt (cfg.coord_inBox placement hr ht d)

/-- The number of cells of a box of domains. -/
theorem volume_dim : volume cfg.dim = cfg.numThreads * cfg.numRanks := by
  simp only [volume, dim, numThreads, numRanks]
  ring

/-- The id of a domain is the number of its place in the grid. -/
theorem domain_id (hr : r < cfg.numRanks) (ht : t < cfg.numThreads) :
    ((cfg.decomposition placement r).domain t).id =
      index cfg.dim ((cfg.decomposition placement r).coord t) := by
  rw [cfg.domain_eq placement hr ht]
  rfl

/-- Every number below the number of domains is the id of one domain. -/
theorem existsUnique_id {id : ℕ} (hid : id < cfg.numThreads * cfg.numRanks) :
    ∃! q : ℕ × ℕ, (q.1 < cfg.numRanks ∧ q.2 < cfg.numThreads) ∧
      ((cfg.decomposition placement q.1).domain q.2).id = id := by
  have hc : InBox cfg.dim (unindex cfg.dim id) := unindex_inBox cfg.dim_pos (cfg.volume_dim ▸ hid)
  obtain ⟨q, ⟨hq, hcoord⟩, hunique⟩ := cfg.existsUnique_owner placement hc
  refine ⟨q, ⟨hq, ?_⟩, ?_⟩
  · rw [cfg.domain_id placement hq.1 hq.2, hcoord, index_unindex]
  · intro q' hother
    obtain ⟨hq', hid'⟩ := hother
    have hbox := cfg.coord_inBox placement hq'.1 hq'.2
    apply hunique q'
    refine ⟨hq', ?_⟩
    rw [← hid', cfg.domain_id placement hq'.1 hq'.2, unindex_index (hbox 0) (hbox 1)]

end Config

/-- The loop in `domains` collects the domains of all threads. -/
theorem Decomposition.domains_eq {rankGrid : Arr ℕ} (dec : Decomposition rankGrid) :
    dec.domains = (List.range dec.threadsPerRank).map dec.domain := by
  have hloop (l : List ℕ) (res : List Domain) :
      l.foldl (fun res i => res ++ [dec.domain i]) res = res ++ l.map dec.domain := by
    induction l generalizing res with
    | nil => simp
    | cons i l ih => simp [ih]
  exact hloop _ []

/-- The domains of all threads of all ranks cover every cell of the global domain exactly once
and contain no other cell. Their ids are the numbers below the number of domains, each one
once, their extents along a dimension differ by at most one, and `last_domain_coord` is the
last cell of the global domain. -/
theorem domains_tile (cfg : Config) (placement : Placement cfg.rankGrid) :
    let dec := cfg.decomposition placement
    let IsOwner := fun q : ℕ × ℕ => q.1 < cfg.numRanks ∧ q.2 < cfg.numThreads
    (∀ x, InBox cfg.globalSize x →
      ∃! q : ℕ × ℕ, IsOwner q ∧ ((dec q.1).domain q.2).Contains x) ∧
    (∀ q, IsOwner q → ∀ x, ((dec q.1).domain q.2).Contains x → InBox cfg.globalSize x) ∧
    (∀ r id, id < (dec r).numDomains → ∃! q : ℕ × ℕ, IsOwner q ∧ ((dec q.1).domain q.2).id = id) ∧
    (∀ r q, IsOwner q → ((dec q.1).domain q.2).id < (dec r).numDomains) ∧
    (∀ q q' d, IsOwner q → IsOwner q' →
      ((dec q.1).domain q.2).domainExt d ≤ ((dec q'.1).domain q'.2).domainExt d + 1) ∧
    (∀ r, (dec r).domains = (List.range cfg.numThreads).map (dec r).domain) ∧
    (∀ r, (dec r).globalDomain = cfg.globalSize) ∧
    (∀ r d, (dec r).lastDomainCoord d = (cfg.globalSize d : ℤ) - 1) := by
  intro dec IsOwner
  refine ⟨fun x hx => cfg.existsUnique_contains placement hx, fun q hq x hx => ?_,
    fun r id hid => cfg.existsUnique_id placement hid, fun r q hq => ?_, fun q q' d hq hq' => ?_,
    fun r => (dec r).domains_eq, fun r => rfl, fun r d => ?_⟩
  · exact cfg.inBox_of_contains placement hq.1 hq.2 hx
  · rw [cfg.domain_id placement hq.1 hq.2]
    exact (index_lt (cfg.coord_inBox placement hq.1 hq.2)).trans_eq cfg.volume_dim
  · rw [cfg.domain_eq placement hq.1 hq.2, cfg.domain_eq placement hq'.1 hq'.2]
    exact share_le_succ _ _ _ _
  · exact congrFun (cfg.lastDomainCoord_eq placement r) d

end Ghexbench.Cartex
