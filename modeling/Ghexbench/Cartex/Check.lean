import Ghexbench.Cartex.Fields
import Ghexbench.Cartex.HaloExchange

/-!
# The check is exact

`check` accepts the contents of the fields of a thread if and only if every cell of the extended
buffer has the value that `make_fields` gives to its periodic image. The 27 regions contain every cell
of the buffer once, and the offsets into the neighbours lead to the image.
-/

namespace Ghexbench.Cartex

open Ghexbench.Common

/-- The value for a cell of the global domain, from the number of the cell. -/
theorem cellValue_natCast (n : Arr ℕ) (numFields i : ℕ) (x : Arr ℕ) :
    cellValue (fun d => (n d : ℤ) - 1) numFields i (fun d => x d) =
      ((index n x * numFields + i : ℕ) : ℤ) := by
  simp only [cellValue, index]
  push_cast
  ring

namespace Setup

variable {su : Setup} {q : ℕ × ℕ} {c k : Arr ℕ} {offset : Arr ℤ} {i : ℕ}

section MakeFields

/-- The cells of the domain in the extended buffer. -/
def domainBlock (su : Setup) (q : ℕ × ℕ) : Block :=
  ⟨haloLeft su.halos, (su.neighborhood q).d.domainExt⟩

/-- The value that `make_fields` gives to a cell of the domain. -/
theorem makeField_apply (su : Setup) (q : ℕ × ℕ) (i : ℕ)
    (hk : InBox (su.neighborhood q).d.domainExt k) :
    su.makeField q i (index (su.neighborhood q).extBuffer ((su.domainBlock q).cell k)) =
      cellValue (fun d => (su.cfg.globalSize d : ℤ) - 1) su.numFields i
        fun d => (((su.neighborhood q).d.domainCoord d + k d : ℕ) : ℤ) := by
  have hlast : (su.decomposition q.1).lastDomainCoord = fun d => (su.cfg.globalSize d : ℤ) - 1 :=
    su.cfg.lastDomainCoord_eq su.placement q.1
  have hfits : (su.domainBlock q).Fits (su.neighborhood q).extBuffer := by
    intro d
    rw [su.extBuffer_apply]
    change haloLeft su.halos d + (su.neighborhood q).d.domainExt d ≤ _
    omega
  have hsize : (su.domainBlock q).size = ![(su.neighborhood q).d.domainExt 0,
      (su.neighborhood q).d.domainExt 1, (su.neighborhood q).d.domainExt 2] := by
    funext d
    fin_cases d <;> rfl
  unfold makeField
  simp only [viewIndex_eq, hlast]
  refine (Block.forRange_apply hsize hfits (fun k => ?_) _ hk).trans ?_
  · congr 1
    funext d
    fin_cases d <;> exact Nat.add_comm _ _
  · congr 1
    funext d
    fin_cases d <;> rfl

/-- The value that `make_fields` gives to the cell which a cell is a periodic image of. -/
theorem ownerValue_makeField_iff (hpos : ∀ d, 0 < su.cfg.globalSize d) {v : ℤ} :
    su.OwnerValue (fun q => su.makeField q i) q c v ↔
      v = cellValue (fun d => (su.cfg.globalSize d : ℤ) - 1) su.numFields i
        fun d => (su.periodicImage q c d : ℤ) := by
  have hvalue (q' : ℕ × ℕ) (hcontains : (su.neighborhood q').d.Contains (su.periodicImage q c)) :
      su.makeField q' i (index (su.neighborhood q').extBuffer fun d =>
        su.periodicImage q c d - (su.neighborhood q').d.domainCoord d + haloLeft su.halos d) =
      cellValue (fun d => (su.cfg.globalSize d : ℤ) - 1) su.numFields i
        fun d => (su.periodicImage q c d : ℤ) := by
    have hk : InBox (su.neighborhood q').d.domainExt
        fun d => su.periodicImage q c d - (su.neighborhood q').d.domainCoord d := by
      intro d
      have := hcontains d
      dsimp only
      omega
    have hcell : (su.domainBlock q').cell
        (fun d => su.periodicImage q c d - (su.neighborhood q').d.domainCoord d) =
        fun d => su.periodicImage q c d - (su.neighborhood q').d.domainCoord d +
          haloLeft su.halos d := by
      funext d
      exact Nat.add_comm _ _
    rw [← hcell, su.makeField_apply q' i hk]
    congr 1
    funext d
    rw [Nat.add_sub_cancel' (hcontains d).1]
  constructor
  · rintro ⟨q', hq', hcontains, rfl⟩
    exact hvalue q' hcontains
  · intro hv
    obtain ⟨q', ⟨hq', hcontains⟩, -⟩ :=
      su.cfg.existsUnique_contains su.placement (periodicImage_inBox q c hpos)
    exact ⟨q', hq', hcontains, hv.trans (hvalue q' hcontains).symm⟩

end MakeFields

section Regions

/-- The cells of the extended buffer that `check` compares with a neighbour. -/
def region (su : Setup) (q : ℕ × ℕ) (offset : Arr ℤ) : Block where
  offset d := regionFirst (offset d) (haloLeft su.halos d) ((su.neighborhood q).d.domainExt d)
  size d := regionExt (offset d) (haloLeft su.halos d) ((su.neighborhood q).d.domainExt d)
    (haloRight su.halos d)

/-- The offset of the neighbour that a cell is compared with. -/
def regionOf (su : Setup) (q : ℕ × ℕ) (c : Arr ℕ) : Arr ℤ := fun d =>
  if c d < haloLeft su.halos d then -1
  else if c d < haloLeft su.halos d + (su.neighborhood q).d.domainExt d then 0 else 1

/-- The offsets are those of adjacent domains. -/
theorem regionOf_bound (su : Setup) (q : ℕ × ℕ) (c : Arr ℕ) (d : Fin 3) :
    -1 ≤ su.regionOf q c d ∧ su.regionOf q c d ≤ 1 := by
  unfold regionOf
  split
  · decide
  · split <;> decide

/-- The cells of a region. -/
theorem mem_region_iff (hoffset : ∀ d, -1 ≤ offset d ∧ offset d ≤ 1) :
    (su.region q offset).Mem c ↔ InBox (su.neighborhood q).extBuffer c ∧ offset = su.regionOf q c := by
  have hdim (d : Fin 3) : ((su.region q offset).offset d ≤ c d ∧
      c d < (su.region q offset).offset d + (su.region q offset).size d) ↔
      c d < (su.neighborhood q).extBuffer d ∧ offset d = su.regionOf q c d := by
    obtain ⟨hlow, hhigh⟩ := hoffset d
    rw [su.extBuffer_apply]
    simp only [region, regionFirst, regionExt, regionOf]
    split <;> split <;> (try split) <;> omega
  constructor
  · intro hmem
    exact ⟨fun d => ((hdim d).mp (hmem d)).1, funext fun d => ((hdim d).mp (hmem d)).2⟩
  · intro hc d
    exact (hdim d).mpr ⟨hc.1 d, congrFun hc.2 d⟩

/-- Every cell of the extended buffer lies in one region. -/
theorem existsUnique_region (hc : InBox (su.neighborhood q).extBuffer c) :
    ∃! offset : Arr ℤ, (∀ d, -1 ≤ offset d ∧ offset d ≤ 1) ∧ (su.region q offset).Mem c := by
  refine ⟨su.regionOf q c, ⟨su.regionOf_bound q c, ?_⟩, fun offset ho => ?_⟩
  · exact (mem_region_iff (su.regionOf_bound q c)).mpr ⟨hc, rfl⟩
  · exact ((mem_region_iff ho.1).mp ho.2).2

/-- The cell of the global domain that `check` expects the value of. -/
def expectedCell (su : Setup) (q : ℕ × ℕ) (offset : Arr ℤ) (k : Arr ℕ) : Arr ℤ := fun d =>
  let n := (su.decomposition q.1).neighbor q.2 offset
  n.domainCoord d + regionFirstN (offset d) (n.domainExt d) (haloLeft su.halos d) + k d

/-- The expected cell lies in the neighbour, and is the cell itself up to the size of the global
domain. -/
theorem Fitting.expectedCell_spec (w : su.Fitting) (hq : su.InRange q)
    (hoffset : ∀ d, -1 ≤ offset d ∧ offset d ≤ 1) (hk : InBox (su.region q offset).size k)
    (d : Fin 3) :
    let n := (su.decomposition q.1).neighbor q.2 offset
    ((n.domainCoord d : ℤ) ≤ su.expectedCell q offset k d ∧
      su.expectedCell q offset k d < n.domainCoord d + n.domainExt d) ∧
    su.expectedCell q offset k d ≡ ((su.neighborhood q).d.domainCoord d : ℤ) +
      ((su.region q offset).cell k d : ℕ) - haloLeft su.halos d [ZMOD su.cfg.globalSize d] := by
  intro n
  obtain ⟨hrank, hthread⟩ := su.cfg.neighbor_inRange su.placement hq.1 hq.2 hoffset
  have hdomain : (su.neighborhood (n.rank, n.thread)).d = n :=
    (su.cfg.neighbor_eq_domain su.placement hq.1 hq.2 hoffset).symm
  have hleft := w.left_le (n.rank, n.thread) ⟨hrank, hthread⟩ d
  have hright := w.right_le (n.rank, n.thread) ⟨hrank, hthread⟩ d
  rw [hdomain] at hleft hright
  have hkd : k d < regionExt (offset d) (haloLeft su.halos d) ((su.neighborhood q).d.domainExt d)
      (haloRight su.halos d) := hk d
  have hexpected : su.expectedCell q offset k d =
      n.domainCoord d + regionFirstN (offset d) (n.domainExt d) (haloLeft su.halos d) + k d := rfl
  have hcell : (su.region q offset).cell k d = regionFirst (offset d) (haloLeft su.halos d)
      ((su.neighborhood q).d.domainExt d) + k d := rfl
  rw [hexpected, hcell]
  have hcases : offset d = -1 ∨ offset d = 0 ∨ offset d = 1 := by
    have := hoffset d
    omega
  rcases hcases with ho | ho | ho
  · have hadjacent : (su.neighborhood q).d.domainCoord d ≡ n.domainCoord d + n.domainExt d
        [MOD su.cfg.globalSize d] :=
      su.cfg.neighbor_adjacent_left su.placement hq.1 hq.2 hoffset ho
    have hmod := (Int.natCast_modEq_iff.mpr hadjacent).symm.add_right
      ((k d : ℤ) - haloLeft su.halos d)
    simp only [ho, regionExt, regionFirstN, regionFirst, Int.reduceNeg, Int.reduceLT, if_true]
      at hkd ⊢
    push_cast at hmod ⊢
    refine ⟨by omega, ?_⟩
    convert hmod using 1 <;> ring
  · obtain ⟨hcoord, hext⟩ := su.cfg.neighbor_aligned su.placement hq.1 hq.2 hoffset ho
    change n.domainCoord d = (su.neighborhood q).d.domainCoord d at hcoord
    change n.domainExt d = (su.neighborhood q).d.domainExt d at hext
    simp only [ho, regionExt, regionFirstN, regionFirst, lt_irrefl, if_true, if_false] at hkd ⊢
    refine ⟨by omega, ?_⟩
    rw [hcoord]
    push_cast
    ring_nf
    rfl
  · have hadjacent : n.domainCoord d ≡ (su.neighborhood q).d.domainCoord d +
        (su.neighborhood q).d.domainExt d [MOD su.cfg.globalSize d] :=
      su.cfg.neighbor_adjacent su.placement hq.1 hq.2 hoffset ho
    have hmod := (Int.natCast_modEq_iff.mpr hadjacent).add_right (k d : ℤ)
    simp only [ho, regionExt, regionFirstN, regionFirst, Int.reduceLT, one_ne_zero, if_false]
      at hkd ⊢
    push_cast at hmod ⊢
    refine ⟨by omega, ?_⟩
    convert hmod using 1 <;> ring

/-- The offsets into the neighbours lead to the periodic image. -/
theorem Fitting.expectedCell_eq (w : su.Fitting) (hq : su.InRange q)
    (hoffset : ∀ d, -1 ≤ offset d ∧ offset d ≤ 1) (hk : InBox (su.region q offset).size k) :
    su.expectedCell q offset k = fun d => (su.periodicImage q ((su.region q offset).cell k) d : ℤ) := by
  funext d
  obtain ⟨⟨hlow, hhigh⟩, hmod⟩ := w.expectedCell_spec hq hoffset hk d
  have hle := su.cfg.neighbor_le su.placement hq.1 hq.2 hoffset d
  have hbound : su.expectedCell q offset k d < su.cfg.globalSize d :=
    hhigh.trans_le (by exact_mod_cast hle)
  have hnonneg : 0 ≤ su.expectedCell q offset k d := (Int.natCast_nonneg _).trans hlow
  rw [periodicImage, ← hmod, Int.emod_eq_of_lt hnonneg hbound, Int.toNat_of_nonneg hnonneg]

/-- The loop over the offsets in a dimension. -/
theorem mem_neighborOffsets {o : ℤ} : o ∈ neighborOffsets ↔ -1 ≤ o ∧ o ≤ 1 := by
  simp only [neighborOffsets, List.mem_cons, List.not_mem_nil, or_false]
  omega

/-- What `check` compares. -/
theorem check_eq_true_iff (su : Setup) (q : ℕ × ℕ) (fields : ℕ → ℕ → ℤ) : su.check q fields = true ↔
    ∀ i < su.numFields, ∀ offset : Arr ℤ, (∀ d, -1 ≤ offset d ∧ offset d ≤ 1) →
      ∀ k, InBox (su.region q offset).size k →
        fields i (index (su.neighborhood q).extBuffer ((su.region q offset).cell k)) =
          cellValue (fun d => (su.cfg.globalSize d : ℤ) - 1) su.numFields i
            (su.expectedCell q offset k) := by
  have hlast : (su.decomposition q.1).lastDomainCoord = fun d => (su.cfg.globalSize d : ℤ) - 1 :=
    su.cfg.lastDomainCoord_eq su.placement q.1
  have heta {α : Type} (a : Arr α) : ![a 0, a 1, a 2] = a := by
    funext d
    fin_cases d <;> rfl
  simp only [check, List.all_eq_true, List.mem_range, mem_neighborOffsets, beq_iff_eq, viewIndex_eq,
    hlast]
  constructor
  · intro h i hi offset ho k hk
    have hvalue := h i hi (offset 2) (ho 2) (offset 1) (ho 1) (offset 0) (ho 0) (k 2) (hk 2) (k 1)
      (hk 1) (k 0) (hk 0)
    rw [heta offset] at hvalue
    rw [← heta ((su.region q offset).cell k), ← heta (su.expectedCell q offset k)]
    exact hvalue
  · intro h i hi zn hz yn hy xn hx kk hkk jj hjj ii hii
    have hoffset : ∀ d, -1 ≤ ![xn, yn, zn] d ∧ ![xn, yn, zn] d ≤ 1 := by
      intro d
      fin_cases d
      · exact hx
      · exact hy
      · exact hz
    have hbox : InBox (su.region q ![xn, yn, zn]).size ![ii, jj, kk] := by
      intro d
      fin_cases d
      · exact hii
      · exact hjj
      · exact hkk
    have hvalue := h i hi ![xn, yn, zn] hoffset ![ii, jj, kk] hbox
    rw [← heta ((su.region q ![xn, yn, zn]).cell ![ii, jj, kk]),
      ← heta (su.expectedCell q ![xn, yn, zn] ![ii, jj, kk])] at hvalue
    exact hvalue

/-- A cell of an extended buffer has neighbours in the global domain. -/
theorem Fitting.globalSize_pos (w : su.Fitting) (hq : su.InRange q)
    (hc : InBox (su.neighborhood q).extBuffer c) (d : Fin 3) : 0 < su.cfg.globalSize d := by
  have hbox := hc d
  have hleft := w.left_le q hq d
  have hright := w.right_le q hq d
  rw [su.extBuffer_apply] at hbox
  have hle : (su.neighborhood q).d.domainCoord d + (su.neighborhood q).d.domainExt d ≤
      su.cfg.globalSize d := su.cfg.domain_le su.placement hq.1 hq.2 d
  omega

/-- `check` compares each cell of the extended buffer with the value of its periodic image. -/
theorem Fitting.check_iff (w : su.Fitting) (hq : su.InRange q) (fields : ℕ → ℕ → ℤ) :
    su.check q fields = true ↔ ∀ i < su.numFields, ∀ c, InBox (su.neighborhood q).extBuffer c →
      su.OwnerValue (fun q => su.makeField q i) q c
        (fields i (index (su.neighborhood q).extBuffer c)) := by
  rw [check_eq_true_iff]
  constructor
  · intro h i hi c hc
    have hbound := su.regionOf_bound q c
    have hmem : (su.region q (su.regionOf q c)).Mem c := (mem_region_iff hbound).mpr ⟨hc, rfl⟩
    have hvalue := h i hi _ hbound _ hmem.rel_inBox
    rw [w.expectedCell_eq hq hbound hmem.rel_inBox, hmem.cell_rel] at hvalue
    exact (ownerValue_makeField_iff (w.globalSize_pos hq hc)).mpr hvalue
  · intro h i hi offset hoffset k hk
    have hc := ((mem_region_iff hoffset).mp (Block.mem_cell hk)).1
    rw [w.expectedCell_eq hq hoffset hk]
    exact (ownerValue_makeField_iff (w.globalSize_pos hq hc)).mp (h i hi _ hc)

end Regions

end Setup

/-- The check is sound and complete: it succeeds if and only if every cell of the extended buffer has,
in every field, the value that `make_fields` gives to the periodic image of the cell. Its regions
contain every cell of the extended buffer once, and no other cell. -/
theorem check_exact (su : Setup) (h : ℕ) (q : ℕ × ℕ) (fields : ℕ → ℕ → ℤ) (hhalos : ∀ i, su.halos i = h)
    (hext : ∀ q, su.InRange q → ∀ d, h ≤ ((su.decomposition q.1).domain q.2).domainExt d)
    (hq : su.InRange q) :
    (su.check q fields = true ↔ ∀ i < su.numFields, ∀ c, InBox (su.neighborhood q).extBuffer c →
      su.Owned h (fun q => su.makeField q i) q c
        (fields i (index (su.neighborhood q).extBuffer c))) ∧
    (∀ c, InBox (su.neighborhood q).extBuffer c →
      ∃! offset : Arr ℤ, (∀ d, -1 ≤ offset d ∧ offset d ≤ 1) ∧ (su.region q offset).Mem c) ∧
    (∀ offset : Arr ℤ, (∀ d, -1 ≤ offset d ∧ offset d ≤ 1) → ∀ c, (su.region q offset).Mem c →
      InBox (su.neighborhood q).extBuffer c) := by
  have w : su.Fitting := by
    constructor
    · rw [Neighborhood.haloLeft_of_forall hhalos]
      exact hext
    · rw [Neighborhood.haloRight_of_forall hhalos]
      exact hext
  refine ⟨?_, fun c hc => Setup.existsUnique_region hc, fun offset ho c hc => ?_⟩
  · simp only [su.owned_iff hhalos]
    exact w.check_iff hq fields
  · exact ((Setup.mem_region_iff ho).mp hc).1

/-- The check of thread 0 of rank 0 accepts the values of the periodic images. The first corner of
field 1 then has the value of the last cell of the global domain, which another thread owns. -/
theorem check_exact_twoRanks :
    let nb := twoRanksSetup.neighborhood (0, 0)
    let images (i k : ℕ) : ℤ :=
      (index ![5, 3, 2] (twoRanksSetup.periodicImage (0, 0) (unindex nb.extBuffer k)) * 2 + i : ℕ)
    twoRanksSetup.check (0, 0) images = true ∧
      twoRanksSetup.Owned 1 (fun q => twoRanksSetup.makeField q 1) (0, 0) ![0, 0, 0] 59 := by
  intro nb images
  have hcheck : twoRanksSetup.check (0, 0) images = true := by decide +kernel
  have hexact := (check_exact twoRanksSetup 1 (0, 0) images (fun _ => rfl) twoRanksSetup_ext
    (by decide)).1
  have hcorner : images 1 (index nb.extBuffer ![0, 0, 0]) = 59 := by decide
  refine ⟨hcheck, ?_⟩
  rw [← hcorner]
  exact hexact.mp hcheck 1 (by decide) ![0, 0, 0] (by decide)

end Ghexbench.Cartex
