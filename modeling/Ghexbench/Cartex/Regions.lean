import Ghexbench.Cartex.HaloRounds
import Ghexbench.Cartex.Tags
import Ghexbench.Cartex.Tiling

/-!
# The regions of pending transfers

Some phases of `exchange` receive into the field and send from the field at the same time. This is only
allowed if the elements that are received are neither sent nor received by another transfer. Nothing
checks that the domains are large enough for the halos, on which this depends.
-/

namespace Ghexbench.Cartex

open Ghexbench.Common

namespace Neighborhood

variable {V : Type*} (nb : Neighborhood)

/-- The elements that the z phase without packing receives. -/
def directRecv (left : Bool) : Set ℕ :=
  let z0 := 0
  let z3 := nb.zPlane * (nb.halos 4 + nb.d.domainExt 2)
  let leftSize := nb.zPlane * nb.halos 5
  let rightSize := nb.zPlane * nb.halos 4
  if left then Set.Ico z3 (z3 + leftSize) else Set.Ico z0 (z0 + rightSize)

/-- The elements that the z phase without packing sends. -/
def directSend (left : Bool) : Set ℕ :=
  let z1 := nb.zPlane * nb.halos 4
  let z2 := nb.zPlane * nb.d.domainExt 2
  let leftSize := nb.zPlane * nb.halos 5
  let rightSize := nb.zPlane * nb.halos 4
  if left then Set.Ico z1 (z1 + leftSize) else Set.Ico z2 (z2 + rightSize)

/-- The transfers of a phase do not overlap: the elements that are received are not received twice and
not sent, and no element of the halo of the dimension is sent. -/
structure Clear (dim : Fin 3) (recv send : Bool → Set ℕ) : Prop where
  recv_recv : ∀ i ∈ recv false, i ∉ recv true
  recv_send : ∀ left left', ∀ i ∈ recv left, i ∉ send left'
  interior : ∀ left c, InBox nb.extBuffer c → index nb.extBuffer c ∈ send left →
    haloLeft nb.halos dim ≤ c dim ∧ c dim < haloLeft nb.halos dim + nb.d.domainExt dim

/-- The transfers of the phases that communicate directly from and into the field do not overlap. -/
def TransfersClear : Prop :=
  (∀ dim, nb.Clear dim (fun left => (nb.recvType dim left).elements nb.extBuffer)
    fun left => (nb.sendType dim left).elements nb.extBuffer) ∧
  nb.Clear 2 nb.directRecv nb.directSend

end Neighborhood

/-- The messages of a phase carry the elements of the given regions of a field. -/
structure Touches {V : Type*} (p : Phase (Memory V) (List V)) (fieldId : ℕ)
    (recv send : Bool → Set ℕ) : Prop where
  incoming : ∀ left data m f i, (f = fieldId → i ∉ recv left) →
    (p.incoming left data m).fields f i = m.fields f i
  outgoing : ∀ left m m', (∀ i ∈ send left, m.fields fieldId i = m'.fields fieldId i) →
    p.outgoing left m = p.outgoing left m'

namespace Neighborhood

variable {V : Type*} {nb : Neighborhood} {h : ℕ}

section Touches

/-- A field in memory after it has been set. -/
theorem setField_apply (m : Memory V) (fieldId f : ℕ) (field : ℕ → V) (i : ℕ)
    (h : f = fieldId → field i = m.fields f i) :
    (m.setField fieldId field).fields f i = m.fields f i := by
  change Function.update m.fields fieldId field f i = _
  by_cases heq : f = fieldId
  · rw [← h heq, heq, Function.update_self]
  · rw [Function.update_of_ne heq]

/-- The phases with MPI datatypes transfer the blocks. -/
theorem datatypes_touches (nb : Neighborhood) (fieldId : ℕ) (dim : Fin 3) :
    Touches (nb.datatypesPhase (V := V) fieldId dim) fieldId
      (fun left => (nb.recvType dim left).elements nb.extBuffer)
      (fun left => (nb.sendType dim left).elements nb.extBuffer) where
  incoming left data m f i hi := by
    apply setField_apply
    intro heq
    rw [Block.write_of_not_mem (hi heq), heq]
  outgoing left m m' h := Block.read_congr h

/-- Consecutive elements are read. -/
theorem readRange_congr {first n : ℕ} {a a' : ℕ → V}
    (h : ∀ i ∈ Set.Ico first (first + n), a i = a' i) : readRange first n a = readRange first n a' := by
  apply List.map_congr_left
  intro k hk
  exact h _ ⟨Nat.le_add_right _ _, Nat.add_lt_add_left (List.mem_range.mp hk) _⟩

/-- The z phase without packing transfers consecutive elements. -/
theorem direct_touches (nb : Neighborhood) (fieldId : ℕ) :
    Touches (nb.directPhase (V := V) fieldId) fieldId nb.directRecv nb.directSend where
  incoming left data m f i hi := by
    apply setField_apply
    intro heq
    cases left with
    | false => exact (if_neg (hi heq)).trans (by rw [heq])
    | true => exact (if_neg (hi heq)).trans (by rw [heq])
  outgoing left m m' h := by
    cases left with
    | false => exact readRange_congr h
    | true => exact readRange_congr h

end Touches

section Clear

/-- An element of consecutive planes. -/
theorem Built.index_mem_planes (b : nb.Built) {c : Arr ℕ} (hc : InBox nb.extBuffer c)
    (first n : ℕ) :
    index nb.extBuffer c ∈ Set.Ico (nb.zPlane * first) (nb.zPlane * first + nb.zPlane * n) ↔
      first ≤ c 2 ∧ c 2 < first + n := by
  have hplane : c 0 + nb.extBuffer 0 * c 1 < nb.zPlane := b.zPlane ▸ digit_lt (hc 0) (hc 1)
  have hindex : index nb.extBuffer c = c 0 + nb.extBuffer 0 * c 1 + nb.zPlane * c 2 := by
    rw [index, b.zPlane]
    ring
  have hdiv : index nb.extBuffer c / nb.zPlane = c 2 := by
    rw [hindex, Nat.add_mul_div_left _ _ (Nat.zero_lt_of_lt hplane), Nat.div_eq_of_lt hplane,
      Nat.zero_add]
  have hpos := Nat.zero_lt_of_lt hplane
  rw [← Nat.mul_add, Set.mem_Ico, Nat.mul_comm _ first, Nat.mul_comm _ (first + n),
    ← Nat.le_div_iff_mul_le hpos, ← Nat.div_lt_iff_lt_mul hpos, hdiv]

/-- Planes that follow others. -/
theorem disjoint_planes (zPlane : ℕ) {first n first' n' : ℕ}
    (hle : first + n ≤ first' ∨ first' + n' ≤ first) :
    ∀ i ∈ Set.Ico (zPlane * first) (zPlane * first + zPlane * n),
      i ∉ Set.Ico (zPlane * first') (zPlane * first' + zPlane * n') := by
  intro i hi hi'
  rw [← Nat.mul_add, Set.mem_Ico] at hi hi'
  cases hle with
  | inl hle => exact absurd (hi.2.trans_le (Nat.mul_le_mul_left zPlane hle)) (not_lt.mpr hi'.1)
  | inr hle => exact absurd (hi'.2.trans_le (Nat.mul_le_mul_left zPlane hle)) (not_lt.mpr hi.1)

/-- If the domain is at least as large as its halos, the datatypes do not overlap. -/
theorem Uniform.datatypes_clear (u : nb.Uniform h) (dim : Fin 3) :
    nb.Clear dim (fun left => (nb.recvType dim left).elements nb.extBuffer)
      fun left => (nb.sendType dim left).elements nb.extBuffer := by
  have heq : haloLeft nb.halos = haloRight nb.halos := by
    rw [haloLeft_of_forall u.halos, haloRight_of_forall u.halos]
  have hfits := u.toBuilt.recvType_fits dim
  simp only [sendType_eq_packed heq]
  constructor
  · intro i hi
    exact Block.not_mem_elements (recvType_disjoint nb dim) (hfits false) (hfits true) hi
  · intro left left' i hrecv hsend
    exact Block.not_mem_elements (u.fitting.packed_disjoint dim left' left) (u.packed_fits dim left')
      (hfits left) hsend hrecv
  · intro left c hc hmem
    have hdim := (Block.mem_elements_iff (u.packed_fits dim left) hc).mp hmem dim
    have hleft := u.fitting.left_le dim
    have hright := u.fitting.right_le dim
    rw [packed_offset, packed_size, recvType_size] at hdim
    cases left <;> simp at hdim <;> omega

/-- If the domain is at least as large as its halos, the planes do not overlap. -/
theorem Uniform.direct_clear (u : nb.Uniform h) : nb.Clear 2 nb.directRecv nb.directSend := by
  have hle := u.le 2
  have h4 := u.halos 4
  have h5 := u.halos 5
  have hzero : Set.Ico 0 (0 + nb.zPlane * nb.halos 4) =
      Set.Ico (nb.zPlane * 0) (nb.zPlane * 0 + nb.zPlane * nb.halos 4) := rfl
  constructor
  · simp only [directRecv, hzero, Bool.false_eq_true, if_true, if_false]
    apply disjoint_planes
    omega
  · intro left left'
    cases left <;> cases left' <;>
      (simp only [directRecv, directSend, hzero, Bool.false_eq_true, if_true, if_false]
       apply disjoint_planes
       omega)
  · intro left c hc hmem
    change nb.halos 4 ≤ c 2 ∧ c 2 < nb.halos 4 + nb.d.domainExt 2
    cases left with
    | false =>
      have := (u.toBuilt.index_mem_planes hc _ _).mp hmem
      omega
    | true =>
      have := (u.toBuilt.index_mem_planes hc _ _).mp hmem
      omega

/-- If the transfers do not overlap, the domain is at least as large as its halos. -/
theorem Built.le_of_clear (b : nb.Built) (hhalos : ∀ i, nb.halos i = h) (hpos : 1 ≤ h)
    (hclear : nb.TransfersClear) (d : Fin 3) : h ≤ nb.d.domainExt d := by
  have hbuffer (d : Fin 3) : nb.extBuffer d = nb.d.domainExt d + h + h := by
    rw [b.extBuffer_apply, haloLeft_of_forall hhalos, haloRight_of_forall hhalos]
  -- the last cell in the dimension that is sent to the left
  have hstep (dim : Fin 3) (hlater : ∀ d, dim < d → h ≤ nb.d.domainExt d) :
      h ≤ nb.d.domainExt dim := by
    let c : Arr ℕ := fun d => if d < dim then 0 else if d = dim then h + (h - 1) else h
    have hoffset (d : Fin 3) : (nb.sendType dim true).offset d = if d < dim then 0 else h := by
      rw [sendType_offset, haloLeft_of_forall hhalos]
      split
      · rfl
      · split <;> rfl
    have hsize (d : Fin 3) : (nb.sendType dim true).size d =
        if d < dim then nb.d.domainExt d + h + h else if d = dim then h else nb.d.domainExt d := by
      change (nb.packed dim true).size d = _
      rw [packed_size, recvType_size, haloRight_of_forall hhalos, hbuffer]
      rfl
    have hmem : (nb.sendType dim true).Mem c := by
      intro d
      have hd := hlater d
      rw [hoffset, hsize]
      dsimp only [c]
      rcases lt_trichotomy d dim with hlt | rfl | hgt
      · simp only [hlt, if_true]
        omega
      · simp only [lt_irrefl, if_true, if_false]
        omega
      · have := hd hgt
        simp only [not_lt.mpr hgt.le, hgt.ne', if_false]
        omega
    have hfits : (nb.sendType dim true).Fits nb.extBuffer := by
      intro d
      rw [hoffset, hsize, hbuffer]
      split
      · omega
      · split <;> omega
    have hbox := hmem.inBox hfits
    have hin := (hclear.1 dim).interior true c hbox ⟨c, hmem, rfl⟩
    rw [haloLeft_of_forall hhalos] at hin
    simp only [c, lt_irrefl, if_true, if_false] at hin
    omega
  have hz : h ≤ nb.d.domainExt 2 := hstep 2 fun d hd => absurd hd (not_lt.mpr (Fin.le_last d))
  have hy : h ≤ nb.d.domainExt 1 := by
    apply hstep 1
    intro d hd
    fin_cases d
    · exact absurd hd (by decide)
    · exact absurd hd (by decide)
    · exact hz
  have hx : h ≤ nb.d.domainExt 0 := by
    apply hstep 0
    intro d hd
    fin_cases d
    · exact absurd hd (by decide)
    · exact hy
    · exact hz
  fin_cases d
  · exact hx
  · exact hy
  · exact hz

end Clear

end Neighborhood

/-- All domains have a width if the division of the global domain does. -/
theorem Config.le_domainExt_iff (cfg : Config) (placement : Placement cfg.rankGrid) (h : ℕ) :
    (∀ r < cfg.numRanks, ∀ t < cfg.numThreads, ∀ d,
      h ≤ ((cfg.decomposition placement r).domain t).domainExt d) ↔
      ∀ d, h ≤ cfg.globalSize d / cfg.dim d := by
  constructor
  · intro hext d
    have hlast : InBox cfg.dim fun d => cfg.dim d - 1 :=
      fun d => Nat.sub_lt (cfg.dim_pos d) Nat.one_pos
    obtain ⟨q, ⟨hq, hcoord⟩, -⟩ := cfg.existsUnique_owner placement hlast
    have hle := hext q.1 hq.1 q.2 hq.2 d
    rw [cfg.domain_eq placement hq.1 hq.2, hcoord] at hle
    exact hle.trans_eq (share_last (cfg.dim_pos d))
  · intro hdiv r hr t ht d
    rw [cfg.domain_eq placement hr ht]
    exact (hdiv d).trans (div_le_share _ _ _)

/-- The transfers of all threads do not overlap. -/
def Setup.TransfersClear (su : Setup) : Prop :=
  ∀ q, su.InRange q → (su.neighborhood q).TransfersClear

/-- The transfers do not overlap if and only if all domains are at least as large as the halos, which
depends on how often the grid of domains goes into the global domain. -/
theorem transfers_clear_iff (su : Setup) (h : ℕ) (hhalos : ∀ i, su.halos i = h) (hpos : 1 ≤ h) :
    su.TransfersClear ↔ ∀ d, h ≤ su.cfg.globalSize d / su.cfg.dim d := by
  rw [← su.cfg.le_domainExt_iff su.placement]
  constructor
  · intro hclear r hr t ht d
    exact (su.neighborhood_built (r, t)).le_of_clear hhalos hpos (hclear (r, t) ⟨hr, ht⟩) d
  · intro hext q hq
    have u : (su.neighborhood q).Uniform h :=
      ⟨su.neighborhood_built q, hhalos, hpos, hext q.1 hq.1 q.2 hq.2⟩
    exact ⟨u.datatypes_clear, u.direct_clear⟩

/-- A single cubic domain with halos of one width. -/
def cubeWithHalos (n h : ℕ) : Setup where
  cfg := cube n
  placement := cubePlacement n
  halos := fun _ => h
  numFields := 1

/-- Halos of width two around two cells in each dimension. -/
theorem transfers_clear_two : (cubeWithHalos 2 2).TransfersClear :=
  (transfers_clear_iff (cubeWithHalos 2 2) 2 (fun _ => rfl) (by decide)).mpr (by decide)

/-- Halos of width two around a single cell. -/
theorem transfers_overlap : ¬ (cubeWithHalos 1 2).TransfersClear := by
  intro hclear
  have hbuilt := (cubeWithHalos 1 2).neighborhood_built (0, 0)
  have hle := hbuilt.le_of_clear (h := 2) (fun _ => rfl) (by decide)
    (hclear (0, 0) (cubeWithHalos 1 2).inRange_zero) 0
  exact absurd hle (by decide)

end Ghexbench.Cartex
