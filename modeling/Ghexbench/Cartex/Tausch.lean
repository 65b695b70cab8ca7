import Ghexbench.Cartex.Accesses
import Ghexbench.Cartex.HaloShapes
import Ghexbench.Cartex.Regions

/-!
# The index lists of Tausch

The Tausch back-end gives the library a list of indices for each block that is sent or received, and
leaves packing and unpacking to it. The lists are those of the elements that the packing functions
read and the unpacking functions write, in the same order. If the library copies element by element
between matching neighbours, the three rounds have the result of the exchange with packed messages.
-/

namespace Ghexbench.Cartex

open Ghexbench.Common

namespace Tausch

/-- The indices of a range of elements in each dimension. -/
def haloIndices (xL xR yL yR zL zR : ℕ) (extBuffer : Arr ℕ) : List ℕ :=
  (List.range' zL (zR - zL)).flatMap fun z => (List.range' yL (yR - yL)).flatMap fun y =>
    (List.range' xL (xR - xL)).map fun x =>
      x + y * extBuffer 0 + z * (extBuffer 0 * extBuffer 1)

/-- The indices that `add_send_halo` registers. -/
def addSendHalo (xL xR yL yR zL zR : ℕ) (extBuffer : Arr ℕ) : List ℕ :=
  haloIndices xL xR yL yR zL zR extBuffer

/-- The indices that `add_recv_halo` registers. -/
def addRecvHalo (xL xR yL yR zL zR : ℕ) (extBuffer : Arr ℕ) : List ℕ :=
  haloIndices xL xR yL yR zL zR extBuffer

section Lists

variable (nb : Neighborhood)

/-- `r_x_l`. -/
def rXL : List ℕ := addRecvHalo 0 (nb.halos 0) (nb.halos 2) (nb.d.domainExt 1 + nb.halos 3)
  (nb.halos 4) (nb.d.domainExt 2 + nb.halos 5) nb.extBuffer

/-- `r_x_r`. -/
def rXR : List ℕ := addRecvHalo (nb.halos 0 + nb.d.domainExt 0) (nb.extBuffer 0) (nb.halos 2)
  (nb.d.domainExt 1 + nb.halos 3) (nb.halos 4) (nb.d.domainExt 2 + nb.halos 5) nb.extBuffer

/-- `r_y_l`. -/
def rYL : List ℕ := addRecvHalo 0 (nb.extBuffer 0) 0 (nb.halos 2) (nb.halos 4)
  (nb.d.domainExt 2 + nb.halos 5) nb.extBuffer

/-- `r_y_r`. -/
def rYR : List ℕ := addRecvHalo 0 (nb.extBuffer 0) (nb.halos 2 + nb.d.domainExt 1) (nb.extBuffer 1)
  (nb.halos 4) (nb.d.domainExt 2 + nb.halos 5) nb.extBuffer

/-- `r_z_l`. -/
def rZL : List ℕ := addRecvHalo 0 (nb.extBuffer 0) 0 (nb.extBuffer 1) 0 (nb.halos 4) nb.extBuffer

/-- `r_z_r`. -/
def rZR : List ℕ := addRecvHalo 0 (nb.extBuffer 0) 0 (nb.extBuffer 1)
  (nb.halos 4 + nb.d.domainExt 2) (nb.extBuffer 2) nb.extBuffer

/-- `s_x_l`. -/
def sXL : List ℕ := addSendHalo (nb.halos 0) (nb.halos 0 + nb.halos 1) (nb.halos 2)
  (nb.d.domainExt 1 + nb.halos 3) (nb.halos 4) (nb.d.domainExt 2 + nb.halos 5) nb.extBuffer

/-- `s_x_r`. -/
def sXR : List ℕ := addSendHalo (nb.d.domainExt 0) (nb.halos 0 + nb.d.domainExt 0) (nb.halos 2)
  (nb.d.domainExt 1 + nb.halos 3) (nb.halos 4) (nb.d.domainExt 2 + nb.halos 5) nb.extBuffer

/-- `s_y_l`. -/
def sYL : List ℕ := addSendHalo 0 (nb.extBuffer 0) (nb.halos 2) (nb.halos 2 + nb.halos 3)
  (nb.halos 4) (nb.d.domainExt 2 + nb.halos 5) nb.extBuffer

/-- `s_y_r`. -/
def sYR : List ℕ := addSendHalo 0 (nb.extBuffer 0) (nb.d.domainExt 1)
  (nb.halos 2 + nb.d.domainExt 1) (nb.halos 4) (nb.d.domainExt 2 + nb.halos 5) nb.extBuffer

/-- `s_z_l`. -/
def sZL : List ℕ := addSendHalo 0 (nb.extBuffer 0) 0 (nb.extBuffer 1) (nb.halos 4)
  (nb.halos 4 + nb.halos 5) nb.extBuffer

/-- `s_z_r`. -/
def sZR : List ℕ := addSendHalo 0 (nb.extBuffer 0) 0 (nb.extBuffer 1) (nb.d.domainExt 2)
  (nb.halos 4 + nb.d.domainExt 2) nb.extBuffer

/-- The indices that are sent with the messages in a direction. -/
def sendList (dim : Fin 3) (left : Bool) : List ℕ :=
  if left then ![sXL nb, sYL nb, sZL nb] dim else ![sXR nb, sYR nb, sZR nb] dim

/-- The indices that are received with the messages in a direction. -/
def recvList (dim : Fin 3) (left : Bool) : List ℕ :=
  if left then ![rXR nb, rYR nb, rZR nb] dim else ![rXL nb, rYL nb, rZL nb] dim

variable {nb} {h : ℕ}

/-- The indices of a block. -/
theorem haloIndices_eq (b : Block) (dims : Arr ℕ) :
    haloIndices (b.offset 0) (b.offset 0 + b.size 0) (b.offset 1) (b.offset 1 + b.size 1) (b.offset 2)
      (b.offset 2 + b.size 2) dims = b.places dims := by
  have hsize : b.size = ![b.size 0, b.size 1, b.size 2] := by
    funext d
    fin_cases d <;> rfl
  rw [← Block.flatMap_eq_places hsize (f := fun x y z => b.offset 0 + x +
    (b.offset 1 + y) * dims 0 + (b.offset 2 + z) * (dims 0 * dims 1))]
  · simp only [haloIndices, List.range'_eq_map_range, List.flatMap_map, List.map_map,
      Nat.add_sub_cancel_left]
    rfl
  · intro k
    simp only [index, Block.cell]
    ring

variable (b : nb.Built) (hhalos : ∀ i, nb.halos i = h)
include b hhalos

/-- The indices that are sent are those of the elements that the packing functions read. -/
theorem sendList_eq (dim : Fin 3) (left : Bool) : sendList nb dim left = nb.packReads dim left := by
  have hext := b.extBuffer
  rw [nb.packReads_eq, ← haloIndices_eq]
  simp only [Neighborhood.packed_offset, Neighborhood.packed_size, Neighborhood.recvType_size]
  fin_cases dim <;> cases left <;>
    simp [sendList, sXL, sXR, sYL, sYR, sZL, sZR, addSendHalo, haloLeft, haloRight, hhalos, hext,
      Nat.add_comm]

/-- The indices that are received are those of the elements that the unpacking functions write. -/
theorem recvList_eq (dim : Fin 3) (left : Bool) :
    recvList nb dim left = nb.unpackWrites dim left := by
  have hext := b.extBuffer
  rw [nb.unpackWrites_eq, ← haloIndices_eq]
  simp only [Neighborhood.recvType_offset, Neighborhood.recvType_size]
  fin_cases dim <;> cases left <;>
    simp [recvList, rXL, rXR, rYL, rYR, rZL, rZR, addRecvHalo, haloLeft, haloRight, hhalos, hext,
      Nat.add_comm]

end Lists

section Transfer

variable {V : Type*}

/-- A function of the library that copies the elements at the indices of the sender, the second list,
to those of the receiver, the first list. It takes the array of the sender and that of the receiver. -/
abbrev Transfer (V : Type*) := List ℕ → List ℕ → (ℕ → V) → (ℕ → V) → ℕ → V

/-- Each element of the receiver's list gets the element that stands at the same place in the sender's
list, and all other elements stay. -/
structure Transfer.Copies (transfer : Transfer V) : Prop where
  element : ∀ (recv send : List ℕ) (source target : ℕ → V), recv.Nodup → recv.length = send.length →
    ∀ p ∈ recv.zip send, transfer recv send source target p.1 = source p.2
  other : ∀ (recv send : List ℕ) (source target : ℕ → V), recv.Nodup → recv.length = send.length →
    ∀ i ∉ recv, transfer recv send source target i = target i

/-- Copy the elements one after another. -/
def copyEach : Transfer V := fun recv send source target => assign (recv.zip (send.map source)) target

/-- Copying the elements one after another copies each of them. -/
theorem copyEach_copies : Transfer.Copies (copyEach (V := V)) := by
  constructor
  · intro recv send source target hnodup hlength p hp
    rw [copyEach, List.zip_map_right]
    apply assign_of_mem
    · exact List.mem_map.mpr ⟨p, hp, rfl⟩
    · intro w hw hwp
      obtain ⟨q, hq, rfl⟩ := List.mem_map.mp hw
      have hfst : ((recv.zip send).map Prod.fst).Nodup := by rwa [List.map_fst_zip hlength.le]
      have hqp : q = p := List.inj_on_of_nodup_map hfst hq hp hwp
      rw [hqp]
      rfl
  · intro recv send source target _ _ i hi
    apply assign_of_forall_ne
    intro w hw hwi
    apply hi
    rw [← hwi]
    exact (List.of_mem_zip hw).1

/-- The result of the copies is determined by the lists. -/
theorem Transfer.Copies.eq_copyEach {transfer : Transfer V} (c : transfer.Copies) {recv send : List ℕ}
    (hnodup : recv.Nodup) (hlength : recv.length = send.length) (source target : ℕ → V) :
    transfer recv send source target = copyEach recv send source target := by
  funext i
  by_cases hi : i ∈ recv
  · rw [← List.map_fst_zip hlength.le] at hi
    obtain ⟨p, hp, rfl⟩ := List.mem_map.mp hi
    rw [c.element recv send source target hnodup hlength p hp,
      copyEach_copies.element recv send source target hnodup hlength p hp]
  · rw [c.other recv send source target hnodup hlength i hi,
      copyEach_copies.other recv send source target hnodup hlength i hi]

end Transfer

section Step

variable {V : Type*} (transfer : Transfer V)

/-- A round of `step` for all fields of all ranks. -/
def round (su : Setup) (dim : Fin 3) (fields : ℕ → ℕ → ℕ → V) (rank f : ℕ) : ℕ → V :=
  let nb := su.neighborhood (rank, 0)
  let unpackRecvBuffer (left : Bool) (field : ℕ → V) :=
    let neighbor := (nb.source dim left).rank
    transfer (recvList nb dim left) (sendList (su.neighborhood (neighbor, 0)) dim left)
      (fields neighbor f) field
  if f < su.numFields then unpackRecvBuffer true (unpackRecvBuffer false (fields rank f))
  else fields rank f

/-- `step` of all ranks. -/
def step (su : Setup) (fields : ℕ → ℕ → ℕ → V) : ℕ → ℕ → ℕ → V :=
  round transfer su 2 (round transfer su 1 (round transfer su 0 fields))

variable {transfer} {su : Setup} {h : ℕ} {q : ℕ × ℕ} {f : ℕ} (c : transfer.Copies)
  (hhalos : ∀ i, su.halos i = h)
include c hhalos

/-- The elements that are copied are those of the blocks. -/
theorem transfer_eq (hq : su.InRange q) (dim : Fin 3) (left : Bool) (field : ℕ × ℕ → ℕ → V)
    (a : ℕ → V) : transfer (recvList (su.neighborhood q) dim left)
      (sendList (su.neighborhood (su.source q dim left)) dim left) (field (su.source q dim left)) a =
    ((su.neighborhood q).recvType dim left).write (su.neighborhood q).extBuffer
      (su.blockFrom dim field q left) a := by
  have b := su.neighborhood_built q
  have hfits := b.recvType_fits dim left
  have hsize : volume ((su.neighborhood q).recvType dim left).size =
      volume ((su.neighborhood (su.source q dim left)).packed dim left).size := by
    rw [Setup.packed_source_size hq]
  have hlength : (su.blockFrom dim field q left).length =
      volume ((su.neighborhood q).recvType dim left).size := by
    rw [Setup.blockFrom, Block.length_read, hsize]
  rw [recvList_eq b hhalos, Neighborhood.unpackWrites_eq,
    sendList_eq (su.neighborhood_built _) hhalos, Neighborhood.packReads_eq,
    c.eq_copyEach (Block.nodup_places hfits) (by rw [Block.length_places, Block.length_places, hsize]),
    copyEach, Block.map_places]
  exact Block.assign_places hfits hlength a

variable (hthreads : su.cfg.numThreads ≤ 1)
include hthreads

omit c hhalos in
/-- Without threads, all threads are the first ones of their ranks. -/
theorem eq_first (hq : su.InRange q) : q = (q.1, 0) := by
  have hzero : q.2 = 0 := Nat.lt_one_iff.mp (hq.2.trans_le hthreads)
  rw [← hzero]

/-- A round copies the blocks that are exchanged with packed messages. -/
theorem round_eq (hq : su.InRange q) (dim : Fin 3) (hf : f < su.numFields)
    (fields : ℕ → ℕ → ℕ → V) :
    round transfer su dim fields q.1 f = su.haloRound dim (fun q => fields q.1 f) q := by
  have hfirst := eq_first hthreads hq
  have hsource (left : Bool) : ((su.neighborhood q).source dim left).rank = (su.source q dim left).1 :=
    rfl
  simp only [round, if_pos hf]
  rw [← hfirst, hsource, hsource, ← eq_first hthreads (Setup.source_inRange hq dim false),
    ← eq_first hthreads (Setup.source_inRange hq dim true)]
  rw [transfer_eq c hhalos hq dim true (fun q => fields q.1 f),
    transfer_eq c hhalos hq dim false (fun q => fields q.1 f)]
  exact (Block.write_comm ((su.neighborhood q).recvType_disjoint dim)).symm

/-- The three rounds are those of the exchange with packed messages. -/
theorem step_eq (hq : su.InRange q) (hf : f < su.numFields) (fields : ℕ → ℕ → ℕ → V) :
    step transfer su fields q.1 f = su.haloRounds (fun q => fields q.1 f) 3 q := by
  rw [step, round_eq c hhalos hthreads hq 2 hf]
  apply Setup.haloRound_congr _ hq
  intro q hq
  rw [round_eq c hhalos hthreads hq 1 hf]
  apply Setup.haloRound_congr _ hq
  intro q hq
  exact round_eq c hhalos hthreads hq 0 hf fields

end Step

end Tausch

/-- The Tausch back-end exchanges the cells that are packed, in the same order. If the library copies
element by element, it leaves the fields that the versions with packed messages leave. -/
theorem tausch_exchange (h : ℕ) :
    (∀ nb : Neighborhood, nb.Built → (∀ i, nb.halos i = h) → ∀ dim left,
      Tausch.sendList nb dim left = nb.packReads dim left ∧
      Tausch.recvList nb dim left = nb.unpackWrites dim left) ∧
    ∀ su : Setup, (∀ i, su.halos i = h) → su.cfg.numThreads ≤ 1 →
      ∀ path, path = .packedZ ∨ path = .packed ∧ su.Fitting →
      ∀ (V : Type) (transfer : Tausch.Transfer V), transfer.Copies →
      ∀ start : ℕ × ℕ → Memory V, su.Ends path start ∧
        ∀ s, (su.exchange V path).Reached start s → (∀ a, (su.exchange V path).next s a = none) →
          ∀ q, su.InRange q → ∀ f < su.numFields, (s.mem q).fields f =
            Tausch.step transfer su (fun rank => (start (rank, 0)).fields) q.1 f := by
  constructor
  · intro nb b hhalos dim left
    exact ⟨Tausch.sendList_eq b hhalos dim left, Tausch.recvList_eq b hhalos dim left⟩
  · intro su hhalos hthreads path hpath V transfer c start
    have x : su.ExchangesBlocks V path := by
      cases hpath with
      | inl hpath =>
        rw [hpath]
        exact su.exchangesBlocks_packedZ
      | inr hpath =>
        rw [hpath.1]
        exact hpath.2.exchangesBlocks nofun
    use x.ends start
    intro s hs hstuck q hq f hf
    rw [x.fields_of_stuck hs hstuck hq hf, Tausch.step_eq c hhalos hthreads hq hf]
    apply Setup.haloRounds_congr _ hq
    intro q hq
    rw [← Tausch.eq_first hthreads hq]

/-- Two ranks of one thread each, in a global domain that is not divisible by the grid. -/
def twoSingleThreads : Setup :=
  have cfg : Config := { twoRanks with
    threadGrid := fun _ => 1
    threadGrid_pos := fun _ => Nat.one_pos }
  ⟨cfg, .mpiCart (RankMap.xyz _ cfg.rankGrid_pos), fun _ => 1, 2⟩

/-- The first corner of rank 0 comes from the last cell of rank 1, across three periodic boundaries. -/
theorem tausch_exchange_corner : ∃ s, (twoSingleThreads.exchange ℕ .packed).Reached labelled s ∧
    (s.mem (0, 0)).fields 1 0 = 10154 ∧
    (s.mem (0, 0)).fields 1 0 = Tausch.step Tausch.copyEach twoSingleThreads
      (fun rank => (labelled (rank, 0)).fields) 0 1 0 := by
  have hext (q : ℕ × ℕ) (hq : twoSingleThreads.InRange q) (d : Fin 3) :
      1 ≤ ((twoSingleThreads.decomposition q.1).domain q.2).domainExt d := by
    obtain ⟨r, t⟩ := q
    have hr : r < 2 := hq.1
    obtain rfl : t = 0 := Nat.lt_one_iff.mp hq.2
    revert d
    interval_cases r <;> decide
  have u : twoSingleThreads.Uniform 1 := ⟨le_rfl, fun _ => rfl, hext⟩
  obtain ⟨⟨-, ⟨s, hs, hstuck⟩, -⟩, hstep⟩ := (tausch_exchange 1).2 twoSingleThreads (fun _ => rfl)
    (by decide) .packed (.inr ⟨rfl, u.fitting⟩) ℕ Tausch.copyEach Tausch.copyEach_copies labelled
  have hvalue := hstep s hs hstuck (0, 0) (by decide) 1 (by decide)
  refine ⟨s, hs, ?_, congrFun hvalue 0⟩
  rw [hvalue]
  decide +kernel

end Ghexbench.Cartex
