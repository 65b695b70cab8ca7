import Ghexbench.Cartex.HaloExchange
import Ghexbench.Cartex.Tags

/-!
# Halos of different widths

The widths of the halos on the left and on the right are members of their own. The packing versions
of `exchange` are right for all widths, but the datatypes of the messages to the right begin where
they would have to begin if the halo on the left was as wide as the one on the right.
-/

namespace Ghexbench.Cartex

open Ghexbench.Common

/-- The arguments that `MPI_Type_create_subarray` accepts: a block inside the array with at least one
element in each dimension. -/
def Subarray (dims : Arr ℕ) (b : Block) : Prop := ∀ d, 1 ≤ b.size d ∧ b.offset d + b.size d ≤ dims d

namespace Setup

variable {V : Type*} (su : Setup)

/-- The datatypes of all threads can be created. -/
def DatatypesCreated : Prop :=
  ∀ q, su.InRange q → ∀ dim left,
    Subarray (su.neighborhood q).extBuffer ((su.neighborhood q).sendType dim left) ∧
    Subarray (su.neighborhood q).extBuffer ((su.neighborhood q).recvType dim left)

/-- A cell of the halo of one dimension only. -/
def Beside (q : ℕ × ℕ) (dim : Fin 3) (c : Arr ℕ) : Prop :=
  InBox (su.neighborhood q).extBuffer c ∧ ∀ d, d ≠ dim → haloLeft su.halos d ≤ c d ∧
    c d < haloLeft su.halos d + (su.neighborhood q).d.domainExt d

/-- The halos on the left hold the last cells of the neighbours on the left, the halos on the right
the first cells of the neighbours on the right, and all cells the values of their owners. -/
structure Transferred (start : ℕ × ℕ → Memory V) (s : StagedState (ℕ × ℕ) (Memory V) (List V)) :
    Prop where
  left : ∀ q, su.InRange q → ∀ f < su.numFields, ∀ dim c, su.Beside q dim c →
    c dim < haloLeft su.halos dim → (s.mem q).fields f (index (su.neighborhood q).extBuffer c) =
      (start (su.source q dim false)).fields f
        (index (su.neighborhood (su.source q dim false)).extBuffer (Function.update c dim
          ((su.neighborhood (su.source q dim false)).d.domainExt dim + c dim)))
  right : ∀ q, su.InRange q → ∀ f < su.numFields, ∀ dim c, su.Beside q dim c →
    haloLeft su.halos dim + (su.neighborhood q).d.domainExt dim ≤ c dim →
    (s.mem q).fields f (index (su.neighborhood q).extBuffer c) =
      (start (su.source q dim true)).fields f
        (index (su.neighborhood (su.source q dim true)).extBuffer
          (Function.update c dim (c dim - (su.neighborhood q).d.domainExt dim)))
  owner : ∀ q, su.InRange q → ∀ f < su.numFields, ∀ c, InBox (su.neighborhood q).extBuffer c →
    su.OwnerValue (fun q => (start q).fields f) q c
      ((s.mem q).fields f (index (su.neighborhood q).extBuffer c))

/-- Every run of a version of `exchange` comes to an end, at which all threads have completed all
phases. -/
def Ends (path : Path) (start : ℕ × ℕ → Memory V) : Prop :=
  (∃ bound, ∀ actions s, runActions (su.exchange V path).next (StagedState.init start) actions =
    some s → actions.length ≤ bound) ∧
  (∃ s, (su.exchange V path).Reached start s ∧ ∀ a, (su.exchange V path).next s a = none) ∧
  ∀ s, (su.exchange V path).Reached start s → (∀ a, (su.exchange V path).next s a = none) →
    ∀ q, su.InRange q → s.done q = 3 * su.numFields

/-- The same run with another number of fields. -/
def withFields (n : ℕ) : Setup := { su with numFields := n }

/-- For all contents of any number of fields all versions of `exchange` end, transfer the halos, and
leave the same fields. -/
def PathsAgree : Prop :=
  su.DatatypesCreated ∧ ∀ (V : Type) (n : ℕ) (start : ℕ × ℕ → Memory V) (path : Path),
    (su.withFields n).Ends path start ∧
    ∀ s, ((su.withFields n).exchange V path).Reached start s →
      (∀ a, ((su.withFields n).exchange V path).next s a = none) →
      (su.withFields n).Transferred start s ∧
      ∀ path' s', ((su.withFields n).exchange V path').Reached start s' →
        (∀ a, ((su.withFields n).exchange V path').next s' a = none) →
        ∀ q, su.InRange q → ∀ f < n, (s.mem q).fields f = (s'.mem q).fields f

variable {su} {q : ℕ × ℕ} {dim : Fin 3} {c : Arr ℕ} {field : ℕ × ℕ → ℕ → V} {start : ℕ × ℕ → Memory V}
  {s : StagedState (ℕ × ℕ) (Memory V) (List V)} {path : Path}

section Right

/-- The cell of a neighbour that a cell beside the domain is an image of lies inside the neighbour. -/
theorem Beside.insideFrom (hc : su.Beside q dim c) (hq : su.InRange q) (left : Bool) {x : ℕ}
    (hx : haloLeft su.halos dim ≤ x ∧
      x < haloLeft su.halos dim + (su.neighborhood (su.source q dim left)).d.domainExt dim) :
    su.InsideFrom (su.source q dim left) 0 (Function.update c dim x) := by
  intro d _
  by_cases heq : d = dim
  · subst heq
    rw [Function.update_self]
    exact hx
  · rw [Function.update_of_ne heq, (aligned hq left heq).2]
    exact hc.2 d heq

/-- Cells inside a domain are cells of its extended buffer. -/
theorem InsideFrom.inBox (hin : su.InsideFrom q 0 c) : InBox (su.neighborhood q).extBuffer c := by
  intro d
  have hd := hin d (Nat.zero_le _)
  rw [su.extBuffer_apply]
  omega

/-- The value of an owner in the halo on the left. -/
theorem Fitting.eq_left (w : su.Fitting) (hq : su.InRange q) (hc : su.Beside q dim c)
    (hlt : c dim < haloLeft su.halos dim) {v : V} (hv : su.OwnerValue field q c v) :
    v = field (su.source q dim false) (index (su.neighborhood (su.source q dim false)).extBuffer
      (Function.update c dim
        ((su.neighborhood (su.source q dim false)).d.domainExt dim + c dim))) := by
  have hsource := source_inRange hq dim false
  have hle := w.left_le _ hsource dim
  rw [Nat.add_comm]
  apply (hv.congr (periodicImage_left hq c).symm).eq_inner hsource
  exact hc.insideFrom hq false (by omega)

/-- The value of an owner in the halo on the right. -/
theorem Fitting.eq_right (w : su.Fitting) (hq : su.InRange q) (hc : su.Beside q dim c)
    (hge : haloLeft su.halos dim + (su.neighborhood q).d.domainExt dim ≤ c dim) {v : V}
    (hv : su.OwnerValue field q c v) :
    v = field (su.source q dim true) (index (su.neighborhood (su.source q dim true)).extBuffer
      (Function.update c dim (c dim - (su.neighborhood q).d.domainExt dim))) := by
  have hsource := source_inRange hq dim true
  have hle := w.right_le _ hsource dim
  have hbox := hc.1 dim
  rw [su.extBuffer_apply] at hbox
  apply (hv.congr (periodicImage_right hq (by omega)).symm).eq_inner hsource
  exact hc.insideFrom hq true (by omega)

/-- The packing versions transfer the halos whatever their widths are, and so does the version with
MPI datatypes if both halos of each dimension have the same width. -/
theorem Fitting.transferred (w : su.Fitting) (hpath : PathSuits su path)
    (hs : (su.exchange V path).Reached start s) (hstuck : ∀ a, (su.exchange V path).next s a = none) :
    su.Transferred start s := by
  have howner (q : ℕ × ℕ) (hq : su.InRange q) (f : ℕ) (hf : f < su.numFields) (c : Arr ℕ)
      (hc : InBox (su.neighborhood q).extBuffer c) : su.OwnerValue (fun q => (start q).fields f) q c
        ((s.mem q).fields f (index (su.neighborhood q).extBuffer c)) := by
    rw [(w.exchangesBlocks hpath).fields_of_stuck hs hstuck hq hf]
    exact w.ownerValue_end hq hc
  constructor
  · intro q hq f hf dim c hc hlt
    exact w.eq_left hq hc hlt (howner q hq f hf c hc.1)
  · intro q hq f hf dim c hc hge
    exact w.eq_right hq hc hge (howner q hq f hf c hc.1)
  · exact howner

end Right

section Wrong

/-- The first cell of the halo on the left, inside the domain in the other dimensions. -/
def leftCell (su : Setup) (dim : Fin 3) : Arr ℕ := Function.update (haloLeft su.halos) dim 0

/-- The cell of a neighbour from which the datatypes take the first cell of the halo on the left. -/
def takenCell (su : Setup) (q : ℕ × ℕ) (dim : Fin 3) : Arr ℕ :=
  Function.update (haloLeft su.halos) dim (haloLeft su.halos dim +
    (su.neighborhood q).d.domainExt dim - haloRight su.halos dim)

/-- A receive block has halo cells only. -/
theorem mem_recvType_halo {left : Bool} (hmem : ((su.neighborhood q).recvType dim left).Mem c) :
    if left then haloLeft su.halos dim + (su.neighborhood q).d.domainExt dim ≤ c dim
    else c dim < haloLeft su.halos dim := by
  have hdim := hmem dim
  rw [Neighborhood.recvType_offset, Neighborhood.recvType_size] at hdim
  cases left <;> simp at hdim ⊢ <;> omega

/-- No message arrives inside a domain. -/
theorem not_mem_recvType {left : Bool} (hin : haloLeft su.halos dim ≤ c dim ∧
    c dim < haloLeft su.halos dim + (su.neighborhood q).d.domainExt dim) :
    ¬ ((su.neighborhood q).recvType dim left).Mem c := by
  intro hmem
  have hhalo := mem_recvType_halo hmem
  cases left <;> simp at hhalo <;> omega

/-- Halo widths that differ in some dimension, all of them positive. -/
structure Skewed (su : Setup) (dim : Fin 3) : Prop extends su.Fitting where
  left_pos : ∀ d, 1 ≤ haloLeft su.halos d
  right_pos : ∀ d, 1 ≤ haloRight su.halos d
  ne : haloLeft su.halos dim ≠ haloRight su.halos dim

/-- What a message does to the fields. -/
theorem fields_incoming (p : ℕ) (left : Bool) (x : List V) (m : Memory V) (f : ℕ) :
    ((((su.exchange V .datatypes).phase p q).incoming left x m).fields f) =
      if f = p / 3 then ((su.neighborhood q).recvType (phaseDim p) left).write
        (su.neighborhood q).extBuffer x (m.fields f) else m.fields f := by
  change Function.update m.fields (p / 3) _ f = _
  rw [Function.update_apply]
  split
  · next heq => rw [heq]
  · rfl

/-- A message changes only the cells of its block. -/
theorem fields_incoming_of_not_mem (hc : InBox (su.neighborhood q).extBuffer c) (p : ℕ) (left : Bool)
    (x : List V) (m : Memory V) (f : ℕ)
    (hnot : f = p / 3 → ¬ ((su.neighborhood q).recvType (phaseDim p) left).Mem c) :
    (((su.exchange V .datatypes).phase p q).incoming left x m).fields f
      (index (su.neighborhood q).extBuffer c) =
      m.fields f (index (su.neighborhood q).extBuffer c) := by
  rw [fields_incoming]
  split
  · next heq => rw [Block.write_apply hc, if_neg (hnot heq)]
  · rfl

variable (k : su.Skewed dim)
include k

/-- The first cell of the halo on the left lies beside the domain. -/
theorem Skewed.beside (hq : su.InRange q) : su.Beside q dim (su.leftCell dim) := by
  constructor
  · intro d
    have hle := k.left_le q hq d
    have hpos := k.left_pos d
    rw [su.extBuffer_apply]
    by_cases heq : d = dim
    · subst heq
      rw [leftCell, Function.update_self]
      omega
    · rw [leftCell, Function.update_of_ne heq]
      omega
  · intro d hd
    have hle := k.left_le q hq d
    have hpos := k.left_pos d
    rw [leftCell, Function.update_of_ne hd]
    omega

/-- The datatypes take a cell from inside the neighbour. -/
theorem Skewed.inside (hq : su.InRange q) (d : Fin 3) :
    haloLeft su.halos d ≤ su.takenCell q dim d ∧
      su.takenCell q dim d < haloLeft su.halos d + (su.neighborhood q).d.domainExt d := by
  have hle := k.left_le q hq d
  have hle' := k.right_le q hq d
  have hpos := k.left_pos d
  have hpos' := k.right_pos d
  by_cases heq : d = dim
  · subst heq
    rw [takenCell, Function.update_self]
    omega
  · rw [takenCell, Function.update_of_ne heq]
    omega

/-- The datatypes take a cell of the extended buffer. -/
theorem Skewed.inBox (hq : su.InRange q) :
    InBox (su.neighborhood q).extBuffer (su.takenCell q dim) := by
  intro d
  have hin := k.inside hq d
  rw [su.extBuffer_apply]
  omega

/-- The first cell of the halo on the left is received with the message from the left. -/
theorem Skewed.mem_leftCell (hq : su.InRange q) :
    ((su.neighborhood q).recvType dim false).Mem (su.leftCell dim) := by
  rw [mem_recvType (k.beside hq).1 fun d hd => (k.beside hq).2 d (by rintro rfl; omega)]
  simp [leftCell]
  exact k.left_pos dim

/-- The datatypes take the first cell of the halo on the left from there. -/
theorem Skewed.cell_eq (q : ℕ × ℕ) :
    ((su.neighborhood (su.source q dim false)).sendType dim false).cell
      (((su.neighborhood q).recvType dim false).rel (su.leftCell dim)) =
        su.takenCell (su.source q dim false) dim := by
  funext d
  change Block.offset _ d + (su.leftCell dim d - Block.offset _ d) = _
  rw [Neighborhood.sendType_offset, Neighborhood.recvType_offset]
  rcases lt_trichotomy d dim with hd | rfl | hd
  · simp [hd, hd.ne, leftCell, takenCell]
  · simp [leftCell, takenCell]
  · simp [not_lt.mpr hd.le, hd.ne', leftCell, takenCell]

/-- The value at the taken cell goes into the first cell of the halo on the left, in every run of the
version with MPI datatypes. -/
theorem Skewed.delivers (hq : su.InRange q) (v : V) : Staged.Delivers (su.exchange V .datatypes) q
    (su.source q dim false) dim.val false
    (fun m => m.fields 0 (index (su.neighborhood (su.source q dim false)).extBuffer
      (su.takenCell (su.source q dim false) dim)) = v)
    (fun l => l[index ((su.neighborhood q).recvType dim false).size
      (((su.neighborhood q).recvType dim false).rel (su.leftCell dim))]? = some v)
    (fun m => m.fields 0 (index (su.neighborhood q).extBuffer (su.leftCell dim)) = v) where
  source_eq := congrArg (fun d => su.source q d false) (phaseDim_val dim)
  src_prepare _ _ h := h
  src_incoming p' dir' x m h := by
    have hsource := source_inRange hq dim false
    rw [fields_incoming_of_not_mem (k.inBox hsource) p' dir' x m 0
      fun _ => not_mem_recvType (k.inside hsource _)]
    exact h
  src_conclude _ _ h := h
  outgoing m h := by
    have hphase : (su.exchange V .datatypes).phase dim.val (su.source q dim false) =
        (su.neighborhood (su.source q dim false)).datatypesPhase 0 dim := by
      change Neighborhood.datatypesPhase _ (dim.val / 3) (phaseDim dim.val) = _
      rw [phaseDim_val, Nat.div_eq_of_lt dim.isLt]
    have hsize : ((su.neighborhood (su.source q dim false)).sendType dim false).size =
        ((su.neighborhood q).recvType dim false).size := packed_source_size hq dim false
    rw [hphase, ← hsize]
    change (Block.read _ _ _)[_]? = _
    rw [Block.getElem?_read, k.cell_eq, h]
    rw [hsize]
    exact (k.mem_leftCell hq).rel_inBox
  incoming x m h := by
    have hmem := k.mem_leftCell hq
    have hthis : (0 : ℕ) = dim.val / 3 := (Nat.div_eq_of_lt dim.isLt).symm
    rw [fields_incoming, if_pos hthis, phaseDim_val, Block.write_apply (k.beside hq).1, if_pos hmem,
      List.getD_eq_getElem?_getD, h]
    rfl
  dst_prepare _ _ h := h
  dst_incoming p' dir' x m hne h := by
    rw [fields_incoming_of_not_mem (k.beside hq).1 p' dir' x m 0 fun hp => ?_]
    · exact h
    · by_cases hdim : phaseDim p' = dim
      · have hp' : p' = dim.val := by
          have : p' % 3 = dim.val := congrArg Fin.val hdim
          omega
        cases dir' with
        | false => exact absurd ⟨hp', rfl⟩ hne
        | true =>
          intro hmem
          have hhalo := mem_recvType_halo hmem
          have hpos := k.left_pos dim
          simp [hdim, leftCell] at hhalo
          omega
      · exact not_mem_recvType ((k.beside hq).2 _ hdim)
  dst_conclude _ _ h := h

/-- The cell that the first cell of the halo on the left is an image of, in the neighbour. -/
theorem Skewed.insideFrom (hq : su.InRange q) : su.InsideFrom (su.source q dim false) 0
    (Function.update (su.leftCell dim) dim
      ((su.neighborhood (su.source q dim false)).d.domainExt dim + su.leftCell dim dim)) := by
  have hsource := source_inRange hq dim false
  have hle := k.left_le _ hsource dim
  have hpos := k.left_pos dim
  apply (k.beside hq).insideFrom hq false
  rw [leftCell, Function.update_self]
  omega

/-- The datatypes take another cell. -/
theorem Skewed.index_ne (hq : su.InRange q) :
    index (su.neighborhood (su.source q dim false)).extBuffer
      (su.takenCell (su.source q dim false) dim) ≠
    index (su.neighborhood (su.source q dim false)).extBuffer (Function.update (su.leftCell dim) dim
      ((su.neighborhood (su.source q dim false)).d.domainExt dim + su.leftCell dim dim)) := by
  intro heq
  have hsource := source_inRange hq dim false
  have htaken := k.inBox hsource
  have hright : InBox _ _ := (k.insideFrom hq).inBox
  have hcell := congrArg (unindex (su.neighborhood (su.source q dim false)).extBuffer) heq
  rw [unindex_index (htaken 0) (htaken 1), unindex_index (hright 0) (hright 1)] at hcell
  have hdim := congrFun hcell dim
  have hle := k.right_le _ hsource dim
  have hne := k.ne
  rw [takenCell, leftCell, Function.update_self, Function.update_self, Function.update_self] at hdim
  omega

/-- With different widths the version with MPI datatypes transfers wrong cells. -/
theorem Skewed.not_pathsAgree : ¬ su.PathsAgree := by
  intro h
  have hq := su.inRange_zero
  let place := index (su.neighborhood (su.source (0, 0) dim false)).extBuffer
    (Function.update (su.leftCell dim) dim
      ((su.neighborhood (su.source (0, 0) dim false)).d.domainExt dim + su.leftCell dim dim))
  let start : ℕ × ℕ → Memory ℕ := fun p =>
    ⟨fun _ i => if p = su.source (0, 0) dim false ∧ i = place then 1 else 0, fun _ _ _ => 0,
      fun _ _ _ => 0⟩
  have k' : (su.withFields 1).Skewed dim := ⟨⟨k.left_le, k.right_le⟩, k.left_pos, k.right_pos, k.ne⟩
  obtain ⟨⟨-, ⟨s, hs, hstuck⟩, hdone⟩, hends⟩ := h.2 ℕ 1 start .datatypes
  have htaken : (s.mem (0, 0)).fields 0
      (index (su.neighborhood (0, 0)).extBuffer (su.leftCell dim)) = 0 := by
    apply (k'.delivers hq 0).of_lt_done _ hs
    · rw [hdone s hs hstuck (0, 0) hq]
      exact dim.isLt
    · exact if_neg fun hplace => k.index_ne hq hplace.2
  have hright : (s.mem (0, 0)).fields 0
      (index (su.neighborhood (0, 0)).extBuffer (su.leftCell dim)) = 1 := by
    have hhalo : su.leftCell dim dim < haloLeft su.halos dim := by
      rw [leftCell, Function.update_self]
      exact k.left_pos dim
    have heq := (hends s hs hstuck).1.left (0, 0) hq 0 Nat.one_pos dim _ (k.beside hq) hhalo
    exact heq.trans (if_pos ⟨rfl, rfl⟩)
  exact absurd (htaken.symm.trans hright) Nat.zero_ne_one

end Wrong

/-- The datatypes can only be created if all halos have a positive width. -/
theorem DatatypesCreated.pos (h : su.DatatypesCreated) (d : Fin 3) :
    1 ≤ haloLeft su.halos d ∧ 1 ≤ haloRight su.halos d := by
  have hleft := ((h (0, 0) su.inRange_zero d false).2 d).1
  have hright := ((h (0, 0) su.inRange_zero d true).2 d).1
  rw [Neighborhood.recvType_size] at hleft hright
  simpa using And.intro hleft hright

/-- With positive halos of the same width on both sides the datatypes can be created. -/
theorem Fitting.datatypesCreated (w : su.Fitting)
    (h : ∀ d, 1 ≤ haloLeft su.halos d ∧ haloLeft su.halos d = haloRight su.halos d) :
    su.DatatypesCreated := by
  intro q hq dim left
  have heq : haloLeft (su.neighborhood q).halos = haloRight (su.neighborhood q).halos :=
    funext fun d => (h d).2
  have hnb := w.neighborhood hq
  have hsize (d : Fin 3) : 1 ≤ ((su.neighborhood q).recvType dim left).size d := by
    have hpos := (h d).1
    have hright := (h d).2
    have hle := w.left_le q hq d
    rw [Neighborhood.recvType_size, su.extBuffer_apply, neighborhood_halos]
    split
    · omega
    · split <;> cases left <;> simp <;> omega
  refine ⟨fun d => ⟨?_, ?_⟩, fun d => ⟨hsize d, hnb.recvType_fits dim left d⟩⟩
  · rw [Neighborhood.sendType_eq_packed heq, Neighborhood.packed_size]
    exact hsize d
  · rw [Neighborhood.sendType_eq_packed heq]
    exact hnb.packed_fits dim left d

/-- With positive halos of the same width on both sides all versions agree. -/
theorem Fitting.pathsAgree (w : su.Fitting)
    (h : ∀ d, 1 ≤ haloLeft su.halos d ∧ haloLeft su.halos d = haloRight su.halos d) :
    su.PathsAgree := by
  refine ⟨w.datatypesCreated h, fun V n start path => ?_⟩
  have w' : (su.withFields n).Fitting := ⟨w.left_le, w.right_le⟩
  have hpath (path : Path) : PathSuits (su.withFields n) path := fun _ => funext fun d => (h d).2
  have x (path : Path) : (su.withFields n).ExchangesBlocks V path := w'.exchangesBlocks (hpath path)
  refine ⟨(x path).ends start, fun s hs hstuck => ⟨w'.transferred (hpath path) hs hstuck, ?_⟩⟩
  intro path' s' hs' hstuck' q hq f hf
  rw [(x path).fields_of_stuck hs hstuck hq hf, (x path').fields_of_stuck hs' hstuck' hq hf]

end Setup

/-- All versions of `exchange` agree and transfer the halos if and only if both halos of each
dimension have the same width, which is at least one. -/
theorem paths_agree_iff (su : Setup) (w : su.Fitting) : su.PathsAgree ↔
    ∀ d, 1 ≤ haloLeft su.halos d ∧ haloLeft su.halos d = haloRight su.halos d := by
  constructor
  · intro h d
    refine ⟨(h.1.pos d).1, ?_⟩
    by_contra hne
    have k : su.Skewed d := ⟨w, fun d => (h.1.pos d).1, fun d => (h.1.pos d).2, hne⟩
    exact k.not_pathsAgree h
  · intro h
    exact w.pathsAgree h

/-- One domain of four cells in each dimension with the given halos. -/
def oneDomain (halos : Fin 6 → ℕ) : Setup where
  cfg := cube 4
  placement := cubePlacement 4
  halos := halos
  numFields := 1

/-- There is one thread, with the whole domain. -/
theorem oneDomain_fitting {halos : Fin 6 → ℕ} (h : ∀ i, halos i ≤ 4) : (oneDomain halos).Fitting := by
  have hext (q : ℕ × ℕ) (hq : (oneDomain halos).InRange q) (d : Fin 3) :
      ((oneDomain halos).neighborhood q).d.domainExt d = 4 := by
    obtain ⟨r, t⟩ := q
    obtain rfl : r = 0 := Nat.lt_one_iff.mp hq.1
    obtain rfl : t = 0 := Nat.lt_one_iff.mp hq.2
    have hcube : ∀ d, (((oneDomain fun _ => 0).decomposition 0).domain 0).domainExt d = 4 := by decide
    exact hcube d
  constructor
  · intro q hq d
    rw [hext q hq]
    fin_cases d <;> exact h _
  · intro q hq d
    rw [hext q hq]
    fin_cases d <;> exact h _

/-- Halos of widths one, two and three. -/
theorem paths_agree_widths : (oneDomain ![1, 1, 2, 2, 3, 3]).PathsAgree :=
  (paths_agree_iff _ (oneDomain_fitting (by decide))).mpr (by decide)

/-- A halo of width two on the left and of width one on the right. -/
theorem paths_disagree : ¬ (oneDomain ![2, 1, 1, 1, 1, 1]).PathsAgree :=
  have k : (oneDomain ![2, 1, 1, 1, 1, 1]).Skewed 0 :=
    ⟨oneDomain_fitting (by decide), by decide, by decide, by decide⟩
  k.not_pathsAgree

end Ghexbench.Cartex
