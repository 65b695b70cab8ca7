import Ghexbench.Cartex.CellEncoding
import Ghexbench.Cartex.HaloRounds

/-!
# The lengths of the messages

The packed messages and the z planes are counted in elements first, in `int` or `unsigned int`, then in
bytes as `std::size_t`, and MPI takes the count as `int`. The elements of a message are part of a field
buffer, so their number is in range whenever that of the buffer is, but the bytes need not be.
-/

namespace Ghexbench.Cartex

open Ghexbench.Common

/-- `sizeof(real_type)`. -/
def RealType.bytes : RealType → ℕ
  | float => 4
  | double => 8

namespace Neighborhood

variable (nb : Neighborhood)

/-- An extent of the domain with its halos. -/
def extExpr (d : Fin 3) : IntExpr :=
  .add (.add (.val (nb.d.domainExt d)) (.val (haloLeft nb.halos d))) (.val (haloRight nb.halos d))

/-- The number of elements of a field buffer in `make_fields`. -/
def fieldExpr : IntExpr := .product (nb.extExpr 0) (nb.extExpr 1) (nb.extExpr 2)

/-- The numbers of elements of the send and receive buffers in `init`. -/
def bufferExpr : Fin 6 → IntExpr :=
  let ext (d : Fin 3) := IntExpr.val (nb.d.domainExt d)
  ![.product (.val (nb.halos 0)) (ext 1) (ext 2), .product (.val (nb.halos 1)) (ext 1) (ext 2),
    .product (.val (nb.halos 2)) (nb.extExpr 0) (ext 2), .product (.val (nb.halos 3)) (nb.extExpr 0) (ext 2),
    .product (.val (nb.halos 4)) (nb.extExpr 0) (nb.extExpr 1),
    .product (.val (nb.halos 5)) (nb.extExpr 0) (nb.extExpr 1)]

/-- The factors of `left_size` and `right_size` before `sizeof(real_type)`; the first is `z_plane`. -/
def planesExpr (left : Bool) : IntExpr :=
  .product (nb.extExpr 0) (nb.extExpr 1) (.val (if left then nb.halos 5 else nb.halos 4 : ℕ))

/-- The number of elements of the messages in a direction, received or sent: the size of a buffer, or, in z
without `CARTEX_MPI_PACK_Z`, that of some planes of the field. -/
def elementCount (packZ : Bool) (dim : Fin 3) (left : Bool) : Option ℕ :=
  if dim = 2 ∧ !packZ then (nb.planesExpr left).run.map toSize
  else (nb.bufferExpr (bufferOf dim left)).run.map toUnsigned

/-- The count that is passed to `MPI_Irecv` and `MPI_Isend`. -/
def byteCount (t : RealType) (packZ : Bool) (dim : Fin 3) (left : Bool) : Option ℤ :=
  (nb.elementCount packZ dim left).map fun size => toInt (toSize (size * t.bytes : ℕ))

/-- The number of elements of the messages in a direction, which are received into a block. -/
def messageSize (dim : Fin 3) (left : Bool) : ℕ := volume (nb.recvType dim left).size

section Exact

variable {nb} {h : ℕ} {d : Fin 3} {v : ℤ}

/-- An extent is computed exactly if it is computed at all. -/
theorem Built.run_extExpr (b : nb.Built) (hrun : (nb.extExpr d).run = some v) : v = nb.extBuffer d := by
  obtain ⟨x, right, hx, hright, rfl, -⟩ := IntExpr.run_add_eq_some_iff.mp hrun
  obtain ⟨ext, left, hext, hleft, rfl, -⟩ := IntExpr.run_add_eq_some_iff.mp hx
  cases hright
  cases hext
  cases hleft
  rw [b.extBuffer_apply]
  push_cast
  rfl

/-- What is known if the number of elements of the field buffer is exact. -/
theorem Built.of_fieldExpr (b : nb.Built) (hfield : nb.fieldExpr.run = some (volume nb.extBuffer : ℤ)) :
    (∀ d, (nb.extExpr d).run = some (nb.extBuffer d : ℤ)) ∧
      nb.extBuffer 0 * nb.extBuffer 1 < 2 ^ 31 ∧ volume nb.extBuffer < 2 ^ 31 := by
  obtain ⟨plane, z, hplane, hz, -, hvolume⟩ := IntExpr.run_mul_eq_some_iff.mp hfield
  obtain ⟨x, y, hx, hy, rfl, hint⟩ := IntExpr.run_mul_eq_some_iff.mp hplane
  obtain rfl := b.run_extExpr hx
  obtain rfl := b.run_extExpr hy
  obtain rfl := b.run_extExpr hz
  refine ⟨fun d => ?_, by exact_mod_cast hint.2, by exact_mod_cast hvolume.2⟩
  fin_cases d
  · exact hx
  · exact hy
  · exact hz

/-- The extents of the extended buffer are at least those of the domain and of the halos. -/
theorem Built.le_extBuffer (b : nb.Built) (hhalos : ∀ i, nb.halos i = h) (d : Fin 3) :
    (∀ i, nb.halos i ≤ nb.extBuffer d) ∧ nb.d.domainExt d ≤ nb.extBuffer d := by
  rw [b.extBuffer_apply, haloLeft_of_forall hhalos, haloRight_of_forall hhalos]
  constructor
  · intro i
    rw [hhalos i]
    exact Nat.le_add_left h _
  · rw [Nat.add_assoc]
    exact Nat.le_add_right _ _

/-- The numbers of elements of the buffers. -/
theorem Built.run_bufferExpr (b : nb.Built) (hhalos : ∀ i, nb.halos i = h)
    (hfield : nb.fieldExpr.run = some (volume nb.extBuffer : ℤ)) (i : Fin 6) :
    (nb.bufferExpr i).run = some (nb.bufferSize i : ℤ) := by
  obtain ⟨hext, hplane, hvolume⟩ := b.of_fieldExpr hfield
  obtain ⟨hhalo0, hext0⟩ := b.le_extBuffer hhalos 0
  obtain ⟨hhalo1, hext1⟩ := b.le_extBuffer hhalos 1
  obtain ⟨hhalo2, hext2⟩ := b.le_extBuffer hhalos 2
  have h0 : nb.extBuffer 0 = nb.d.domainExt 0 + nb.halos 0 + nb.halos 1 := congrFun b.extBuffer 0
  have h1 : nb.extBuffer 1 = nb.d.domainExt 1 + nb.halos 2 + nb.halos 3 := congrFun b.extBuffer 1
  have hplane' : nb.extBuffer 1 * nb.extBuffer 0 < 2 ^ 31 := by
    rw [Nat.mul_comm]
    exact hplane
  have hx (i : Fin 6) : (IntExpr.product (.val (nb.halos i)) (.val (nb.d.domainExt 1))
      (.val (nb.d.domainExt 2))).run =
        some ((nb.halos i * nb.d.domainExt 1 * nb.d.domainExt 2 : ℕ) : ℤ) := by
    have hle := Nat.mul_le_mul (hhalo0 i) hext1
    exact IntExpr.run_product rfl rfl rfl (hle.trans_lt hplane) ((Nat.mul_le_mul hle hext2).trans_lt hvolume)
  have hy (i : Fin 6) : (IntExpr.product (.val (nb.halos i)) (nb.extExpr 0) (.val (nb.d.domainExt 2))).run =
      some ((nb.halos i * nb.extBuffer 0 * nb.d.domainExt 2 : ℕ) : ℤ) := by
    have hle := Nat.mul_le_mul_right (nb.extBuffer 0) (hhalo1 i)
    rw [volume, Nat.mul_comm (nb.extBuffer 0)] at hvolume
    exact IntExpr.run_product rfl (hext 0) rfl (hle.trans_lt hplane')
      ((Nat.mul_le_mul hle hext2).trans_lt hvolume)
  have hz (i : Fin 6) : (IntExpr.product (.val (nb.halos i)) (nb.extExpr 0) (nb.extExpr 1)).run =
      some ((nb.halos i * nb.extBuffer 0 * nb.extBuffer 1 : ℕ) : ℤ) := by
    have hle := Nat.mul_le_mul_right (nb.extBuffer 0) (hhalo2 i)
    rw [volume, Nat.mul_comm, ← Nat.mul_assoc] at hvolume
    exact IntExpr.run_product rfl (hext 0) (hext 1)
      ((Nat.mul_le_mul_right _ (hhalo1 i)).trans_lt hplane')
      ((Nat.mul_le_mul_right (nb.extBuffer 1) hle).trans_lt hvolume)
  rw [h0] at hy
  rw [h0, h1] at hz
  fin_cases i
  · exact hx 0
  · exact hx 1
  · exact hy 2
  · exact hy 3
  · exact hz 4
  · exact hz 5

/-- A message is part of the field. -/
theorem Built.messageSize_le (b : nb.Built) (dim : Fin 3) (left : Bool) :
    nb.messageSize dim left ≤ volume nb.extBuffer := by
  have hle (d : Fin 3) : (nb.recvType dim left).size d ≤ nb.extBuffer d :=
    (Nat.le_add_left _ _).trans (b.recvType_fits dim left d)
  exact Nat.mul_le_mul (Nat.mul_le_mul (hle 0) (hle 1)) (hle 2)

/-- The numbers of elements are exact if that of the field buffer is. -/
theorem Built.elementCount_eq (b : nb.Built) (hhalos : ∀ i, nb.halos i = h)
    (hfield : nb.fieldExpr.run = some (volume nb.extBuffer : ℤ)) (packZ : Bool) (dim : Fin 3) (left : Bool) :
    nb.elementCount packZ dim left = some (nb.messageSize dim left) := by
  obtain ⟨hext, hplane, hvolume⟩ := b.of_fieldExpr hfield
  have hsize : nb.messageSize dim left < 2 ^ 31 := (b.messageSize_le dim left).trans_lt hvolume
  rw [elementCount]
  split
  next hz =>
    obtain ⟨rfl, -⟩ := hz
    have hrun : (nb.planesExpr left).run = some (nb.messageSize 2 left : ℤ) := by
      cases left
      · exact IntExpr.run_product (hext 0) (hext 1) rfl hplane hsize
      · exact IntExpr.run_product (hext 0) (hext 1) rfl hplane hsize
    rw [hrun, Option.map_some, toSize_natCast (hsize.trans (by norm_num))]
  next =>
    have hbuffer : nb.bufferSize (bufferOf dim left) = nb.messageSize dim left := b.bufferSize_eq dim left
    rw [b.run_bufferExpr hhalos hfield, hbuffer, Option.map_some,
      toUnsigned_natCast (hsize.trans (by norm_num))]

/-- The numbers of elements of the messages in the three dimensions. -/
theorem Built.messageSize_eq (b : nb.Built) (hhalos : ∀ i, nb.halos i = h) (dim : Fin 3) (left : Bool) :
    nb.messageSize dim left = ![h * nb.d.domainExt 1 * nb.d.domainExt 2,
      h * (nb.d.domainExt 0 + 2 * h) * nb.d.domainExt 2,
      h * (nb.d.domainExt 0 + 2 * h) * (nb.d.domainExt 1 + 2 * h)] dim := by
  rw [messageSize, ← b.bufferSize_eq]
  fin_cases dim <;> cases left <;> simp [bufferSize, bufferOf, hhalos, two_mul, add_assoc]

/-- The number of bytes is exact until it is passed to MPI. -/
theorem Built.byteCount_eq (b : nb.Built) (hhalos : ∀ i, nb.halos i = h)
    (hfield : nb.fieldExpr.run = some (volume nb.extBuffer : ℤ)) (t : RealType) (packZ : Bool) (dim : Fin 3)
    (left : Bool) : nb.byteCount t packZ dim left = some (toInt (nb.messageSize dim left * t.bytes)) := by
  have hsize : nb.messageSize dim left < 2 ^ 31 :=
    (b.messageSize_le dim left).trans_lt (b.of_fieldExpr hfield).2.2
  have hbytes : nb.messageSize dim left * t.bytes < 2 ^ 64 := by
    cases t <;> simp only [RealType.bytes] <;> omega
  rw [byteCount, b.elementCount_eq hhalos hfield, Option.map_some, toSize_natCast hbytes]

end Exact

end Neighborhood

namespace Setup

variable (su : Setup)

/-- The lengths of all messages are exact, in elements and in bytes, and the length of every receive is that
of the send of the neighbour. -/
structure LengthsExact (t : RealType) (packZ : Bool) : Prop where
  elements : ∀ q, su.InRange q → ∀ dim left,
    (su.neighborhood q).elementCount packZ dim left = some ((su.neighborhood q).messageSize dim left)
  bytes : ∀ q, su.InRange q → ∀ dim left, (su.neighborhood q).byteCount t packZ dim left =
    some (((su.neighborhood q).messageSize dim left * t.bytes : ℕ) : ℤ)
  agree : ∀ q, su.InRange q → ∀ dim left, (su.neighborhood q).byteCount t packZ dim left =
    (su.neighborhood (su.source q dim left)).byteCount t packZ dim left

variable {su} {q : ℕ × ℕ}

/-- A message has the same number of elements at both ends. -/
theorem messageSize_source (hq : su.InRange q) (dim : Fin 3) (left : Bool) :
    (su.neighborhood (su.source q dim left)).messageSize dim left =
      (su.neighborhood q).messageSize dim left := by
  rw [Neighborhood.messageSize, ← Neighborhood.packed_size, packed_source_size hq]
  rfl

end Setup

/-- If the sizes of the field buffers are exact, the lengths of the messages are exact if and only if all
messages, with the halos of the dimensions that have been exchanged before, have fewer than `2 ^ 31` bytes. -/
theorem lengths_exact_iff (su : Setup) (t : RealType) (packZ : Bool) (h : ℕ) (hhalos : ∀ i, su.halos i = h)
    (hfield : ∀ q, su.InRange q →
      (su.neighborhood q).fieldExpr.run = some (volume (su.neighborhood q).extBuffer : ℤ)) :
    su.LengthsExact t packZ ↔ ∀ q, su.InRange q →
      let ext := (su.neighborhood q).d.domainExt
      h * ext 1 * ext 2 * t.bytes < 2 ^ 31 ∧ h * (ext 0 + 2 * h) * ext 2 * t.bytes < 2 ^ 31 ∧
        h * (ext 0 + 2 * h) * (ext 1 + 2 * h) * t.bytes < 2 ^ 31 := by
  have hcount (q : ℕ × ℕ) (hq : su.InRange q) (dim : Fin 3) (left : Bool) :=
    (su.neighborhood_built q).byteCount_eq hhalos (hfield q hq) t packZ dim left
  have hsize (q : ℕ × ℕ) (dim : Fin 3) (left : Bool) :=
    (su.neighborhood_built q).messageSize_eq hhalos dim left
  constructor
  · intro hexact q hq
    have hsmall (dim : Fin 3) (left : Bool) :
        (su.neighborhood q).messageSize dim left * t.bytes < 2 ^ 31 := by
      have hbytes := hexact.bytes q hq dim left
      rw [hcount q hq] at hbytes
      exact toInt_eq_iff.mp (Option.some.inj hbytes)
    have h0 := hsmall 0 true
    have h1 := hsmall 1 true
    have h2 := hsmall 2 true
    rw [hsize] at h0 h1 h2
    exact ⟨h0, h1, h2⟩
  · intro hsmall
    constructor
    · intro q hq dim left
      exact (su.neighborhood_built q).elementCount_eq hhalos (hfield q hq) packZ dim left
    · intro q hq dim left
      obtain ⟨h0, h1, h2⟩ := hsmall q hq
      rw [hcount q hq, toInt_eq_iff.mpr]
      rw [hsize]
      fin_cases dim
      · exact h0
      · exact h1
      · exact h2
    · intro q hq dim left
      rw [hcount q hq, hcount _ (Setup.source_inRange hq dim left), Setup.messageSize_source hq]

/-- The messages of four domains of different sizes. -/
theorem lengths_exact_twoRanks : twoRanksSetup.LengthsExact .double true := by
  refine (lengths_exact_iff twoRanksSetup .double true 1 (fun _ => rfl) ?_).mpr ?_
  · exact twoRanksSetup_forall (by decide)
  · exact twoRanksSetup_forall (by decide)

/-- A single domain of `2 ^ 15 * 2 ^ 14` cells in one layer, with halos of width one. -/
def wideLayer : Setup :=
  have cfg : Config := ⟨fun _ => 1, fun _ => 1, ![2 ^ 15, 2 ^ 14, 1], true, by decide, by decide⟩
  ⟨cfg, .mpiCart (RankMap.xyz _ cfg.rankGrid_pos), fun _ => 1, 1⟩

/-- The planes of the layer have more bytes than `int` can count. -/
theorem lengths_not_exact : (∀ q, wideLayer.InRange q →
      (wideLayer.neighborhood q).fieldExpr.run = some (volume (wideLayer.neighborhood q).extBuffer : ℤ)) ∧
    ¬ wideLayer.LengthsExact .float false := by
  constructor
  · intro q hq
    obtain rfl : q = (0, 0) := Prod.ext (Nat.lt_one_iff.mp hq.1) (Nat.lt_one_iff.mp hq.2)
    decide
  · intro hexact
    exact absurd (hexact.bytes (0, 0) (by decide) 2 true) (by decide)

end Ghexbench.Cartex
