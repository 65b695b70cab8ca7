import Ghexbench.Cartex.Check
import Ghexbench.Cartex.Tags
import Ghexbench.Common.Arithmetic

/-!
# The range of the cell values

The values that `make_fields` and `check` give to the cells are computed in `int` and stored as
`real_type`. They grow with the size of the global domain and the number of fields, and neither is
limited by anything.
-/

namespace Ghexbench.Cartex

open Ghexbench.Common

/-- `CARTEX_FLOAT`. -/
inductive RealType
  | float
  | double

namespace RealType

/-- The number of binary digits. -/
def digits : RealType → ℕ
  | float => 24
  | double => 53

/-- The number that an integer is stored as. -/
def ofInt (t : RealType) (v : ℤ) : ℤ := v.sign * roundTo t.digits v.natAbs

/-- The value of an operation does not overflow and is stored exactly. -/
def Exact (t : RealType) (v : ℤ) : Prop := IsInt v ∧ |v| ≤ 2 ^ t.digits

end RealType

/-- The expression for the value of a cell, given those for its coordinates. -/
def cellExpr (e : Arr IntExpr) (lastDomainCoord : Arr ℤ) (numFields i : ℕ) : IntExpr :=
  .add (.mul (.add (e 0) (.mul (.add (.val (lastDomainCoord 0)) (.val 1))
    (.add (e 1) (.mul (.add (.val (lastDomainCoord 1)) (.val 1)) (e 2))))) (.val numFields)) (.val i)

namespace Setup

variable (su : Setup)

/-- The expression in `make_fields`. -/
def makeFieldsExpr (q : ℕ × ℕ) (i : ℕ) (k : Arr ℕ) : IntExpr :=
  let dec := su.decomposition q.1
  let dom := dec.domain q.2
  cellExpr (fun d => .add (.val (dom.domainCoord d)) (.val (k d))) dec.lastDomainCoord su.numFields i

/-- The expression in `check`. -/
def checkExpr (q : ℕ × ℕ) (offset : Arr ℤ) (i : ℕ) (k : Arr ℕ) : IntExpr :=
  let dec := su.decomposition q.1
  let n := dec.neighbor q.2 offset
  let first (d : Fin 3) := regionFirstN (offset d) (n.domainExt d) (haloLeft su.halos d)
  cellExpr (fun d => .add (.add (.val (n.domainCoord d)) (.val (first d))) (.val (k d)))
    dec.lastDomainCoord su.numFields i

/-- What `make_fields` stores for a cell of the domain of a thread. -/
def stored (t : RealType) (q : ℕ × ℕ) (i : ℕ) (k : Arr ℕ) : Option ℤ :=
  (su.makeFieldsExpr q i k).run.map t.ofInt

/-- A cell of the domain of a thread, as a cell of the global domain. -/
def globalCell (q : ℕ × ℕ) (k : Arr ℕ) : Arr ℕ :=
  fun d => ((su.decomposition q.1).domain q.2).domainCoord d + k d

/-- The values of the cells are exact: all operations of `make_fields` and those of `check` for a cell of
the global domain are in range, and different cells or fields have different values. -/
structure EncodingExact (t : RealType) : Prop where
  makeFields : ∀ q, su.InRange q → ∀ i < su.numFields, ∀ k,
    InBox ((su.decomposition q.1).domain q.2).domainExt k →
      ∀ v ∈ (su.makeFieldsExpr q i k).results, t.Exact v
  check : ∀ q, su.InRange q → ∀ i < su.numFields, ∀ offset : Arr ℤ,
    (∀ d, -1 ≤ offset d ∧ offset d ≤ 1) → ∀ k, InBox (su.region q offset).size k →
      ∀ x, InBox su.cfg.globalSize x → su.expectedCell q offset k = (fun d => (x d : ℤ)) →
        ∀ v ∈ (su.checkExpr q offset i k).results, t.Exact v
  distinct : ∀ q, su.InRange q → ∀ q', su.InRange q' → ∀ i < su.numFields, ∀ i' < su.numFields,
    ∀ k, InBox ((su.decomposition q.1).domain q.2).domainExt k →
    ∀ k', InBox ((su.decomposition q'.1).domain q'.2).domainExt k' →
      su.stored t q i k = su.stored t q' i' k' → su.globalCell q k = su.globalCell q' k' ∧ i = i'

/-- The number of pairs of a cell of the global domain and a field. -/
def numValues : ℕ := volume su.cfg.globalSize * su.numFields

/-- The global domain and the number of fields are small enough. -/
def SmallEnough (t : RealType) : Prop :=
  (su.numValues ≤ 2 ^ 31 ∧ su.numValues ≤ 2 ^ t.digits + 1) ∧
    su.cfg.globalSize 0 ≤ 2 ^ t.digits ∧ su.cfg.globalSize 1 ≤ 2 ^ t.digits

end Setup

section Expr

variable {e : Arr IntExpr} {n c : Arr ℕ} {numFields i : ℕ} {v : ℤ}

/-- The value of the expression is that of the cell. -/
theorem eval_cellExpr (e : Arr IntExpr) (lastDomainCoord : Arr ℤ) (numFields i : ℕ) :
    (cellExpr e lastDomainCoord numFields i).eval =
      cellValue lastDomainCoord numFields i fun d => (e d).eval := rfl

/-- The value for a cell of the global domain. -/
theorem eval_cellExpr_natCast (he : ∀ d, (e d).eval = c d) :
    (cellExpr e (fun d => (n d : ℤ) - 1) numFields i).eval =
      ((index n c * numFields + i : ℕ) : ℤ) := by
  rw [eval_cellExpr, ← cellValue_natCast, funext he]

/-- The operations of the expression. -/
theorem mem_results_cellExpr (he : ∀ d, (e d).eval = c d) :
    v ∈ (cellExpr e (fun d => (n d : ℤ) - 1) numFields i).results ↔
      (∃ d, v ∈ (e d).results) ∨ (v = n 0 ∨ v = n 1) ∨
      v = ((n 1 * c 2 : ℕ) : ℤ) ∨ v = ((c 1 + n 1 * c 2 : ℕ) : ℤ) ∨
      v = ((n 0 * (c 1 + n 1 * c 2) : ℕ) : ℤ) ∨ v = ((index n c : ℕ) : ℤ) ∨
      v = ((index n c * numFields : ℕ) : ℤ) ∨ v = ((index n c * numFields + i : ℕ) : ℤ) := by
  have hdim : (∃ d, v ∈ (e d).results) ↔
      v ∈ (e 0).results ∨ v ∈ (e 1).results ∨ v ∈ (e 2).results := by
    simp [Fin.exists_fin_succ]
  simp only [cellExpr, IntExpr.results, IntExpr.eval, he, List.mem_append, List.mem_singleton,
    List.nil_append, List.append_nil, sub_add_cancel, index, hdim]
  push_cast
  grind

/-- There are as many values as pairs of a cell and a field. -/
theorem value_lt (hc : InBox n c) (hi : i < numFields) :
    index n c * numFields + i < volume n * numFields := by
  rw [Nat.add_comm, Nat.mul_comm, Nat.mul_comm (volume n)]
  exact digit_lt hi (index_lt hc)

/-- No operation has a larger value than the last one can have, except for the sizes of the domain. -/
theorem lt_of_mem_results (he : ∀ d, (e d).eval = c d) (hc : InBox n c) (hi : i < numFields)
    (hcoordinate : ∀ d, ∀ v ∈ (e d).results, -2 ^ 11 ≤ v ∧ v ≤ c d)
    (hv : v ∈ (cellExpr e (fun d => (n d : ℤ) - 1) numFields i).results) :
    (v = n 0 ∨ v = n 1) ∨ -2 ^ 11 ≤ v ∧ v < ((volume n * numFields : ℕ) : ℤ) := by
  have hn0 : 0 < n 0 := Nat.zero_lt_of_lt (hc 0)
  have hn1 : 0 < n 1 := Nat.zero_lt_of_lt (hc 1)
  have hfields : 0 < numFields := Nat.zero_lt_of_lt hi
  have hlayer : c 2 ≤ n 1 * c 2 := Nat.le_mul_of_pos_left _ hn1
  have hplane : c 1 + n 1 * c 2 ≤ n 0 * (c 1 + n 1 * c 2) := Nat.le_mul_of_pos_left _ hn0
  have hcell : index n c = c 0 + n 0 * (c 1 + n 1 * c 2) := rfl
  have hfield : index n c ≤ index n c * numFields := Nat.le_mul_of_pos_right _ hfields
  have hlast : index n c * numFields + i < volume n * numFields := value_lt hc hi
  rw [mem_results_cellExpr he] at hv
  cases hv with
  | inl hcoord =>
    obtain ⟨d, hd⟩ := hcoord
    obtain ⟨hlow, hhigh⟩ := hcoordinate d v hd
    have hle : c d ≤ index n c := by fin_cases d <;> simp <;> omega
    exact Or.inr (by omega)
  | inr hrest =>
    cases hrest with
    | inl hsize => exact Or.inl hsize
    | inr hvalue => exact Or.inr (by omega)

end Expr

namespace RealType

/-- Values in a range are exact. -/
theorem exact_of_le {t : RealType} {v : ℤ} (hlow : -2 ^ 11 ≤ v) (hint : v < 2 ^ 31)
    (hhigh : v ≤ 2 ^ t.digits) : t.Exact v := by
  have hdigits : (2 : ℤ) ^ 11 ≤ 2 ^ t.digits := by cases t <;> decide
  exact ⟨⟨by omega, hint⟩, abs_le.mpr ⟨by omega, hhigh⟩⟩

/-- Exact values are stored as they are. -/
theorem ofInt_of_exact {t : RealType} {v : ℤ} (h : t.Exact v) : t.ofInt v = v := by
  have hpos : 0 < t.digits := by cases t <;> decide
  have hle : v.natAbs ≤ 2 ^ t.digits := by
    have := h.2
    zify
    exact this
  rw [ofInt, roundTo_of_le hpos hle, Int.sign_mul_natAbs]

end RealType

namespace Setup

variable {su : Setup} {t : RealType} {q : ℕ × ℕ} {i : ℕ} {k x : Arr ℕ} {offset : Arr ℤ} {v : ℤ}

/-- A cell of a domain is a cell of the global domain. -/
theorem globalCell_inBox (hq : su.InRange q)
    (hk : InBox ((su.decomposition q.1).domain q.2).domainExt k) :
    InBox su.cfg.globalSize (su.globalCell q k) := by
  intro d
  have hle : ((su.decomposition q.1).domain q.2).domainCoord d +
      ((su.decomposition q.1).domain q.2).domainExt d ≤ su.cfg.globalSize d :=
    su.cfg.domain_le su.placement hq.1 hq.2 d
  have hlt := hk d
  change ((su.decomposition q.1).domain q.2).domainCoord d + k d < _
  omega

/-- Every cell of the global domain is a cell of a domain. -/
theorem exists_globalCell (hx : InBox su.cfg.globalSize x) : ∃ q k, su.InRange q ∧
    InBox ((su.decomposition q.1).domain q.2).domainExt k ∧ su.globalCell q k = x := by
  obtain ⟨q, ⟨hq, hcontains⟩, -⟩ := su.cfg.existsUnique_contains su.placement hx
  have hcontains : ((su.decomposition q.1).domain q.2).Contains x := hcontains
  refine ⟨q, fun d => x d - ((su.decomposition q.1).domain q.2).domainCoord d, hq, fun d => ?_, ?_⟩
  · have := hcontains d
    dsimp only
    omega
  · funext d
    exact Nat.add_sub_cancel' (hcontains d).1

/-- The expression of `make_fields`, in terms of the size of the global domain. -/
theorem makeFieldsExpr_eq (su : Setup) (q : ℕ × ℕ) (i : ℕ) (k : Arr ℕ) : su.makeFieldsExpr q i k =
    cellExpr (fun d => .add (.val (((su.decomposition q.1).domain q.2).domainCoord d)) (.val (k d)))
      (fun d => (su.cfg.globalSize d : ℤ) - 1) su.numFields i := by
  have hlast : (su.decomposition q.1).lastDomainCoord = fun d => (su.cfg.globalSize d : ℤ) - 1 :=
    su.cfg.lastDomainCoord_eq su.placement q.1
  rw [makeFieldsExpr, hlast]

/-- The expression of `check`, in terms of the size of the global domain. -/
theorem checkExpr_eq (su : Setup) (q : ℕ × ℕ) (offset : Arr ℤ) (i : ℕ) (k : Arr ℕ) :
    let n := (su.decomposition q.1).neighbor q.2 offset
    let first (d : Fin 3) := regionFirstN (offset d) (n.domainExt d) (haloLeft su.halos d)
    su.checkExpr q offset i k =
      cellExpr (fun d => .add (.add (.val (n.domainCoord d)) (.val (first d))) (.val (k d)))
        (fun d => (su.cfg.globalSize d : ℤ) - 1) su.numFields i := by
  have hlast : (su.decomposition q.1).lastDomainCoord = fun d => (su.cfg.globalSize d : ℤ) - 1 :=
    su.cfg.lastDomainCoord_eq su.placement q.1
  intro n first
  rw [checkExpr, hlast]

/-- What `make_fields` computes in exact arithmetic. -/
theorem eval_makeFieldsExpr (su : Setup) (q : ℕ × ℕ) (i : ℕ) (k : Arr ℕ) :
    (su.makeFieldsExpr q i k).eval =
      ((index su.cfg.globalSize (su.globalCell q k) * su.numFields + i : ℕ) : ℤ) := by
  rw [makeFieldsExpr_eq]
  exact eval_cellExpr_natCast fun d => (Int.natCast_add _ _).symm

/-- The halos are narrow if the extended buffers have sizes of type `int`. -/
theorem halo_le {h : ℕ} (hhalos : ∀ i, su.halos i = h)
    (halloc : volume (su.neighborhood q).extBuffer < 2 ^ 31) : h ≤ 2 ^ 11 := by
  by_contra hlt
  have hwide (d : Fin 3) : 2 ^ 12 ≤ (su.neighborhood q).extBuffer d := by
    rw [su.extBuffer_apply, Neighborhood.haloLeft_of_forall hhalos,
      Neighborhood.haloRight_of_forall hhalos]
    dsimp only
    omega
  have hvolume : 2 ^ 12 * 2 ^ 12 * 2 ^ 12 ≤ volume (su.neighborhood q).extBuffer :=
    Nat.mul_le_mul (Nat.mul_le_mul (hwide 0) (hwide 1)) (hwide 2)
  omega

/-- The operations of `make_fields` have no larger value than the last one can have, except for the sizes
of the domain. -/
theorem lt_of_mem_makeFieldsExpr (hq : su.InRange q) (hi : i < su.numFields)
    (hk : InBox ((su.decomposition q.1).domain q.2).domainExt k)
    (hv : v ∈ (su.makeFieldsExpr q i k).results) :
    (v = su.cfg.globalSize 0 ∨ v = su.cfg.globalSize 1) ∨ -2 ^ 11 ≤ v ∧ v < su.numValues := by
  rw [makeFieldsExpr_eq] at hv
  refine lt_of_mem_results (fun d => ?_) (globalCell_inBox hq hk) hi ?_ hv
  · exact (Int.natCast_add _ _).symm
  intro d v hv
  obtain rfl := List.mem_singleton.mp hv
  change -2 ^ 11 ≤ (((su.decomposition q.1).domain q.2).domainCoord d : ℤ) + k d ∧
    (((su.decomposition q.1).domain q.2).domainCoord d : ℤ) + k d ≤
      ((((su.decomposition q.1).domain q.2).domainCoord d + k d : ℕ) : ℤ)
  push_cast
  omega

/-- The operations of `check` have no larger value than the last one can have, except for the sizes of
the domain. -/
theorem lt_of_mem_checkExpr {width : ℕ} (hhalos : ∀ i, su.halos i = width) (hwidth : width ≤ 2 ^ 11)
    (hi : i < su.numFields) (hx : InBox su.cfg.globalSize x)
    (hexpected : su.expectedCell q offset k = fun d => (x d : ℤ))
    (hv : v ∈ (su.checkExpr q offset i k).results) :
    (v = su.cfg.globalSize 0 ∨ v = su.cfg.globalSize 1) ∨ -2 ^ 11 ≤ v ∧ v < su.numValues := by
  rw [checkExpr_eq] at hv
  refine lt_of_mem_results (fun d => ?_) hx hi ?_ hv
  · exact congrFun hexpected d
  intro d v hv
  have hx : ((su.decomposition q.1).neighbor q.2 offset).domainCoord d + regionFirstN (offset d)
      (((su.decomposition q.1).neighbor q.2 offset).domainExt d) (haloLeft su.halos d) + k d =
      (x d : ℤ) := congrFun hexpected d
  have hfirst : -2 ^ 11 ≤ regionFirstN (offset d)
      (((su.decomposition q.1).neighbor q.2 offset).domainExt d) (haloLeft su.halos d) := by
    rw [Neighborhood.haloLeft_of_forall hhalos]
    dsimp only [regionFirstN]
    split <;> omega
  simp only [IntExpr.results, IntExpr.eval, List.nil_append, List.append_nil, List.mem_append,
    List.mem_singleton] at hv
  omega

/-- What is stored for a cell. -/
theorem stored_eq (t : RealType) (hsize : ∀ d, su.cfg.globalSize d < 2 ^ 31)
    (hint : su.numValues ≤ 2 ^ 31) (hq : su.InRange q) (hi : i < su.numFields)
    (hk : InBox ((su.decomposition q.1).domain q.2).domainExt k) : su.stored t q i k =
      some (t.ofInt (index su.cfg.globalSize (su.globalCell q k) * su.numFields + i : ℕ)) := by
  have hsize0 := hsize 0
  have hsize1 := hsize 1
  rw [stored, IntExpr.run_eq, Option.map_some, eval_makeFieldsExpr]
  intro v hv
  have hbound := lt_of_mem_makeFieldsExpr hq hi hk hv
  exact ⟨by omega, by omega⟩

/-- In a small domain the operations are exact. -/
theorem SmallEnough.exact (h : su.SmallEnough t) (hsize : ∀ d, su.cfg.globalSize d < 2 ^ 31)
    (hv : (v = su.cfg.globalSize 0 ∨ v = su.cfg.globalSize 1) ∨ -2 ^ 11 ≤ v ∧ v < su.numValues) :
    t.Exact v := by
  obtain ⟨⟨hint, hdigits⟩, hx0, hx1⟩ := h
  have hsize0 := hsize 0
  have hsize1 := hsize 1
  zify at hint hdigits hx0 hx1 hsize0 hsize1
  apply RealType.exact_of_le <;> omega

/-- There is a value if there are a cell and a field. -/
theorem numValues_pos (hx : InBox su.cfg.globalSize x) (hi : i < su.numFields) : 0 < su.numValues :=
  Nat.mul_pos (Nat.zero_lt_of_lt (index_lt hx)) (Nat.zero_lt_of_lt hi)

/-- In a small domain the values of the cells are exact. -/
theorem encodingExact_of_small {width : ℕ} (hhalos : ∀ i, su.halos i = width)
    (halloc : ∀ q, su.InRange q → volume (su.neighborhood q).extBuffer < 2 ^ 31)
    (hsize : ∀ d, su.cfg.globalSize d < 2 ^ 31) (h : 0 < su.numValues → su.SmallEnough t) :
    su.EncodingExact t := by
  constructor
  · intro q hq i hi k hk v hv
    have hsmall := h (numValues_pos (globalCell_inBox hq hk) hi)
    exact hsmall.exact hsize (lt_of_mem_makeFieldsExpr hq hi hk hv)
  · intro q hq i hi offset _ k _ x hx hexpected v hv
    have hwidth := halo_le hhalos (halloc q hq)
    have hsmall := h (numValues_pos hx hi)
    exact hsmall.exact hsize (lt_of_mem_checkExpr hhalos hwidth hi hx hexpected hv)
  · intro q hq q' hq' i hi i' hi' k hk k' hk' heq
    have hc := globalCell_inBox hq hk
    have hc' := globalCell_inBox hq' hk'
    have hsmall := h (numValues_pos hc hi)
    have hint := hsmall.1.1
    have hexact {x : Arr ℕ} {i : ℕ} (hx : InBox su.cfg.globalSize x) (hi : i < su.numFields) :
        t.Exact (index su.cfg.globalSize x * su.numFields + i : ℕ) := by
      have hlt : _ < su.numValues := value_lt hx hi
      exact hsmall.exact hsize (Or.inr (by omega))
    rw [stored_eq t hsize hint hq hi hk, stored_eq t hsize hint hq' hi' hk',
      RealType.ofInt_of_exact (hexact hc hi), RealType.ofInt_of_exact (hexact hc' hi')] at heq
    have hvalue := Int.ofNat_inj.mp (Option.some.inj heq)
    rw [Nat.add_comm, Nat.mul_comm, Nat.add_comm _ i', Nat.mul_comm _ su.numFields] at hvalue
    obtain ⟨hfield, hindex⟩ := digit_injective hi hi' hvalue
    refine ⟨?_, hfield⟩
    rw [← unindex_index (hc 0) (hc 1), hindex, unindex_index (hc' 0) (hc' 1)]

/-- Every value belongs to a cell and a field. -/
theorem exists_value {n : ℕ} (hn : n < su.numValues) : ∃ q k i, su.InRange q ∧
    InBox ((su.decomposition q.1).domain q.2).domainExt k ∧ i < su.numFields ∧
      index su.cfg.globalSize (su.globalCell q k) * su.numFields + i = n := by
  have hfields : 0 < su.numFields := Nat.pos_of_mul_pos_left (Nat.zero_lt_of_lt hn)
  have hcell : n / su.numFields < volume su.cfg.globalSize := (Nat.div_lt_iff_lt_mul hfields).mpr hn
  have hbox : InBox su.cfg.globalSize (unindex su.cfg.globalSize (n / su.numFields)) :=
    inBox_unindex hcell
  obtain ⟨q, k, hq, hk, hx⟩ := exists_globalCell hbox
  refine ⟨q, k, n % su.numFields, hq, hk, Nat.mod_lt _ hfields, ?_⟩
  rw [hx, index_unindex, Nat.div_add_mod']

/-- The last value shows whether the domain is small. -/
theorem EncodingExact.small (h : su.EncodingExact t) (hpos : 0 < su.numValues) : su.SmallEnough t := by
  obtain ⟨q, k, i, hq, hk, hi, hvalue⟩ := exists_value (Nat.sub_lt hpos Nat.one_pos)
  have he (d : Fin 3) : (IntExpr.add (.val (((su.decomposition q.1).domain q.2).domainCoord d))
      (.val (k d))).eval = (su.globalCell q k d : ℤ) := (Int.natCast_add _ _).symm
  have hbound (m : ℕ) (hm : (m : ℤ) ∈ (su.makeFieldsExpr q i k).results) :
      m < 2 ^ 31 ∧ m ≤ 2 ^ t.digits := by
    obtain ⟨⟨-, hint⟩, hdigits⟩ := h.makeFields q hq i hi k hk m hm
    rw [Nat.abs_cast] at hdigits
    exact ⟨by omega, by exact_mod_cast hdigits⟩
  simp only [makeFieldsExpr_eq, mem_results_cellExpr he, Nat.cast_inj, hvalue] at hbound
  have hlast := hbound (su.numValues - 1) (by simp)
  have h0 := hbound (su.cfg.globalSize 0) (by simp)
  have h1 := hbound (su.cfg.globalSize 1) (by simp)
  exact ⟨⟨by omega, by omega⟩, h0.2, h1.2⟩

end Setup

/-- The values of the cells are exact if and only if there are none, or the number of cells of the
global domain times the number of fields is at most `2 ^ 31`, and at most one more than the range in
which `real_type` has all integers, which the x and y sizes do not exceed either. -/
theorem encoding_exact_iff (su : Setup) (t : RealType) (h : ℕ) (hhalos : ∀ i, su.halos i = h)
    (halloc : ∀ q, su.InRange q → volume (su.neighborhood q).extBuffer < 2 ^ 31)
    (hsize : ∀ d, su.cfg.globalSize d < 2 ^ 31) :
    su.EncodingExact t ↔ su.numValues = 0 ∨ su.SmallEnough t := by
  constructor
  · intro hexact
    cases Nat.eq_zero_or_pos su.numValues with
    | inl hzero => exact Or.inl hzero
    | inr hpos => exact Or.inr (hexact.small hpos)
  · intro hcond
    apply Setup.encodingExact_of_small hhalos halloc hsize
    intro hpos
    exact hcond.resolve_left hpos.ne'

/-- The values of 30 cells with two fields are exact as `float`. -/
theorem encoding_exact_twoRanks : twoRanksSetup.EncodingExact .float := by
  have hbuffer := twoRanksSetup_forall
    (p := fun q => volume (twoRanksSetup.neighborhood q).extBuffer < 2 ^ 31) (by decide)
  have hsmall : twoRanksSetup.SmallEnough .float := by constructor <;> decide
  exact (encoding_exact_iff twoRanksSetup .float 1 (fun _ => rfl) hbuffer (by decide)).mpr
    (Or.inr hsmall)

/-- A benchmark on 128 ranks with 64 cells in each dimension of a domain and eight fields. -/
def betzy : Setup :=
  have cfg : Config :=
    ⟨![8, 4, 4], fun _ => 1, fun _ => 64, true, by decide, fun _ => Nat.one_pos⟩
  ⟨cfg, .mpiCart (RankMap.xyz _ cfg.rankGrid_pos), fun _ => 1, 8⟩

/-- On 128 ranks the values exceed the integers that `float` has. -/
theorem encoding_not_exact : ¬ betzy.EncodingExact .float := by
  intro h
  have hvalues : betzy.numValues = 2 ^ 28 := rfl
  have hsmall := (h.small (by decide)).1.2
  rw [hvalues] at hsmall
  exact absurd hsmall (by decide)

end Ghexbench.Cartex
