import Mathlib.Algebra.BigOperators.Intervals
import Mathlib.Data.List.Flatten
import Mathlib.Data.Nat.Notation
import Mathlib.Logic.Function.Basic

/-!
# Loops that fill arrays

A counting loop as a fold, and loops whose steps are assignments to the elements of an array. An
array is the function from its indices to its elements. What a loop nest of assignments leaves is
determined by the assignments alone, if no element is assigned two different values.
-/

namespace Ghexbench.Common

variable {σ τ V : Type*}

/-- The loop `for (int i = 0; i < n; ++i)`. -/
def forRange (n : ℕ) (body : ℕ → σ → σ) (s : σ) : σ := (List.range n).foldl (fun s i => body i s) s

/-- A loop on two variables that do not depend on each other. -/
theorem forRange_prodMap (n : ℕ) (f : ℕ → σ → σ) (g : ℕ → τ → τ) :
    forRange n (fun i => Prod.map (f i) (g i)) = Prod.map (forRange n f) (forRange n g) := by
  have hloop (l : List ℕ) (s : σ × τ) : l.foldl (fun s i => Prod.map (f i) (g i) s) s =
      (l.foldl (fun s i => f i s) s.1, l.foldl (fun s i => g i s) s.2) := by
    induction l generalizing s with
    | nil => rfl
    | cons i l ih => exact ih _
  funext s
  exact hloop _ s

/-- A list in which only one element has a part. -/
theorem flatMap_ite_eq [DecidableEq σ] {l : List σ} (hl : l.Nodup) {b : σ} (hb : b ∈ l)
    (g : σ → List τ) : (l.flatMap fun x => if x = b then g x else []) = g b := by
  induction l with
  | nil => cases hb
  | cons x rest ih =>
    rw [List.nodup_cons] at hl
    rw [List.flatMap_cons]
    by_cases hx : x = b
    · subst hx
      have hrest : (rest.flatMap fun y => if y = x then g y else []) = [] := by
        rw [List.flatMap_eq_nil_iff]
        intro y hy
        rw [if_neg fun h : y = x => hl.1 (h ▸ hy)]
      rw [if_pos rfl, hrest, List.append_nil]
    · rw [if_neg hx, List.nil_append, ih hl.2 ((List.mem_cons.mp hb).resolve_left (Ne.symm hx))]

section Accumulators

variable {M : Type*}

/-- A loop that adds up. -/
theorem forRange_add [AddCommMonoid M] (f : ℕ → M) (n : ℕ) (a : M) :
    forRange n (fun i sum => sum + f i) a = a + ∑ i ∈ Finset.range n, f i := by
  induction n with
  | zero => exact (add_zero a).symm
  | succ n ih =>
    rw [forRange, List.range_succ, List.foldl_append, ← forRange, ih, Finset.sum_range_succ, ← add_assoc]
    rfl

/-- A loop that multiplies. -/
theorem forRange_mul [CommMonoid M] (f : ℕ → M) (n : ℕ) (a : M) :
    forRange n (fun i product => product * f i) a = a * ∏ i ∈ Finset.range n, f i := by
  induction n with
  | zero => exact (mul_one a).symm
  | succ n ih =>
    rw [forRange, List.range_succ, List.foldl_append, ← forRange, ih, Finset.prod_range_succ, ← mul_assoc]
    rfl

/-- A loop that multiplies, from some index on. -/
theorem foldl_mul_range' [CommMonoid M] (f : ℕ → M) (first n : ℕ) (a : M) :
    (List.range' first n).foldl (fun product i => product * f i) a =
      a * ∏ i ∈ Finset.Ico first (first + n), f i := by
  induction n with
  | zero => simp
  | succ n ih =>
    rw [List.range'_1_concat, List.foldl_append, ih, ← Nat.add_assoc,
      Finset.prod_Ico_succ_top (Nat.le_add_right first n), ← mul_assoc]
    rfl

end Accumulators

/-- Assignments to elements of an array, one after another. -/
def assign (writes : List (ℕ × V)) (a : ℕ → V) : ℕ → V :=
  writes.foldl (fun a w => Function.update a w.1 w.2) a

/-- Some assignments and then others. -/
theorem assign_append (l l' : List (ℕ × V)) (a : ℕ → V) :
    assign l' (assign l a) = assign (l ++ l') a := (List.foldl_append ..).symm

/-- A statement that consists of assignments of values that it does not read from the array. -/
def Assigns (body : (ℕ → V) → ℕ → V) (writes : List (ℕ × V)) : Prop := ∀ a, body a = assign writes a

namespace Assigns

/-- A single assignment. -/
theorem update (i : ℕ) (v : V) : Assigns (fun a => Function.update a i v) [(i, v)] := fun _ => rfl

/-- Some assignments and then others. -/
theorem comp {body body' : (ℕ → V) → ℕ → V} {writes writes' : List (ℕ × V)}
    (h : Assigns body writes) (h' : Assigns body' writes') :
    Assigns (fun a => body' (body a)) (writes ++ writes') := by
  intro a
  change body' (body a) = _
  rw [h', h, assign_append]

/-- A loop of assignments. -/
theorem forRange {n : ℕ} {body : ℕ → (ℕ → V) → ℕ → V} {writes : ℕ → List (ℕ × V)}
    (h : ∀ i, Assigns (body i) (writes i)) :
    Assigns (forRange n body) ((List.range n).flatMap writes) := by
  have hloop (l : List ℕ) :
      Assigns (fun a => l.foldl (fun a i => body i a) a) (l.flatMap writes) := by
    induction l with
    | nil => exact fun _ => rfl
    | cons i l ih => exact (h i).comp ih
  exact hloop _

end Assigns

/-- An element that is not assigned. -/
theorem assign_of_forall_ne {writes : List (ℕ × V)} {i : ℕ} (h : ∀ w ∈ writes, w.1 ≠ i) (a : ℕ → V) :
    assign writes a i = a i := by
  induction writes generalizing a with
  | nil => rfl
  | cons w writes ih =>
    have hw := h w List.mem_cons_self
    change assign writes (Function.update a w.1 w.2) i = a i
    rw [ih fun w hw => h w (List.mem_cons_of_mem _ hw), Function.update_of_ne hw.symm]

/-- An element to which always the same value is assigned. -/
theorem assign_of_mem {writes : List (ℕ × V)} {i : ℕ} {v : V} (hmem : (i, v) ∈ writes)
    (h : ∀ w ∈ writes, w.1 = i → w.2 = v) (a : ℕ → V) : assign writes a i = v := by
  induction writes generalizing a with
  | nil => cases hmem
  | cons w writes ih =>
    have hrest : ∀ w ∈ writes, w.1 = i → w.2 = v := fun w hw => h w (List.mem_cons_of_mem _ hw)
    change assign writes (Function.update a w.1 w.2) i = v
    by_cases hin : (i, v) ∈ writes
    · exact ih hin hrest _
    · have hw : w = (i, v) := by
        cases List.mem_cons.mp hmem with
        | inl heq => exact heq.symm
        | inr hin' => exact absurd hin' hin
      have hothers : ∀ x ∈ writes, x.1 ≠ i := by
        intro x hx hxi
        apply hin
        rw [← hxi, ← hrest x hx hxi]
        exact hx
      rw [assign_of_forall_ne hothers, hw, Function.update_self]

/-- Two nested loops run over the numbers with two digits. -/
theorem flatMap_range_map (m n : ℕ) (f : ℕ → ℕ → V) :
    ((List.range n).flatMap fun j => (List.range m).map fun i => f i j) =
      (List.range (m * n)).map fun k => f (k % m) (k / m) := by
  induction n with
  | zero => rfl
  | succ n ih =>
    rw [List.range_succ, List.flatMap_append, ih, Nat.mul_succ, List.range_add, List.map_append,
      List.flatMap_singleton, List.map_map]
    congr 1
    apply List.map_congr_left
    intro i hi
    have hlt := List.mem_range.mp hi
    rw [Function.comp_apply, Nat.mul_add_mod, Nat.mod_eq_of_lt hlt,
      Nat.mul_add_div (Nat.zero_lt_of_lt hlt), Nat.div_eq_of_lt hlt, Nat.add_zero]

/-- The first elements of an array. -/
def contents (n : ℕ) (a : ℕ → V) : List V := (List.range n).map a

/-- Read consecutive elements. -/
def readRange (first n : ℕ) (a : ℕ → V) : List V := contents n fun k => a (first + k)

/-- Overwrite at most `n` consecutive elements. -/
def writeRange (first n : ℕ) (data : List V) (a : ℕ → V) (i : ℕ) : V :=
  if first ≤ i ∧ i < first + n then data.getD (i - first) (a i) else a i

@[simp] theorem length_contents (n : ℕ) (a : ℕ → V) : (contents n a).length = n := by simp [contents]

/-- An element of the first elements of an array. -/
theorem getD_contents {n k : ℕ} (hk : k < n) (a : ℕ → V) (v : V) : (contents n a).getD k v = a k := by
  simp [contents, List.getD_eq_getElem?_getD, hk]

/-- The elements of an array that has just been overwritten. -/
theorem contents_writeRange {data : List V} {n : ℕ} (h : data.length = n) (a : ℕ → V) :
    contents n (writeRange 0 n data a) = data := by
  apply List.ext_getElem
  · simp [h]
  · intro k hk hk'
    have hlt : k < n := h ▸ hk'
    simp [contents, writeRange, hlt, List.getD_eq_getElem?_getD, hk']

end Ghexbench.Common
