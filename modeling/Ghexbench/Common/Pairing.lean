import Mathlib.Data.Nat.Count
import Mathlib.Tactic.Linarith

/-!
# First-in-first-out pairing

Two sequences, the sends and the receives of one stream, are paired in order: the `i`-th
receive with the `i`-th send. `takeFirst` is the search of a queue for its first element with
some property.
-/

namespace Ghexbench.Common

variable {α M N : Type*}

/-- The first element with a property, and the list without it. -/
def takeFirst (p : α → Bool) : List α → Option (α × List α)
  | [] => none
  | a :: l => if p a then some (a, l) else (takeFirst p l).map fun q => (q.1, a :: q.2)

/-- The search fails when no element has the property. -/
theorem takeFirst_eq_none {p : α → Bool} {l : List α} (h : takeFirst p l = none) :
    ∀ x ∈ l, p x = false := by
  induction l with
  | nil => simp
  | cons a l ih =>
    rw [takeFirst] at h
    split at h
    · cases h
    · next hp =>
      intro x hx
      rcases List.mem_cons.mp hx with rfl | hx
      · exact Bool.eq_false_iff.mpr hp
      · exact ih (Option.map_eq_none_iff.mp h) x hx

/-- The elements before the first one with the property do not have it. -/
theorem takeFirst_eq_some {p : α → Bool} {l rest : List α} {a : α}
    (h : takeFirst p l = some (a, rest)) :
    ∃ before after, l = before ++ a :: after ∧ rest = before ++ after ∧ p a = true ∧
      ∀ x ∈ before, p x = false := by
  induction l generalizing rest with
  | nil => cases h
  | cons b l ih =>
    rw [takeFirst] at h
    split at h
    · next hp =>
      cases h
      exact ⟨[], l, rfl, rfl, hp, by simp⟩
    · next hp =>
      obtain ⟨⟨a', rest'⟩, hfirst, heq⟩ := Option.map_eq_some_iff.mp h
      cases heq
      obtain ⟨before, after, rfl, rfl, ha, hbefore⟩ := ih hfirst
      refine ⟨b :: before, after, rfl, rfl, ha, ?_⟩
      intro x hx
      rcases List.mem_cons.mp hx with rfl | hx
      · exact Bool.eq_false_iff.mpr hp
      · exact hbefore x hx

/-- The search removes an element that was there. -/
theorem takeFirst_mem {p : α → Bool} {l rest : List α} {a : α}
    (h : takeFirst p l = some (a, rest)) : a ∈ l ∧ p a = true ∧ ∀ x ∈ rest, x ∈ l := by
  obtain ⟨before, after, rfl, rfl, ha, _⟩ := takeFirst_eq_some h
  refine ⟨by simp, ha, ?_⟩
  intro x hx
  cases List.mem_append.mp hx with
  | inl hx => exact List.mem_append_left _ hx
  | inr hx => exact List.mem_append_right _ (List.mem_cons_of_mem a hx)

/-- The search removes one element. -/
theorem takeFirst_length {p : α → Bool} {l rest : List α} {a : α}
    (h : takeFirst p l = some (a, rest)) : l.length = rest.length + 1 := by
  obtain ⟨before, after, rfl, rfl, _, _⟩ := takeFirst_eq_some h
  simp only [List.length_append, List.length_cons]
  omega

/-- The search only changes the order. -/
theorem takeFirst_perm {p : α → Bool} {l rest : List α} {a : α}
    (h : takeFirst p l = some (a, rest)) : l.Perm (a :: rest) := by
  obtain ⟨before, after, rfl, rfl, _, _⟩ := takeFirst_eq_some h
  exact List.perm_middle

/-- In a class of elements that all have the property, the search takes the first one. -/
theorem takeFirst_filter_self {p q : α → Bool} {l rest : List α} {a : α}
    (h : takeFirst p l = some (a, rest)) (hqp : ∀ x ∈ l, q x = true → p x = true) (ha : q a = true) :
    l.filter q = a :: rest.filter q := by
  obtain ⟨before, after, rfl, rfl, _, hbefore⟩ := takeFirst_eq_some h
  have hnone : before.filter q = [] := by
    apply List.filter_eq_nil_iff.mpr
    intro x hx hq
    have hp := hqp x (List.mem_append_left _ hx) hq
    rw [hbefore x hx] at hp
    cases hp
  rw [List.filter_append, List.filter_append, hnone, List.filter_cons_of_pos ha]
  rfl

/-- The search does not touch a class that the element found does not belong to. -/
theorem takeFirst_filter_other {p q : α → Bool} {l rest : List α} {a : α}
    (h : takeFirst p l = some (a, rest)) (ha : q a = false) : l.filter q = rest.filter q := by
  obtain ⟨before, after, rfl, rfl, _, _⟩ := takeFirst_eq_some h
  have hnot : ¬ q a = true := by rw [ha]; exact Bool.false_ne_true
  rw [List.filter_append, List.filter_append, List.filter_cons_of_neg hnot]

/-- When the search fails, a class of elements that all have the property is empty. -/
theorem takeFirst_filter_none {p q : α → Bool} {l : List α} (h : takeFirst p l = none)
    (hqp : ∀ x ∈ l, q x = true → p x = true) : l.filter q = [] := by
  apply List.filter_eq_nil_iff.mpr
  intro x hx hq
  have hp := hqp x hx hq
  rw [takeFirst_eq_none h x hx] at hp
  cases hp

/-- The search does not put elements into an empty class. -/
theorem takeFirst_filter_nil {p q : α → Bool} {l rest : List α} {a : α}
    (h : takeFirst p l = some (a, rest)) (hnil : l.filter q = []) : rest.filter q = [] := by
  apply List.filter_eq_nil_iff.mpr
  intro x hx
  exact List.filter_eq_nil_iff.mp hnil x ((takeFirst_mem h).2.2 x hx)

/-- The sends and the receives of a stream so far, those that are not yet matched, and the
matches: in both sequences the matched ones come first, and they are matched in order. -/
def Paired (sent : List M) (received : List N) (pending : List M) (posted : List N)
    (matched : List (N × M)) : Prop :=
  ∃ (sentDone : List M) (receivedDone : List N), sentDone.length = receivedDone.length ∧
    sent = sentDone ++ pending ∧ received = receivedDone ++ posted ∧
    matched = receivedDone.zip sentDone

namespace Paired

variable {sent : List M} {received : List N} {pending : List M} {posted : List N}
  {matched : List (N × M)}

/-- Nothing has happened. -/
theorem nil : Paired ([] : List M) ([] : List N) [] [] [] := ⟨[], [], rfl, rfl, rfl, rfl⟩

/-- One more send. -/
theorem send (h : Paired sent received pending posted matched) (m : M) :
    Paired (sent ++ [m]) received (pending ++ [m]) posted matched := by
  obtain ⟨sentDone, receivedDone, hlength, rfl, hreceived, hmatched⟩ := h
  exact ⟨sentDone, receivedDone, hlength, List.append_assoc _ _ _, hreceived, hmatched⟩

/-- One more receive. -/
theorem receive (h : Paired sent received pending posted matched) (r : N) :
    Paired sent (received ++ [r]) pending (posted ++ [r]) matched := by
  obtain ⟨sentDone, receivedDone, hlength, hsent, rfl, hmatched⟩ := h
  exact ⟨sentDone, receivedDone, hlength, hsent, List.append_assoc _ _ _, hmatched⟩

/-- The first unmatched send and the first unmatched receive are matched. -/
theorem pair {m : M} {r : N} (h : Paired sent received (m :: pending) (r :: posted) matched) :
    Paired sent received pending posted (matched ++ [(r, m)]) := by
  obtain ⟨sentDone, receivedDone, hlength, hsent, hreceived, hmatched⟩ := h
  refine ⟨sentDone ++ [m], receivedDone ++ [r], ?_, ?_, ?_, ?_⟩
  · rw [List.length_append, List.length_append, hlength]
    rfl
  · rw [hsent, List.append_assoc]
    rfl
  · rw [hreceived, List.append_assoc]
    rfl
  · rw [hmatched, List.zip_append hlength.symm]
    rfl

/-- A match joins a send and a receive at the same place of their sequences. -/
theorem mem {m : M} {r : N} (h : Paired sent received pending posted matched)
    (hmem : (r, m) ∈ matched) : ∃ i : ℕ, received[i]? = some r ∧ sent[i]? = some m := by
  obtain ⟨sentDone, receivedDone, hlength, rfl, rfl, rfl⟩ := h
  obtain ⟨i, hi⟩ := List.mem_iff_getElem?.mp hmem
  rw [List.getElem?_zip_eq_some] at hi
  obtain ⟨hr, hm⟩ := hi
  obtain ⟨hreceived, _⟩ := List.getElem?_eq_some_iff.mp hr
  obtain ⟨hsent, _⟩ := List.getElem?_eq_some_iff.mp hm
  refine ⟨i, ?_, ?_⟩
  · rw [List.getElem?_append_left hreceived, hr]
  · rw [List.getElem?_append_left hsent, hm]

/-- Once all sends or all receives are matched, the places that both sequences have reached are
matched. -/
theorem matched_of {m : M} {r : N} {i : ℕ} (h : Paired sent received pending posted matched)
    (hdone : pending = [] ∨ posted = []) (hr : received[i]? = some r) (hm : sent[i]? = some m) :
    (r, m) ∈ matched := by
  obtain ⟨sentDone, receivedDone, hlength, rfl, rfl, rfl⟩ := h
  have hi : i < sentDone.length := by
    obtain ⟨hsent, _⟩ := List.getElem?_eq_some_iff.mp hm
    obtain ⟨hreceived, _⟩ := List.getElem?_eq_some_iff.mp hr
    rw [List.length_append] at hsent hreceived
    rcases hdone with rfl | rfl
    · simpa using hsent
    · rw [hlength]
      simpa using hreceived
  rw [List.getElem?_append_left hi] at hm
  rw [List.getElem?_append_left (hlength ▸ hi)] at hr
  exact List.mem_iff_getElem?.mpr ⟨i, List.getElem?_zip_eq_some.mpr ⟨hr, hm⟩⟩

/-- If as many receives as sends have been posted, and the sends or the receives are all matched,
then both are. -/
theorem nil_of_length_eq (h : Paired sent received pending posted matched)
    (hlength : sent.length = received.length) (hnil : pending = [] ∨ posted = []) :
    pending = [] ∧ posted = [] := by
  obtain ⟨sentDone, receivedDone, hdone, rfl, rfl, _⟩ := h
  rw [List.length_append, List.length_append, hdone, Nat.add_left_cancel_iff] at hlength
  cases hnil with
  | inl hnil =>
    rw [hnil, List.length_nil] at hlength
    exact ⟨hnil, List.length_eq_zero_iff.mp hlength.symm⟩
  | inr hnil =>
    rw [hnil, List.length_nil] at hlength
    exact ⟨List.length_eq_zero_iff.mp hlength, hnil⟩

end Paired

/-- The places of the selected numbers in the list of all of them. -/
theorem filter_range_getElem? (p : ℕ → Prop) [DecidablePred p] {n i k : ℕ} :
    ((List.range n).filter p)[i]? = some k ↔ k < n ∧ p k ∧ Nat.count p k = i := by
  induction n with
  | zero => simp
  | succ n ih =>
    have hlength : ((List.range n).filter p).length = Nat.count p n := by
      rw [Nat.count, List.countP_eq_length_filter]
    rw [List.range_succ, List.filter_append]
    cases lt_or_ge i (Nat.count p n) with
    | inl hlt =>
      rw [List.getElem?_append_left (hlength ▸ hlt), ih]
      constructor
      · rintro ⟨hk, hp, hcount⟩
        exact ⟨Nat.lt_succ_of_lt hk, hp, hcount⟩
      · rintro ⟨hk, hp, hcount⟩
        have hne : k ≠ n := by
          rintro rfl
          exact absurd hcount (Nat.ne_of_gt hlt)
        exact ⟨by omega, hp, hcount⟩
    | inr hge =>
      rw [List.getElem?_append_right (hlength ▸ hge), hlength]
      by_cases hpn : p n
      · rw [List.filter_cons_of_pos (by simpa using hpn), List.filter_nil]
        constructor
        · intro hk
          obtain ⟨hi, heq⟩ := List.getElem?_eq_some_iff.mp hk
          have hzero : i - Nat.count p n = 0 := by simpa using hi
          have hnk : n = k := by simpa [hzero] using heq
          subst hnk
          exact ⟨Nat.lt_succ_self n, hpn, by omega⟩
        · rintro ⟨hk, hp, hcount⟩
          have hnk : k = n := by
            by_contra hne
            have := Nat.count_strict_mono hp (show k < n by omega)
            omega
          subst hnk
          simp [hcount]
      · rw [List.filter_cons_of_neg (by simpa using hpn), List.filter_nil]
        constructor
        · intro hk
          simp at hk
        · rintro ⟨hk, hp, hcount⟩
          exfalso
          cases Nat.lt_or_ge k n with
          | inl hlt =>
            have := Nat.count_strict_mono hp hlt
            omega
          | inr hle =>
            have hnk : k = n := by omega
            exact hpn (hnk ▸ hp)

/-- Numbers at the same place of two such lists are equal. -/
theorem filter_range_inj {p : ℕ → Prop} [DecidablePred p] {n n' i k k' : ℕ}
    (h : ((List.range n).filter p)[i]? = some k) (h' : ((List.range n').filter p)[i]? = some k') :
    k = k' := by
  rw [filter_range_getElem?] at h h'
  exact Nat.count_injective h.2.1 h'.2.1 (h.2.2.trans h'.2.2.symm)

end Ghexbench.Common
