import Ghexbench.Cartex.Neighborhood

/-!
# Tags of messages

A tag is meant to encode the field, the direction and the sending thread in a mixed radix. The
direction has six values, but the radix for the field is the number of threads of a rank, while
the field is one of as many as the user asks for. A receive has the tag of the message it is
meant for in any case.
-/

namespace Ghexbench.Cartex

open Ghexbench.Common

/-- The digit of a dimension and a side determines both. -/
theorem directionTag_injective {dim dim' : Fin 3} {left left' : Bool}
    (h : dim.val * 2 + (if left then 0 else 1) = dim'.val * 2 + (if left' then 0 else 1)) :
    dim = dim' ∧ left = left' := by
  revert dim dim' left left'
  decide

/-- There are six directions. -/
theorem directionTag_lt (dim : Fin 3) (left : Bool) : dim.val * 2 + (if left then 0 else 1) < 6 := by
  revert dim left
  decide

namespace Setup

variable (su : Setup)

/-- Messages with the same tag are from the same thread of their ranks, for the same field and in
the same direction. -/
def TagsDistinct : Prop :=
  ∀ q q', su.InRange q → su.InRange q' → ∀ f < su.numFields, ∀ f' < su.numFields,
    ∀ dim dim' left left',
      (su.neighborhood q).sendtag f dim left = (su.neighborhood q').sendtag f' dim' left' →
        q.2 = q'.2 ∧ f = f' ∧ dim = dim' ∧ left = left'

/-- A receive has the tag of the message that the neighbour sends to the receiving thread. -/
def TagsAgree : Prop :=
  ∀ q, su.InRange q → ∀ f < su.numFields, ∀ dim left,
    su.target (su.source q dim left) dim left = q ∧
    (su.neighborhood q).recvtag f dim left =
      (su.neighborhood (su.source q dim left)).sendtag f dim left

variable {su}

/-- Fields below the radix are digits. -/
theorem tagsDistinct_of_le (h : su.numFields ≤ su.cfg.numThreads) : su.TagsDistinct := by
  intro q q' _ _ f hf f' hf' dim dim' left left' heq
  rw [sendtag_eq, sendtag_eq] at heq
  obtain ⟨hfield, hrest⟩ := digit_injective (hf.trans_le h) (hf'.trans_le h) heq
  obtain ⟨hdirection, hthread⟩ :=
    digit_injective (directionTag_lt dim left) (directionTag_lt dim' left') hrest
  obtain ⟨hdim, hleft⟩ := directionTag_injective hdirection
  exact ⟨hthread, hfield, hdim, hleft⟩

/-- The first field that is no digit carries into the direction. -/
theorem sendtag_carry (q : ℕ × ℕ) : (su.neighborhood q).sendtag su.cfg.numThreads 0 true =
    (su.neighborhood q).sendtag 0 0 false := by
  rw [sendtag_eq, sendtag_eq]
  simp only [Fin.val_zero, if_true, Bool.false_eq_true, if_false]
  ring

/-- The first thread of the first rank takes part in every run. -/
theorem inRange_zero (su : Setup) : su.InRange (0, 0) := ⟨su.cfg.numRanks_pos, su.cfg.numThreads_pos⟩

/-- With more fields than threads two messages of a thread have the same tag. -/
theorem le_of_tagsDistinct (h : su.TagsDistinct) : su.numFields ≤ su.cfg.numThreads := by
  by_contra hlt
  have hfields := not_le.mp hlt
  have hsame := h (0, 0) (0, 0) su.inRange_zero su.inRange_zero _ hfields 0
    (Nat.zero_lt_of_lt hfields) 0 0 true false (sendtag_carry (0, 0))
  exact absurd hsame.2.2.2 (by decide)

/-- Sender and receiver compute the same tag. -/
theorem tagsAgree (su : Setup) : su.TagsAgree := fun q hq f _ dim left =>
  ⟨target_source hq dim left, su.recvtag_eq_sendtag q f dim left⟩

end Setup

/-- Tags identify messages, and senders and receivers agree about them, if and only if there are at
most as many fields as threads of a rank. -/
theorem tags_identify_iff (su : Setup) :
    su.TagsDistinct ∧ su.TagsAgree ↔ su.numFields ≤ su.cfg.numThreads := by
  constructor
  · intro h
    exact Setup.le_of_tagsDistinct h.1
  · intro h
    exact ⟨Setup.tagsDistinct_of_le h, su.tagsAgree⟩

/-- One rank of one thread with two fields. -/
def twoFields : Setup where
  cfg := cube 4
  placement := cubePlacement 4
  halos _ := 1
  numFields := 2

/-- The second field to the left has the tag of the first field to the right. -/
theorem twoFields_not_distinct : ¬ twoFields.TagsDistinct := by
  intro h
  exact absurd (h (0, 0) (0, 0) (by decide) (by decide) 1 (by decide) 0 (by decide) 0 0 true false
    (by decide)) (by decide)

end Ghexbench.Cartex
