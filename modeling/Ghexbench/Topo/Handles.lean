import Ghexbench.Common.Ownership
import Ghexbench.Common.Transition

/-!
# The handles of the hardware topology

`hw_topo` has a topology from `hwcart_init`, and in `m_comm` a communicator from `hwcart_create`. The
communicator is moved from object to object and freed once. The topology is copied when an object is moved,
and the new object frees it at once, because `m_empty` is false before the move constructor sets it. When
the constructor throws after `hwcart_init`, nobody frees the topology.
-/

namespace Ghexbench.Topo

open Ghexbench.Common

/-- The members of `hw_topo` that have to do with handles. `m_topo` of a default-constructed object is not
initialised; a holder without communicator has `MPI_COMM_WORLD`. -/
structure Object where
  topo : Option ℕ
  comm : Option ℕ
  isEmpty : Bool

/-- The live objects, how many handles have been obtained, and what has been freed. -/
structure Handles where
  objects : ℕ → Option Object
  numTopos : ℕ
  freedTopos : List (Option ℕ)
  numComms : ℕ
  freedComms : List (Option ℕ)

/-- How the constructor ends: `hwcart_init` fails, `hwcart_create` fails, the query of rank or size fails, or
the object is constructed. -/
inductive Outcome
  | initFails
  | createFails
  | queryFails
  | constructed
  deriving DecidableEq

/-- Constructions, move constructions and destructions of objects. -/
inductive Action
  | default (i : ℕ)
  | construct (i : ℕ) (outcome : Outcome)
  | move (source target : ℕ)
  | destroy (i : ℕ)

namespace Handles

/-- Nothing has been constructed. -/
def init : Handles := ⟨fun _ => none, 0, [], 0, []⟩

variable (s : Handles)

/-- `hwcart_init`: the new topology is the one with the number `numTopos`. -/
def topoInit : Handles := { s with numTopos := s.numTopos + 1 }

/-- `hwcart_topo_free`. -/
def topoFree (topo : Option ℕ) : Handles := { s with freedTopos := s.freedTopos ++ [topo] }

/-- `hwcart_create`: the new communicator is the one with the number `numComms`. -/
def commCreate : Handles := { s with numComms := s.numComms + 1 }

/-- The destructor of `mpi_comm_holder`. -/
def holderDestroy (m : Option ℕ) : Handles :=
  if m.isSome then { s with freedComms := s.freedComms ++ [m] } else s

/-- Begin or end the life of an object. -/
def setObject (i : ℕ) (o : Option Object) : Handles := { s with objects := Function.update s.objects i o }

/-- The constructor. When it throws, the members are destroyed, but not the object. -/
def construct (i : ℕ) : Outcome → Handles
  | .initFails => s.holderDestroy none
  | .createFails => s.topoInit.holderDestroy none
  | .queryFails => s.topoInit.commCreate.holderDestroy (some s.numComms)
  | .constructed => s.topoInit.commCreate.setObject i (some ⟨some s.numTopos, some s.numComms, false⟩)

/-- The move constructor, for the object `j`. -/
def moveConstruct (i j : ℕ) (other : Object) : Handles :=
  let object : Object := ⟨other.topo, other.comm, false⟩
  let s := if !object.isEmpty then s.topoFree object.topo else s
  (s.setObject i (some { other with comm := none })).setObject j
    (some { object with isEmpty := other.isEmpty })

/-- The destructor. -/
def destroy (i : ℕ) (object : Object) : Handles :=
  let s := if !object.isEmpty then s.topoFree object.topo else s
  (s.holderDestroy object.comm).setObject i none

/-- An action, if the objects that it uses are alive and those that it constructs are not. -/
def next : Action → Option Handles
  | .default i => if (s.objects i).isNone then some (s.setObject i (some ⟨none, none, true⟩)) else none
  | .construct i outcome => if (s.objects i).isNone then some (s.construct i outcome) else none
  | .move i j =>
    if (s.objects j).isNone then (s.objects i).map fun other => s.moveConstruct i j other else none
  | .destroy i => (s.objects i).map fun object => s.destroy i object

end Handles

/-- The topology of an object that is not empty. -/
def Object.ownedTopo (o : Object) : Option ℕ := if o.isEmpty then none else o.topo

namespace Handles

variable (s : Handles)

/-- Objects that are not empty own their topologies. -/
def topos : Ledger ℕ := ⟨(fun o => o.bind Object.ownedTopo) ∘ s.objects, s.numTopos, s.freedTopos⟩

/-- Objects own the communicators in their holders. -/
def comms : Ledger ℕ := ⟨(fun o => o.bind Object.comm) ∘ s.objects, s.numComms, s.freedComms⟩

/-- Every live object that is not empty has a topology that has not been freed, only topologies have been
freed, and when all objects are gone, every topology has been freed exactly once. -/
structure ToposOwned : Prop where
  live : ∀ i o, s.objects i = some o → o.isEmpty = false → ∃ t, o.topo = some t ∧ some t ∉ s.freedTopos
  freed : ∀ x ∈ s.freedTopos, ∃ t < s.numTopos, x = some t
  gone : (∀ i, s.objects i = none) → ∀ t < s.numTopos, s.freedTopos.count (some t) = 1

/-- The same of the communicators in the holders. -/
structure CommsOwned : Prop where
  live : ∀ i o, s.objects i = some o → ∀ c, o.comm = some c → some c ∉ s.freedComms
  freed : ∀ x ∈ s.freedComms, ∃ c < s.numComms, x = some c
  gone : (∀ i, s.objects i = none) → ∀ c < s.numComms, s.freedComms.count (some c) = 1

/-- A step is no move construction, and no construction that throws after `hwcart_init`. -/
def Plain (_ : Handles) : Action → Prop
  | .construct _ outcome => outcome = .initFails ∨ outcome = .constructed
  | .move _ _ => False
  | _ => True

section Ledgers

variable {s} {s' : Handles} {i j : ℕ} {o : Option Object} {object : Object} {a : Action}

/-- Setting an object changes what it owns. -/
theorem comms_setObject (s : Handles) (i : ℕ) (o : Option Object) : (s.setObject i o).comms =
    { s.comms with owned := Function.update s.comms.owned i (o.bind Object.comm) } := by
  simp only [comms, setObject, Function.comp_update]

/-- Setting an object changes what it owns. -/
theorem topos_setObject (s : Handles) (i : ℕ) (o : Option Object) : (s.setObject i o).topos =
    { s.topos with owned := Function.update s.topos.owned i (o.bind Object.ownedTopo) } := by
  simp only [topos, setObject, Function.comp_update]

/-- An object that does not own a communicator before or after. -/
theorem comms_setObject_of_none (hi : s.comms.owned i = none) (ho : o.bind Object.comm = none) :
    (s.setObject i o).comms = s.comms := by
  rw [comms_setObject, ho, ← hi, Function.update_eq_self]

/-- An object that does not own a topology before or after. -/
theorem topos_setObject_of_none (hi : s.topos.owned i = none) (ho : o.bind Object.ownedTopo = none) :
    (s.setObject i o).topos = s.topos := by
  rw [topos_setObject, ho, ← hi, Function.update_eq_self]

/-- What a live object owns. -/
theorem comms_owned (hi : s.objects i = o) : s.comms.owned i = o.bind Object.comm :=
  congrArg (fun o => o.bind Object.comm) hi

/-- What a live object owns. -/
theorem topos_owned (hi : s.objects i = o) : s.topos.owned i = o.bind Object.ownedTopo :=
  congrArg (fun o => o.bind Object.ownedTopo) hi

/-- The constructor obtains a communicator, and frees it when the object is not constructed. -/
theorem comms_construct (hi : s.objects i = none) (outcome : Outcome) :
    (s.construct i outcome).comms = s.comms ∨ (s.construct i outcome).comms = s.comms.acquire i ∨
      (s.construct i outcome).comms = (s.comms.acquire i).release i := by
  cases outcome with
  | initFails => exact Or.inl rfl
  | createFails => exact Or.inl rfl
  | queryFails =>
    right; right
    rw [Ledger.release_acquire (comms_owned hi)]
    rfl
  | constructed =>
    right; left
    rw [construct, comms_setObject]
    rfl

/-- A moved object hands over its communicator. -/
theorem comms_moveConstruct (hi : s.objects i = some object) :
    (s.moveConstruct i j object).comms = s.comms.transfer i j := by
  rw [moveConstruct, comms_setObject, comms_setObject, Ledger.transfer, comms_owned hi]
  rfl

/-- A destroyed object frees its communicator. -/
theorem comms_destroy (hi : s.objects i = some object) : (s.destroy i object).comms =
    if object.comm.isSome then s.comms.release i else s.comms := by
  have howned : s.comms.owned i = object.comm := comms_owned hi
  have hfree : ((if !object.isEmpty then s.topoFree object.topo else s).holderDestroy object.comm).comms =
      if object.comm.isSome then { s.comms with freed := s.comms.freed ++ [object.comm] } else s.comms := by
    cases hempty : object.isEmpty <;> cases hcomm : object.comm <;> rfl
  rw [destroy, comms_setObject, hfree]
  cases hcomm : object.comm with
  | none =>
    have hsame : Function.update s.comms.owned i none = s.comms.owned := by
      rw [← hcomm, ← howned, Function.update_eq_self]
    exact congrArg (fun owned => { s.comms with owned := owned }) hsame
  | some c =>
    rw [hcomm] at howned
    simp only [Ledger.release, howned]
    rfl

/-- Every communicator has one owner or has been freed once. -/
theorem comms_sound (hs : s.comms.Sound) (h : s.next a = some s') : s'.comms.Sound := by
  cases a with
  | default i =>
    obtain ⟨hi, heq⟩ := Option.ite_none_right_eq_some.mp h
    cases heq
    rw [comms_setObject_of_none (comms_owned (Option.isNone_iff_eq_none.mp hi)) rfl]
    exact hs
  | construct i outcome =>
    obtain ⟨hi, heq⟩ := Option.ite_none_right_eq_some.mp h
    cases heq
    have hacquire := hs.acquire (comms_owned (Option.isNone_iff_eq_none.mp hi))
    rcases comms_construct (Option.isNone_iff_eq_none.mp hi) outcome with heq | heq | heq
    · exact heq ▸ hs
    · exact heq ▸ hacquire
    · exact heq ▸ hacquire.release (Function.update_self i _ _)
  | move i j =>
    obtain ⟨hj, h⟩ := Option.ite_none_right_eq_some.mp h
    obtain ⟨object, hi, rfl⟩ := Option.map_eq_some_iff.mp h
    rw [comms_moveConstruct hi]
    exact hs.transfer (comms_owned (Option.isNone_iff_eq_none.mp hj))
  | destroy i =>
    obtain ⟨object, hi, rfl⟩ := Option.map_eq_some_iff.mp h
    rw [comms_destroy hi]
    split
    next hcomm =>
      obtain ⟨c, hc⟩ := Option.isSome_iff_exists.mp hcomm
      exact hs.release ((comms_owned hi).trans hc)
    next => exact hs

/-- Every topology has one owner or has been freed once, and every object that is not empty has one. -/
structure Plainly (s : Handles) : Prop where
  sound : s.topos.Sound
  filled : ∀ i o, s.objects i = some o → o.isEmpty = false → o.topo.isSome

/-- Setting an object that has a topology or is empty, or none. -/
theorem Plainly.filled_setObject (hs : s.Plainly) (ho : ∀ x, o = some x → x.isEmpty = false → x.topo.isSome)
    (k : ℕ) (x : Object) (hk : (s.setObject i o).objects k = some x) : x.isEmpty = false → x.topo.isSome := by
  change Function.update s.objects i o k = some x at hk
  rw [Function.update_apply] at hk
  split at hk
  · exact ho x hk
  · exact hs.filled k x hk

/-- A destroyed object frees its topology. -/
theorem Plainly.topos_destroy (hs : s.Plainly) (hi : s.objects i = some object) :
    (s.destroy i object).topos.Sound := by
  have howned : s.topos.owned i = object.ownedTopo := topos_owned hi
  have hholder (s : Handles) : (s.holderDestroy object.comm).topos = s.topos := by
    rw [holderDestroy]
    split <;> rfl
  rw [destroy, topos_setObject, hholder]
  cases hempty : object.isEmpty with
  | true =>
    have hsame : Function.update s.topos.owned i none = s.topos.owned := by
      have hnone : object.ownedTopo = none := if_pos hempty
      rw [← hnone, ← howned, Function.update_eq_self]
    exact hsame.symm ▸ hs.sound
  | false =>
    obtain ⟨t, ht⟩ := Option.isSome_iff_exists.mp (hs.filled i object hi hempty)
    have htopo : object.ownedTopo = object.topo := if_neg (Bool.eq_false_iff.mp hempty)
    have hrelease := hs.sound.release (howned.trans (htopo.trans ht))
    rw [Ledger.release, howned, htopo] at hrelease
    exact hrelease

/-- A step that is no move construction and does not throw after `hwcart_init`. -/
theorem Plainly.next (hs : s.Plainly) (hplain : Plain s a) (h : s.next a = some s') : s'.Plainly := by
  cases a with
  | default i =>
    obtain ⟨hi, heq⟩ := Option.ite_none_right_eq_some.mp h
    cases heq
    constructor
    · rw [topos_setObject_of_none (topos_owned (Option.isNone_iff_eq_none.mp hi)) rfl]
      exact hs.sound
    · refine hs.filled_setObject fun x hx hempty => ?_
      cases hx
      cases hempty
  | construct i outcome =>
    obtain ⟨hi, heq⟩ := Option.ite_none_right_eq_some.mp h
    cases heq
    rcases hplain with rfl | rfl
    · exact hs
    · constructor
      · rw [construct, topos_setObject]
        exact hs.sound.acquire (topos_owned (Option.isNone_iff_eq_none.mp hi))
      · refine hs.filled_setObject fun x hx _ => ?_
        cases hx
        rfl
  | move i j => exact hplain.elim
  | destroy i =>
    obtain ⟨object, hi, rfl⟩ := Option.map_eq_some_iff.mp h
    constructor
    · exact hs.topos_destroy hi
    · have hobjects : (s.destroy i object).objects = (s.setObject i none).objects := by
        simp only [destroy, setObject, holderDestroy]
        cases object.comm <;> cases object.isEmpty <;> rfl
      rw [hobjects]
      refine hs.filled_setObject fun x hx _ => ?_
      cases hx

/-- Objects that own their topologies. -/
theorem Plainly.toposOwned (hs : s.Plainly) : s.ToposOwned where
  live i o hi hempty := by
    obtain ⟨t, ht⟩ := Option.isSome_iff_exists.mp (hs.filled i o hi hempty)
    have htopo : o.ownedTopo = o.topo := if_neg (Bool.eq_false_iff.mp hempty)
    exact ⟨t, ht, hs.sound.not_freed i t ((topos_owned hi).trans (htopo.trans ht))⟩
  freed := hs.sound.of_freed
  gone hnone _ ht := hs.sound.count_freed (fun i => topos_owned (hnone i)) ht

/-- Holders that own their communicators. -/
theorem commsOwned_of_sound (hs : s.comms.Sound) : s.CommsOwned where
  live i _ hi c hc := hs.not_freed i c ((comms_owned hi).trans hc)
  freed := hs.of_freed
  gone hnone _ hc := hs.count_freed (fun i => comms_owned (hnone i)) hc

end Ledgers

end Handles

/-- In all runs the communicators are owned by live objects until they are freed once. In the runs without
move constructions and without constructions that throw after `hwcart_init`, so are the topologies. -/
theorem handles_owned_once (s : Handles) :
    (Reachable (· = Handles.init) (Steps Handles.next) s → s.CommsOwned) ∧
    (Reachable (· = Handles.init) (StepsWhen Handles.Plain Handles.next) s →
      s.ToposOwned ∧ s.CommsOwned) := by
  have hcomms (hs : Reachable (· = Handles.init) (Steps Handles.next) s) : s.CommsOwned := by
    have hinit : ∀ s, s = Handles.init → s.comms.Sound := by
      rintro _ rfl
      exact Ledger.sound_empty
    have hstep : ∀ s s', s.comms.Sound → Steps Handles.next s s' → s'.comms.Sound := by
      rintro s s' hs ⟨a, ha⟩
      exact Handles.comms_sound hs ha
    exact Handles.commsOwned_of_sound (hs.invariant hinit hstep)
  refine ⟨hcomms, fun hs => ⟨?_, hcomms (hs.mono fun _ _ h => h.steps)⟩⟩
  apply Handles.Plainly.toposOwned
  refine hs.invariant ?_ ?_
  · rintro _ rfl
    exact ⟨Ledger.sound_empty, fun i o hi => by cases hi⟩
  · rintro s s' hs ⟨a, hplain, ha⟩
    exact hs.next hplain ha

/-- An object is constructed and destroyed, and a construction fails at `hwcart_init`. -/
theorem handles_owned_once_run : ∃ s, Reachable (· = Handles.init) (StepsWhen Handles.Plain Handles.next) s ∧
    s.numTopos = 1 ∧ s.freedTopos.count (some 0) = 1 := by
  have hstart : Reachable (· = Handles.init) (StepsWhen Handles.Plain Handles.next) .init := .initial rfl
  have hconstructed := hstart.tail ⟨.construct 0 .constructed, Or.inr rfl, rfl⟩
  have hfailed := hconstructed.tail ⟨.construct 1 .initFails, Or.inl rfl, rfl⟩
  have hdestroyed := hfailed.tail ⟨.destroy 0, trivial, rfl⟩
  refine ⟨_, hdestroyed, rfl, ((handles_owned_once _).2 hdestroyed).1.gone ?_ 0 (by decide)⟩
  intro i
  change Function.update (Function.update (fun _ => none) 0 _) 0 none i = none
  rw [Function.update_idem, Function.update_apply]
  split <;> rfl

/-- A moved object and the object that it is moved to have a topology that has been freed, and a topology is
not freed when `hwcart_create` fails. -/
theorem topos_not_owned :
    (∃ s, runActions Handles.next .init [.construct 0 .constructed, .move 0 1] = some s ∧ ¬ s.ToposOwned) ∧
    ∃ s, runActions Handles.next .init [.construct 0 .createFails] = some s ∧ ¬ s.ToposOwned := by
  constructor
  · refine ⟨_, rfl, fun h => ?_⟩
    obtain ⟨t, ht, hfreed⟩ := h.live 1 _ rfl rfl
    cases ht
    exact hfreed List.mem_cons_self
  · refine ⟨_, rfl, fun h => ?_⟩
    exact absurd (h.gone (fun _ => rfl) 0 (by decide)) (by decide)

end Ghexbench.Topo
