import Ghexbench.Cartex.Pack

/-!
# The contents of the fields

`make_fields` gives every cell of the global domain and every field a value of its own: the number of
the cell, with the field as the last digit. `check` compares the whole extended buffer of a thread
with these values, region by region: the domain itself and its 26 neighbours. Values are exact
integers here.
-/

namespace Ghexbench.Cartex

open Ghexbench.Common

/-- The value for a cell of the global domain and a field, given `last_domain_coord`. -/
def cellValue (lastDomainCoord : Arr ℤ) (numFields i : ℕ) (x : Arr ℤ) : ℤ :=
  (x 0 + (lastDomainCoord 0 + 1) * (x 1 + (lastDomainCoord 1 + 1) * x 2)) * numFields + i

/-- The index of an element of a `memory_view`. -/
def viewIndex (dims c : Arr ℕ) : ℕ := c 0 + c 1 * dims 0 + c 2 * (dims 0 * dims 1)

/-- Views have the first dimension running fastest. -/
theorem viewIndex_eq (dims c : Arr ℕ) : viewIndex dims c = index dims c := by
  rw [viewIndex, index]
  ring

section Regions

/-- `ext_x`, `ext_y` and `ext_z` in `check`. -/
def regionExt (offset : ℤ) (haloLeft domainExt haloRight : ℕ) : ℕ :=
  if offset < 0 then haloLeft else if offset = 0 then domainExt else haloRight

/-- `first_x`, `first_y` and `first_z` in `check`. -/
def regionFirst (offset : ℤ) (haloLeft domainExt : ℕ) : ℕ :=
  if offset < 0 then 0 else if offset = 0 then haloLeft else haloLeft + domainExt

/-- `first_xn`, `first_yn` and `first_zn` in `check`. -/
def regionFirstN (offset : ℤ) (neighborExt haloLeft : ℕ) : ℤ :=
  if offset < 0 then (neighborExt : ℤ) - haloLeft else 0

/-- The offsets of neighbours in a dimension. -/
def neighborOffsets : List ℤ := [-1, 0, 1]

end Regions

namespace Setup

variable (su : Setup)

/-- The field `i` of thread `q`, as `make_fields` leaves it. -/
def makeField (q : ℕ × ℕ) (i : ℕ) : ℕ → ℤ :=
  let dec := su.decomposition q.1
  let dom := dec.domain q.2
  let dims : Arr ℕ := ![dom.domainExt 0 + su.halos 0 + su.halos 1,
    dom.domainExt 1 + su.halos 2 + su.halos 3, dom.domainExt 2 + su.halos 4 + su.halos 5]
  forRange (dom.domainExt 2) (fun z => forRange (dom.domainExt 1) fun y =>
    forRange (dom.domainExt 0) fun x v =>
      Function.update v (viewIndex dims ![x + su.halos 0, y + su.halos 2, z + su.halos 4])
        (cellValue dec.lastDomainCoord su.numFields i
          ![dom.domainCoord 0 + x, dom.domainCoord 1 + y, dom.domainCoord 2 + z]))
    fun _ => 0

/-- `check` for thread `q`, with the given contents of its fields. -/
def check (q : ℕ × ℕ) (fields : ℕ → ℕ → ℤ) : Bool :=
  let dec := su.decomposition q.1
  let dom := dec.domain q.2
  let dims : Arr ℕ := ![dom.domainExt 0 + su.halos 0 + su.halos 1,
    dom.domainExt 1 + su.halos 2 + su.halos 3, dom.domainExt 2 + su.halos 4 + su.halos 5]
  -- the loops end with `return false` as soon as a value differs
  (List.range su.numFields).all fun i =>
    neighborOffsets.all fun zn => neighborOffsets.all fun yn => neighborOffsets.all fun xn =>
      let n := dec.neighbor q.2 ![xn, yn, zn]
      let extZ := regionExt zn (su.halos 4) (dom.domainExt 2) (su.halos 5)
      let firstZ := regionFirst zn (su.halos 4) (dom.domainExt 2)
      let firstZn := regionFirstN zn (n.domainExt 2) (su.halos 4)
      let extY := regionExt yn (su.halos 2) (dom.domainExt 1) (su.halos 3)
      let firstY := regionFirst yn (su.halos 2) (dom.domainExt 1)
      let firstYn := regionFirstN yn (n.domainExt 1) (su.halos 2)
      let extX := regionExt xn (su.halos 0) (dom.domainExt 0) (su.halos 1)
      let firstX := regionFirst xn (su.halos 0) (dom.domainExt 0)
      let firstXn := regionFirstN xn (n.domainExt 0) (su.halos 0)
      (List.range extZ).all fun kk => (List.range extY).all fun jj => (List.range extX).all fun ii =>
        let expected := cellValue dec.lastDomainCoord su.numFields i
          ![n.domainCoord 0 + firstXn + ii, n.domainCoord 1 + firstYn + jj,
            n.domainCoord 2 + firstZn + kk]
        fields i (viewIndex dims ![firstX + ii, firstY + jj, firstZ + kk]) == expected

end Setup

end Ghexbench.Cartex
