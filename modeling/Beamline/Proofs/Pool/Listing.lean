import Mathlib.Data.List.Nodup
import Mathlib.Data.List.Perm.Basic
import Beamline.Pool.Lemmas

/-!
# Pools as lists

The values of a pool with their handles, slot by slot. Each occupied slot gives one entry, and the
vacant slots are those that are listed as such.

* `mem_toList`: the list holds what the handles lead to.
* `pairwise_toList`: the list goes up from slot to slot, so that no handle occurs twice.
* `length_toList`: the size of a pool counts its values.
* `length_le_size`: distinct handles with values behind them are no more than the size.
-/

namespace Beamline.Pool

variable {α : Type} {p : Pool α} {h : Handle} {value : α} {i : Nat}

/-- A value lies in the slot. -/
def Occupied (p : Pool α) (i : Nat) : Prop :=
  ∃ h : Handle, h.index = i ∧ p.contains h = true

/-- The list holds what the handles lead to. -/
theorem mem_toList : (h, value) ∈ p.toList ↔ p.get? h = some value := by
  rw [get?_eq_some_iff, toList, List.mem_filterMap]
  constructor
  · rintro ⟨⟨slot, index⟩, hslot, heq⟩
    rw [List.mk_mem_zipIdx_iff_getElem?, Array.getElem?_toList] at hslot
    obtain ⟨content, hcontent, heq⟩ := Option.map_eq_some_iff.1 heq
    cases heq
    rw [hslot, ← hcontent]
  · intro hslot
    refine ⟨(⟨h.generation, some value⟩, h.index), ?_, rfl⟩
    rwa [List.mk_mem_zipIdx_iff_getElem?, Array.getElem?_toList]

/-- The list goes up from slot to slot. -/
theorem pairwise_toList (p : Pool α) : p.toList.Pairwise fun a b => a.1.index < b.1.index := by
  have hindices : p.slots.toList.zipIdx.Pairwise fun a b => a.2 < b.2 := by
    have := List.pairwise_lt_range' (s := 0) (n := p.slots.toList.length)
    rwa [← List.zipIdx_map_snd 0 p.slots.toList, List.pairwise_map] at this
  refine List.Pairwise.filterMap _ ?_ hindices
  intro a b hlt x hx y hy
  obtain ⟨_, -, rfl⟩ := Option.map_eq_some_iff.1 hx
  obtain ⟨_, -, rfl⟩ := Option.map_eq_some_iff.1 hy
  exact hlt

/-- No handle occurs twice. -/
theorem nodup_handles_toList (p : Pool α) : (p.toList.map Prod.fst).Nodup :=
  List.pairwise_map.2 <| p.pairwise_toList.imp fun hlt heq =>
    Nat.ne_of_lt hlt (congrArg Handle.index heq)

theorem nodup_toList (p : Pool α) : p.toList.Nodup :=
  p.nodup_handles_toList.of_map _

theorem occupied_iff : p.Occupied i ↔ ∃ entry ∈ p.toList, entry.1.index = i := by
  constructor
  · rintro ⟨h, hi, hh⟩
    obtain ⟨value, hvalue⟩ := Option.isSome_iff_exists.1 hh
    exact ⟨(h, value), mem_toList.2 hvalue, hi⟩
  · rintro ⟨⟨h, value⟩, hmem, hi⟩
    exact ⟨h, hi, Option.isSome_iff_exists.2 ⟨value, mem_toList.1 hmem⟩⟩

/-- A slot is occupied exactly if it has a value, whatever its generation. -/
theorem occupied_iff_exists_slot :
    p.Occupied i ↔ ∃ generation value, p.slots[i]? = some ⟨generation, some value⟩ := by
  constructor
  · rintro ⟨h, rfl, hh⟩
    obtain ⟨value, hvalue⟩ := Option.isSome_iff_exists.1 hh
    exact ⟨h.generation, value, get?_eq_some_iff.1 hvalue⟩
  · rintro ⟨generation, value, hslot⟩
    have hvalue : p.get? ⟨i, generation⟩ = some value := get?_eq_some_iff.2 hslot
    exact ⟨⟨i, generation⟩, rfl, Option.isSome_iff_exists.2 ⟨value, hvalue⟩⟩

/-- The slots that are listed as vacant are those that exist and are not occupied. -/
theorem mem_vacant_iff_not_occupied : i ∈ p.vacant ↔ i < p.slotCount ∧ ¬ p.Occupied i := by
  rw [p.mem_vacant_iff, occupied_iff_exists_slot, slotCount]
  cases hslot : p.slots[i]? with
  | none =>
    rw [Array.getElem?_eq_none_iff] at hslot
    simp [hslot]
  | some slot =>
    obtain ⟨generation, content⟩ := slot
    have hlt := (Array.getElem?_eq_some_iff.1 hslot).1
    cases content <;> simp [hlt]

/-- The size of a pool, counted as values come and go, is the number of its values. -/
@[simp]
theorem length_toList (p : Pool α) : p.toList.length = p.size := by
  let occupied := p.toList.map fun entry => entry.1.index
  have hnodup : occupied.Nodup := List.pairwise_map.2 (p.pairwise_toList.imp Nat.ne_of_lt)
  have hmem (i : Nat) : i ∈ occupied ↔ p.Occupied i := by
    rw [occupied_iff]
    exact List.mem_map
  -- each slot is either occupied or vacant
  have hslots : (occupied ++ p.vacant).Perm (List.range p.slotCount) := by
    refine (List.perm_ext_iff_of_nodup ?_ List.nodup_range).2 fun i => ?_
    · refine List.nodup_append.2 ⟨hnodup, p.nodup_vacant, ?_⟩
      rintro i hi _ hv rfl
      exact (mem_vacant_iff_not_occupied.1 hv).2 ((hmem i).1 hi)
    · rw [List.mem_append, hmem, mem_vacant_iff_not_occupied, List.mem_range]
      have hlt (hoccupied : p.Occupied i) : i < p.slotCount := by
        obtain ⟨_, _, hslot⟩ := occupied_iff_exists_slot.1 hoccupied
        exact (Array.getElem?_eq_some_iff.1 hslot).1
      tauto
  have hlength := hslots.length_eq
  have hcount := p.size_add_vacant
  rw [List.length_append, List.length_map, List.length_range, slotCount] at hlength
  omega

/-- Distinct handles with values behind them are no more than the size. -/
theorem length_le_size {handles : List Handle} (hnodup : handles.Nodup)
    (hlive : ∀ h ∈ handles, p.contains h = true) : handles.length ≤ p.size := by
  have hsub : handles ⊆ p.toList.map Prod.fst := fun h hh => by
    obtain ⟨value, hvalue⟩ := Option.isSome_iff_exists.1 (hlive h hh)
    exact List.mem_map.2 ⟨(h, value), mem_toList.2 hvalue, rfl⟩
  simpa using hnodup.length_le_of_subset hsub

end Beamline.Pool
