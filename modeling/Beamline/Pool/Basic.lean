/-!
# Pools

A pool keeps values in numbered slots and hands out a handle for each. A slot whose value was
removed is used again, the one freed last before all others, and its generation goes up by one
whenever it is freed. A handle names a slot and a generation, so that a handle kept beyond the
removal of its value is told from the handle of the value that took the slot over. Generations
are 32-bit words and start again at zero after the greatest. How many values the pool has is counted
as they come and go.

The view of a pool is `Pool.get?`; `Pool.Lemmas` says what each operation does to it.
-/

namespace Beamline

/-- A reference to a value in a pool. -/
structure Handle where
  /-- The slot. -/
  index : Nat
  /-- The generation of the slot when the handle was issued. -/
  generation : UInt32
  deriving DecidableEq

/-- The text by which messages refer to a handle. -/
def Handle.label (h : Handle) : String :=
  s!"{h.index}v{h.generation}"

/-- A place for one value. -/
structure Slot (α : Type) where
  /-- How often the slot has been freed. -/
  generation : UInt32
  /-- The value, unless the slot is vacant. -/
  value : Option α

/-- Numbered slots, of which the vacant ones are listed and the others are counted. -/
structure Pool (α : Type) where
  /-- The slots, by number. -/
  slots : Array (Slot α)
  /-- The vacant slots, the one freed last first. -/
  vacant : List Nat
  /-- The number of values, counted as they come and go. -/
  size : Nat
  /-- No slot is listed twice. -/
  nodup_vacant : vacant.Nodup
  /-- Exactly the slots without a value are listed. -/
  mem_vacant_iff : ∀ i, i ∈ vacant ↔ slots[i]?.map Slot.value = some none
  /-- The slots that are not vacant are counted. -/
  size_add_vacant : size + vacant.length = slots.size

namespace Pool

variable {α : Type}

/-- The pool without slots. -/
def empty : Pool α where
  slots := #[]
  vacant := []
  size := 0
  nodup_vacant := .nil
  mem_vacant_iff := by simp
  size_add_vacant := rfl

instance : Inhabited (Pool α) :=
  ⟨empty⟩

/-- The value behind a handle; `none` if the handle is stale. -/
def get? (p : Pool α) (h : Handle) : Option α :=
  match p.slots[h.index]? with
  | some slot => if slot.generation = h.generation then slot.value else none
  | none => none

/-- Whether a value lies behind the handle. -/
def contains (p : Pool α) (h : Handle) : Bool :=
  (p.get? h).isSome

/-- The number of slots, with and without a value. -/
def slotCount (p : Pool α) : Nat :=
  p.slots.size

/-- Stores `value` in the slot freed last, or in a new one if no slot is vacant. -/
def insert (value : α) (p : Pool α) : Handle × Pool α :=
  match hv : p.vacant with
  | [] =>
    ({ index := p.slots.size, generation := 0 },
      { slots := p.slots.push { generation := 0, value := some value }
        vacant := []
        size := p.size + 1
        nodup_vacant := .nil
        mem_vacant_iff := fun i => by
          have := p.mem_vacant_iff i
          simp only [hv, List.not_mem_nil, false_iff] at this
          simp only [List.not_mem_nil, Array.getElem?_push, false_iff]
          split <;> simp_all
        size_add_vacant := by
          have hcount := p.size_add_vacant
          rw [hv] at hcount
          rw [Array.size_push, ← hcount]
          rfl })
  | i :: rest =>
    ({ index := i, generation := (p.slots[i]?.map Slot.generation).getD 0 },
      { slots := p.slots.modify i fun slot => { slot with value := some value }
        vacant := rest
        size := p.size + 1
        nodup_vacant := (List.nodup_cons.1 (hv ▸ p.nodup_vacant)).2
        mem_vacant_iff := fun j => by
          have hj := p.mem_vacant_iff j
          have hi := (List.nodup_cons.1 (hv ▸ p.nodup_vacant)).1
          rw [hv, List.mem_cons] at hj
          rw [Array.getElem?_modify]
          split
          · rename_i h
            subst h
            simp only [hi, false_iff]
            cases p.slots[i]? <;> simp
          · rename_i h
            simp [← hj, Ne.symm h]
        size_add_vacant := by
          have hcount := p.size_add_vacant
          rw [hv, List.length_cons] at hcount
          rw [Array.size_modify]
          omega })

theorem get?_eq_some_iff {p : Pool α} {h : Handle} {value : α} :
    p.get? h = some value ↔ p.slots[h.index]? = some ⟨h.generation, some value⟩ := by
  unfold get?
  split
  · rename_i slot hs
    obtain ⟨generation, content⟩ := slot
    split <;> simp_all
  · simp_all

theorem not_mem_vacant_of_contains {p : Pool α} {h : Handle} (hc : p.contains h) :
    h.index ∉ p.vacant := by
  obtain ⟨value, hget⟩ := Option.isSome_iff_exists.1 hc
  intro hmem
  simpa [get?_eq_some_iff.1 hget] using (p.mem_vacant_iff _).1 hmem

/-- Vacant slots exist. -/
theorem lt_of_mem_vacant {p : Pool α} {i : Nat} (h : i ∈ p.vacant) : i < p.slots.size := by
  have := (p.mem_vacant_iff i).1 h
  rw [Option.map_eq_some_iff] at this
  obtain ⟨slot, hs, _⟩ := this
  exact (Array.getElem?_eq_some_iff.1 hs).1

/-- The count does not go below zero: where a value is taken out, one was counted. -/
theorem size_pos_of_contains {p : Pool α} {h : Handle} (hc : p.contains h) : 0 < p.size := by
  obtain ⟨value, hget⟩ := Option.isSome_iff_exists.1 hc
  have hlt := (Array.getElem?_eq_some_iff.1 (get?_eq_some_iff.1 hget)).1
  -- the slot of the value and the vacant ones are different slots
  have hnodup : (h.index :: p.vacant).Nodup :=
    List.nodup_cons.2 ⟨not_mem_vacant_of_contains hc, p.nodup_vacant⟩
  have hsub : h.index :: p.vacant ⊆ List.range p.slots.size := fun i hi =>
    List.mem_range.2 <| (List.mem_cons.1 hi).elim (fun heq => heq ▸ hlt) lt_of_mem_vacant
  have hle := hnodup.length_le_of_subset hsub
  have hcount := p.size_add_vacant
  rw [List.length_cons, List.length_range] at hle
  omega

/-- Frees the slot of the value behind a handle. A stale handle changes nothing. -/
def erase (h : Handle) (p : Pool α) : Pool α :=
  if hc : p.contains h then
    { slots := p.slots.setIfInBounds h.index { generation := h.generation + 1, value := none }
      vacant := h.index :: p.vacant
      size := p.size - 1
      nodup_vacant := List.nodup_cons.2 ⟨not_mem_vacant_of_contains hc, p.nodup_vacant⟩
      mem_vacant_iff := fun j => by
        obtain ⟨value, hget⟩ := Option.isSome_iff_exists.1 hc
        have hlt := (Array.getElem?_eq_some_iff.1 (get?_eq_some_iff.1 hget)).1
        rw [List.mem_cons, p.mem_vacant_iff, Array.getElem?_setIfInBounds]
        split
        · rename_i hj
          simp [← hj, hlt]
        · rename_i hj
          simp [Ne.symm hj]
      size_add_vacant := by
        have hpos := size_pos_of_contains hc
        have hcount := p.size_add_vacant
        rw [Array.size_setIfInBounds, List.length_cons]
        omega }
  else
    p

/-- Takes the value behind a handle out of the pool and frees its slot. -/
def remove? (h : Handle) (p : Pool α) : Option (α × Pool α) :=
  (p.get? h).map fun value => (value, p.erase h)

/-- Changes the value behind a handle in place. A stale handle changes nothing. -/
def modify (h : Handle) (f : α → α) (p : Pool α) : Pool α where
  slots := p.slots.modify h.index fun slot =>
    if slot.generation = h.generation then { slot with value := slot.value.map f } else slot
  vacant := p.vacant
  size := p.size
  nodup_vacant := p.nodup_vacant
  mem_vacant_iff i := by
    rw [p.mem_vacant_iff, Array.getElem?_modify]
    split
    · rename_i h
      subst h
      cases p.slots[h.index]? with
      | none => simp
      | some slot =>
        simp only [Option.map_some, Option.some.injEq]
        split <;> simp
    · rfl
  size_add_vacant := by
    rw [Array.size_modify]
    exact p.size_add_vacant

/-- The values with their handles, in the order of the slots. -/
def toList (p : Pool α) : List (Handle × α) :=
  p.slots.toList.zipIdx.filterMap fun (slot, index) =>
    slot.value.map fun value => ({ index, generation := slot.generation }, value)

end Pool

end Beamline
