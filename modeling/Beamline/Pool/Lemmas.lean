import Beamline.Pool.Basic

/-!
# Pools as finite maps

What the operations of a pool do to the view `Pool.get?`.

* `get?_insert`: an insertion changes the view at the handle it returns and nowhere else;
  `get?_fst_insert` says that this handle was not in use.
* `get?_erase`: freeing the slot of a handle changes the view there and nowhere else;
  `remove?_eq_none_iff` and `get?_of_remove?` say the same of a removal, which succeeds exactly on
  a handle with a value behind it.
* `get?_modify`: a change in place keeps all other values.
* `size_insert`, `size_erase_of_get?`: the count goes up and down by one.
-/

namespace Beamline.Pool

variable {α : Type}

@[simp]
theorem get?_empty (h : Handle) : (empty : Pool α).get? h = none := by
  simp [get?, empty]

@[simp]
theorem size_empty : (empty : Pool α).size = 0 :=
  rfl

/-! ## Insertion -/

theorem insert_of_vacant_nil {p : Pool α} (hv : p.vacant = []) (value : α) :
    (p.insert value).1 = ⟨p.slots.size, 0⟩ ∧
      (p.insert value).2.slots = p.slots.push ⟨0, some value⟩ ∧ (p.insert value).2.vacant = [] := by
  unfold insert
  split <;> simp_all

theorem insert_of_vacant_cons {p : Pool α} {i : Nat} {rest : List Nat} (hv : p.vacant = i :: rest)
    (value : α) :
    (p.insert value).1 = ⟨i, (p.slots[i]?.map Slot.generation).getD 0⟩ ∧
      (p.insert value).2.slots = p.slots.modify i (fun slot => { slot with value := some value }) ∧
      (p.insert value).2.vacant = rest := by
  unfold insert
  split <;> simp_all

/-- The slot at the head of the vacant ones. -/
theorem exists_slot_of_vacant_cons {p : Pool α} {i : Nat} {rest : List Nat}
    (hv : p.vacant = i :: rest) : ∃ generation, p.slots[i]? = some ⟨generation, none⟩ := by
  have := (p.mem_vacant_iff i).1 (by simp [hv])
  rw [Option.map_eq_some_iff] at this
  obtain ⟨⟨generation, content⟩, hs, rfl⟩ := this
  exact ⟨generation, hs⟩

/-- The handle of an insertion was not in use. -/
@[simp]
theorem get?_fst_insert (value : α) (p : Pool α) : p.get? (p.insert value).1 = none := by
  cases hv : p.vacant with
  | nil => simp [insert_of_vacant_nil hv, get?]
  | cons i rest =>
    obtain ⟨generation, hs⟩ := exists_slot_of_vacant_cons hv
    simp [insert_of_vacant_cons hv, get?, hs]

/-- An insertion changes the view at the handle it returns only. -/
theorem get?_insert (value : α) (p : Pool α) (h : Handle) :
    (p.insert value).2.get? h = if h = (p.insert value).1 then some value else p.get? h := by
  obtain ⟨index, generation⟩ := h
  cases hv : p.vacant with
  | nil =>
    obtain ⟨hh, hslots, _⟩ := insert_of_vacant_nil hv value
    simp only [get?, hh, hslots, Array.getElem?_push, Handle.mk.injEq]
    -- the new slot is the one past the end
    by_cases hi : index = p.slots.size
    · by_cases hg : generation = 0 <;> simp [hi, hg, Ne.symm]
    · simp [hi]
  | cons i rest =>
    obtain ⟨hh, hslots, _⟩ := insert_of_vacant_cons hv value
    obtain ⟨current, hs⟩ := exists_slot_of_vacant_cons hv
    simp only [get?, hh, hslots, Array.getElem?_modify, Handle.mk.injEq]
    -- the slot taken over keeps its generation
    by_cases hi : i = index
    · subst hi
      by_cases hg : current = generation <;> simp [hs, hg]
      exact fun h => hg h.symm
    · simp [hi, Ne.symm hi]

@[simp]
theorem get?_insert_self (value : α) (p : Pool α) :
    (p.insert value).2.get? (p.insert value).1 = some value := by
  simp [get?_insert]

theorem get?_insert_of_get? {value : α} {p : Pool α} {h : Handle} {old : α}
    (hp : p.get? h = some old) : (p.insert value).2.get? h = some old := by
  rw [get?_insert, if_neg, hp]
  rintro rfl
  simp at hp

@[simp]
theorem size_insert (value : α) (p : Pool α) : (p.insert value).2.size = p.size + 1 := by
  unfold insert
  split <;> rfl

/-! ## Removal -/

theorem erase_of_get? {p : Pool α} {h : Handle} {value : α} (hg : p.get? h = some value) :
    (p.erase h).slots = p.slots.setIfInBounds h.index ⟨h.generation + 1, none⟩ ∧
      (p.erase h).vacant = h.index :: p.vacant := by
  simp [erase, contains, hg]

theorem erase_of_get?_eq_none {p : Pool α} {h : Handle} (hg : p.get? h = none) :
    p.erase h = p := by
  simp [erase, contains, hg]

/-- Freeing the slot of a handle changes the view there only. -/
theorem get?_erase (h : Handle) (p : Pool α) (k : Handle) :
    (p.erase h).get? k = if k = h then none else p.get? k := by
  cases hg : p.get? h with
  | none =>
    rw [erase_of_get?_eq_none hg]
    split
    · simp_all
    · rfl
  | some value =>
    obtain ⟨hslots, _⟩ := erase_of_get? hg
    obtain ⟨index, generation⟩ := h
    obtain ⟨j, other⟩ := k
    have hs := get?_eq_some_iff.1 hg
    obtain ⟨hlt, hat⟩ := Array.getElem?_eq_some_iff.1 hs
    simp only [get?, hslots, Array.getElem?_setIfInBounds, Handle.mk.injEq] at hlt hat ⊢
    by_cases hj : index = j
    · subst hj
      -- the freed slot has moved on to the next generation
      by_cases ho : other = generation
      · simp [hlt, ho]
      · simpa [hlt, ho, hat] using fun h : generation = other => ho h.symm
    · simp [hj, Ne.symm hj]

theorem size_erase_of_get? {p : Pool α} {h : Handle} {value : α} (hg : p.get? h = some value) :
    (p.erase h).size + 1 = p.size := by
  have hc : p.contains h := Option.isSome_iff_exists.2 ⟨value, hg⟩
  unfold erase
  rw [dif_pos hc]
  exact Nat.sub_add_cancel (size_pos_of_contains hc)

/-- A removal succeeds exactly when a value lies behind the handle. -/
@[simp]
theorem remove?_eq_none_iff {p : Pool α} {h : Handle} :
    p.remove? h = none ↔ p.get? h = none := by
  simp [remove?]

theorem remove?_eq_some_iff {p q : Pool α} {h : Handle} {value : α} :
    p.remove? h = some (value, q) ↔ p.get? h = some value ∧ p.erase h = q := by
  cases hg : p.get? h <;> simp [remove?, hg]

/-- What a removal returns and leaves. -/
theorem get?_of_remove? {p q : Pool α} {h : Handle} {value : α}
    (hr : p.remove? h = some (value, q)) :
    p.get? h = some value ∧ ∀ k, q.get? k = if k = h then none else p.get? k := by
  obtain ⟨hg, rfl⟩ := remove?_eq_some_iff.1 hr
  exact ⟨hg, get?_erase h p⟩

theorem size_of_remove? {p q : Pool α} {h : Handle} {value : α}
    (hr : p.remove? h = some (value, q)) : q.size + 1 = p.size := by
  obtain ⟨hg, rfl⟩ := remove?_eq_some_iff.1 hr
  exact size_erase_of_get? hg

/-! ## Change in place -/

/-- A change in place changes the view at its handle only. -/
theorem get?_modify (h : Handle) (f : α → α) (p : Pool α) (k : Handle) :
    (p.modify h f).get? k = if k = h then (p.get? h).map f else p.get? k := by
  obtain ⟨index, generation⟩ := h
  obtain ⟨j, other⟩ := k
  simp only [get?, modify, Array.getElem?_modify, Handle.mk.injEq]
  by_cases hj : index = j
  · subst hj
    cases p.slots[index]? with
    | none => simp
    | some slot =>
      by_cases hg : slot.generation = generation <;> by_cases ho : other = generation <;>
        simp_all [Ne.symm]
  · simp [hj, Ne.symm hj]

@[simp]
theorem size_modify (h : Handle) (f : α → α) (p : Pool α) : (p.modify h f).size = p.size :=
  rfl

end Beamline.Pool
