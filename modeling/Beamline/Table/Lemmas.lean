import Beamline.Table.Basic

/-!
# Tables as finite maps

What the operations of a table do to the view `Table.get?`.

* `get?_put`: storing a record changes the view at its name only.
* `get?_of_take?`: taking a record out changes the view at its name only;
  `take?_eq_none_iff` says that this fails exactly where there is no record.
* `isSome_get?`: a name is listed exactly if it has a record.
* `get?_setPos`: a change of position changes the view at its name only.
-/

namespace Beamline.Table

open Source (Position)
open Beamline.Expr (Forest)

variable {α : Type} [Record α]

@[simp]
theorem get?_empty (name : Name) : (empty : Table α).get? name = none :=
  rfl

@[simp]
theorem size_empty : (empty : Table α).size = 0 :=
  rfl

/-! ## Names and records -/

/-- A listed name has a record, and the record has that name. -/
theorem exists_get?_of_find? {t : Table α} {name : Name} {key : Key}
    (h : find? t.index name = some key) :
    ∃ record, t.records.get? key.handle = some record ∧ t.get? name = some record ∧
      Record.name record = name := by
  obtain ⟨record, hrecord, hname⟩ := t.coherent.get?_handle _ (mem_of_find? h)
  exact ⟨record, hrecord, by simp [get?, h, hrecord], hname⟩

@[simp]
theorem isSome_get? (t : Table α) (name : Name) : (t.get? name).isSome = t.contains name := by
  cases h : find? t.index name with
  | none => simp [get?, contains, h]
  | some key =>
    obtain ⟨record, _, hget, _⟩ := exists_get?_of_find? h
    simp [hget, contains, h]

theorem get?_eq_none_iff {t : Table α} {name : Name} :
    t.get? name = none ↔ find? t.index name = none := by
  rw [← Option.not_isSome_iff_eq_none, ← Option.not_isSome_iff_eq_none, isSome_get?, contains]

theorem name_of_get? {t : Table α} {name : Name} {record : α} (h : t.get? name = some record) :
    Record.name record = name := by
  cases hf : find? t.index name with
  | none => simp [get?, hf] at h
  | some key =>
    obtain ⟨other, _, hget, hname⟩ := exists_get?_of_find? hf
    rw [hget] at h
    cases h
    exact hname

/-! ## Storing a record -/

/-- Storing a record under a free name changes the view there only. -/
theorem get?_put (record : α) (t : Table α) (h : find? t.index (Record.name record) = none)
    (name : Name) :
    (t.put record h).get? name =
      if name = Record.name record then some record else t.get? name := by
  simp only [get?, put, find?_cons]
  split
  · rename_i heq
    rw [if_pos heq.symm]
    simp
  · rename_i hne
    rw [if_neg (Ne.symm hne)]
    cases hf : find? t.index name with
    | none => rfl
    | some key =>
      obtain ⟨other, hother, _⟩ := exists_get?_of_find? hf
      simp only [Option.bind_some]
      rw [Pool.get?_insert_of_get? hother, hother]

@[simp]
theorem size_put (record : α) (t : Table α) (h : find? t.index (Record.name record) = none) :
    (t.put record h).size = t.size + 1 :=
  rfl

/-! ## Taking a record out -/

/-- Nothing can be taken out exactly where there is no record. -/
theorem take?_eq_none_iff {t : Table α} {name : Name} :
    t.take? name = none ↔ t.get? name = none := by
  rw [get?_eq_none_iff]
  constructor
  · exact find?_of_take?_eq_none
  · intro h
    unfold take?
    split
    · rfl
    · simp_all

/-- What is taken out was the record of the name, and all others stay. -/
theorem get?_of_take? {t fewer : Table α} {name : Name} {record : α}
    (h : t.take? name = some (record, fewer)) :
    t.get? name = some record ∧
      ∀ other, fewer.get? other = if other = name then none else t.get? other := by
  unfold take? at h
  split at h
  · cases h
  · rename_i key hkey
    split at h
    · cases h
    · rename_i removed records hremove
      obtain ⟨hget, hview⟩ := Pool.get?_of_remove? hremove
      simp only [Option.some.injEq, Prod.mk.injEq] at h
      obtain ⟨rfl, rfl⟩ := h
      refine ⟨by simp [get?, hkey, hget], fun other => ?_⟩
      simp only [get?, find?_without]
      split
      · rfl
      · rename_i hne
        cases hf : find? t.index other with
        | none => rfl
        | some otherKey =>
          simp only [Option.bind_some]
          rw [hview, if_neg]
          exact fun heq =>
            hne (t.coherent.name_inj (mem_of_find? hf) (mem_of_find? hkey) heq)

/-! ## Changing a position -/

/-- A change of position changes the record of its name only. -/
theorem get?_setPos (name : Name) (pos : Position) (t : Table α) (other : Name) :
    (t.setPos name pos).get? other =
      if other = name then (t.get? name).map (Record.withPos pos) else t.get? other := by
  unfold setPos
  split
  · rename_i hfind
    split
    · rename_i heq
      simp [heq, get?, hfind]
    · rfl
  · rename_i key hkey
    simp only [get?]
    cases hf : find? t.index other with
    | none =>
      split
      · rename_i heq
        rw [heq, hkey] at hf
        cases hf
      · rfl
    | some otherKey =>
      simp only [Option.bind_some, Pool.get?_modify]
      by_cases hne : other = name
      · subst hne
        rw [hkey] at hf
        cases hf
        simp [hkey]
      · rw [if_neg hne, if_neg]
        exact fun heq => hne (t.coherent.name_inj (mem_of_find? hf) (mem_of_find? hkey) heq)

end Beamline.Table
