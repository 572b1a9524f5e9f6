import Mathlib.Data.List.Nodup
import Beamline.Table.Lemmas

/-!
# Tables as lists

The records of a table as a list, newest first. Looking up a name searches the list; storing a
record puts it in front, and taking one out leaves out the record of its name.

* `get?_eq_find?`: a lookup finds the first record of the name.
* `mem_toList`: the list holds the records that lookups find.
* `toList_put`, `toList_of_take?`: what putting in and taking out do to the list;
  `toList_of_insert`, `toList_of_remove` say the same of storing and removing.
* `nodup_names_toList`: no name occurs twice.
-/

namespace Beamline.Table

open Beamline.Expr (Fault Forest)

variable {α : Type} [Record α]

/-- The records, newest first. -/
def toList (t : Table α) : List α :=
  t.index.filterMap fun entry => t.records.get? entry.2.handle

/-- In a coherent index the names of the records are the names listed. -/
theorem map_name_toList (t : Table α) : t.toList.map Record.name = t.index.map (·.1) := by
  have h := t.coherent.get?_handle
  unfold toList
  -- coherence is of the whole index; the induction needs it of the entries that are left
  generalize t.index = index at h
  induction index with
  | nil => rfl
  | cons entry index ih =>
    obtain ⟨record, hrecord, hname⟩ := h entry List.mem_cons_self
    simp only [List.filterMap_cons, hrecord, List.map_cons, hname]
    rw [ih fun other hmem => h other (List.mem_cons_of_mem _ hmem)]

/-- No name occurs twice. -/
theorem nodup_names_toList (t : Table α) : (t.toList.map Record.name).Nodup := by
  rw [map_name_toList]
  exact t.coherent.nodup_names

@[simp]
theorem length_toList (t : Table α) : t.toList.length = t.size := by
  rw [← List.length_map Record.name, map_name_toList, List.length_map, size]

/-- A lookup finds the first record of the name. -/
theorem get?_eq_find? (t : Table α) (name : Name) :
    t.get? name = t.toList.find? fun record => Record.name record = name := by
  have h := t.coherent.get?_handle
  unfold get? toList
  generalize t.index = index at h
  induction index with
  | nil => rfl
  | cons entry index ih =>
    obtain ⟨record, hrecord, hname⟩ := h entry List.mem_cons_self
    simp only [List.filterMap_cons, hrecord, List.find?_cons, find?_cons, hname]
    by_cases heq : entry.1 = name
    · -- the entry sought: its handle leads to its record
      simp [heq, hrecord]
    · simp only [heq, if_false, decide_false]
      exact ih fun other hmem => h other (List.mem_cons_of_mem _ hmem)

theorem mem_toList_of_get? {t : Table α} {name : Name} {record : α}
    (h : t.get? name = some record) : record ∈ t.toList := by
  rw [get?_eq_find?] at h
  exact List.mem_of_find?_eq_some h

/-- The records are those that lookups find. -/
theorem mem_toList {t : Table α} {record : α} :
    record ∈ t.toList ↔ t.get? (Record.name record) = some record := by
  refine ⟨fun h => ?_, mem_toList_of_get?⟩
  rw [get?_eq_find?]
  cases hfind : t.toList.find? fun other => Record.name other = Record.name record with
  | none => simpa using List.find?_eq_none.1 hfind record h
  | some other =>
    -- what is found has the name of the record, which no other record has
    have hname := List.find?_some hfind
    rw [decide_eq_true_eq] at hname
    rw [List.inj_on_of_nodup_map t.nodup_names_toList (List.mem_of_find?_eq_some hfind) h hname]

/-- A record that is stored comes first. -/
theorem toList_put (record : α) (t : Table α) (h : find? t.index (Record.name record) = none) :
    (t.put record h).toList = record :: t.toList := by
  -- the records that were there stay behind their handles
  have hput : ∀ entry ∈ t.index, (t.records.insert record).2.get? entry.2.handle =
      t.records.get? entry.2.handle := by
    intro entry hmem
    obtain ⟨old, hold, _⟩ := t.coherent.get?_handle entry hmem
    rw [Pool.get?_insert_of_get? hold, hold]
  change List.filterMap (fun entry => (t.records.insert record).2.get? entry.2.handle)
    ((Record.name record, ⟨(t.records.insert record).1, t.count⟩) :: t.index) = _
  simp only [List.filterMap_cons, Pool.get?_insert_self]
  congr 1
  exact List.filterMap_congr hput

/-- Taking a record out leaves out the record of its name. -/
theorem toList_of_take? {t fewer : Table α} {name : Name} {record : α}
    (h : t.take? name = some (record, fewer)) :
    fewer.toList = t.toList.filter fun other => Record.name other ≠ name := by
  unfold take? at h
  split at h
  · cases h
  · rename_i key hkey
    split at h
    · cases h
    · rename_i removed records hremove
      simp only [Option.some.injEq, Prod.mk.injEq] at h
      obtain ⟨rfl, rfl⟩ := h
      -- the records of other names lie where they lay
      have hview : ∀ entry ∈ without name t.index,
          records.get? entry.2.handle = t.records.get? entry.2.handle := by
        intro entry hmem
        obtain ⟨hmem, hne⟩ := mem_without.1 hmem
        rw [(Pool.get?_of_remove? hremove).2, if_neg]
        exact fun heq => hne (t.coherent.name_inj hmem (mem_of_find? hkey) heq)
      change (without name t.index).filterMap (fun entry => records.get? entry.2.handle) = _
      rw [List.filterMap_congr hview]
      have hnames := t.coherent.get?_handle
      unfold toList
      generalize t.index = index at hnames
      clear hview hkey
      induction index with
      | nil => rfl
      | cons entry index ih =>
        obtain ⟨other, hother, hname⟩ := hnames entry List.mem_cons_self
        have ih := ih fun e hmem => hnames e (List.mem_cons_of_mem _ hmem)
        simp only [without_cons, List.filterMap_cons, hother]
        -- index and list leave out the same entry, as the name is that of the record
        by_cases heq : entry.1 = name
        · rw [if_pos heq, ih, List.filter_cons_of_neg (by simp [hname, heq])]
        · simp only [if_neg heq, List.filterMap_cons, hother]
          rw [ih, List.filter_cons_of_pos (by simp [hname, heq])]

/-- The records are the one that is taken out and those that are left. -/
theorem perm_of_take? {t fewer : Table α} {name : Name} {record : α}
    (h : t.take? name = some (record, fewer)) : t.toList.Perm (record :: fewer.toList) := by
  have hget := (get?_of_take? h).1
  have hname := name_of_get? hget
  have hnodup : t.toList.Nodup := List.Nodup.of_map Record.name t.nodup_names_toList
  rw [toList_of_take? h]
  refine (List.perm_ext_iff_of_nodup hnodup ?_).2 fun other => ?_
  · exact List.nodup_cons.2 ⟨by simp [hname], hnodup.filter _⟩
  · simp only [List.mem_cons, List.mem_filter, decide_eq_true_eq]
    constructor
    · intro hmem
      refine or_iff_not_imp_right.2 fun hout => ?_
      have hother : Record.name other = name := by
        by_contra hne
        exact hout ⟨hmem, hne⟩
      have := mem_toList.1 hmem
      rw [hother, hget] at this
      exact (Option.some.inj this).symm
    · rintro (rfl | ⟨hmem, -⟩)
      · exact mem_toList_of_get? hget
      · exact hmem

/-- Nothing is left out under a name from which nothing can be taken. -/
theorem filter_toList_of_take?_eq_none {t : Table α} {name : Name} (h : t.take? name = none) :
    (t.toList.filter fun record => Record.name record ≠ name) = t.toList := by
  have hnone := take?_eq_none_iff.1 h
  rw [get?_eq_find?, List.find?_eq_none] at hnone
  exact List.filter_eq_self.2 (by simpa using hnone)

/-- A record is removed, also if its expressions cannot be released. -/
theorem toList_of_remove {t after : Table α} {name : Name} {forest left : Forest}
    {outcome : Except Fault Bool} (h : t.remove name forest = (outcome, after, left)) :
    after.toList = t.toList.filter fun record => Record.name record ≠ name := by
  unfold remove at h
  cases htake : t.take? name with
  | none =>
    rw [htake] at h
    cases h
    exact (filter_toList_of_take?_eq_none htake).symm
  | some found =>
    rw [htake] at h
    cases h
    exact toList_of_take? htake

/-- A record that is stored comes first, in place of the one that had its name. -/
theorem toList_of_insert {t after : Table α} {record : α} {forest left : Forest} {replaced : Bool}
    (h : t.insert record forest = (.ok replaced, after, left)) :
    after.toList =
      record :: t.toList.filter fun other => Record.name other ≠ Record.name record := by
  unfold insert at h
  split at h
  · rename_i htake
    cases h
    rw [toList_put, filter_toList_of_take?_eq_none htake]
  · rename_i old fewer htake
    split at h
    · cases h
      rw [toList_put, toList_of_take? htake]
    · cases h

/-- The records in order are those of the list, sorted by line. -/
theorem ordered_eq (t : Table α) :
    t.ordered =
      t.toList.reverse.mergeSort fun a b => (Record.pos a).line ≤ (Record.pos b).line := by
  rw [ordered, toList, List.filterMap_reverse]

end Beamline.Table
