import Beamline.Expr.Forest
import Beamline.Source.Position

/-!
# Indexed records

The records of a table lie in a pool. An index leads from a name to the handle of its record and
to the order in which the records were stored, newest first. The index is coherent with the pool
when each name is listed once and leads to its record, and there are no other records.

* `find?_eq_some_iff`: what is found is what is listed.
* `find?_cons`, `find?_without`: what listing and striking out a name do to the index.
* `Coherent.cons`, `Coherent.without`, `Coherent.modify`: storing a record under a free name,
  taking one out and changing a position keep the index coherent.
-/

namespace Beamline

open Source (Position)
open Beamline.Expr (NodeId)

/-- A named record that owns expressions. -/
class Record (α : Type) where
  /-- The name of the record. -/
  name : α → Name
  /-- Where the record was defined. -/
  pos : α → Position
  /-- The record with another position. -/
  withPos : Position → α → α
  /-- The expressions that the record owns. -/
  owned : α → List NodeId
  /-- A change of position keeps the name. -/
  name_withPos : ∀ pos record, name (withPos pos record) = name record

namespace Table

/-- Where the record of a name lies, and when it was stored. -/
structure Key where
  /-- The handle of the record. -/
  handle : Handle
  /-- How many records were stored before it. -/
  order : Nat
  deriving DecidableEq

/-- The names with the keys of their records, newest first. -/
abbrev Index := List (Name × Key)

/-- The key of a name. -/
def find? (index : Index) (name : Name) : Option Key :=
  (index.find? (·.1 = name)).map (·.2)

/-- The index lists each name once, newest first, and leads to the records and to all of them. -/
structure Coherent {α : Type} [Record α] (records : Pool α) (index : Index)
    (count : Nat) : Prop where
  /-- No name is listed twice. -/
  nodup_names : (index.map (·.1)).Nodup
  /-- The newest record comes first. -/
  newest_first : index.Pairwise fun a b => b.2.order < a.2.order
  /-- The orders are those given out so far. -/
  order_lt : ∀ entry ∈ index, entry.2.order < count
  /-- Each name leads to its record. -/
  get?_handle : ∀ entry ∈ index, ∃ record,
    records.get? entry.2.handle = some record ∧ Record.name record = entry.1
  /-- There are no other records. -/
  size_eq : records.size = index.length

variable {α : Type} [Record α]

/-! ## Looking up a name -/

theorem mem_of_find? {index : Index} {name : Name} {key : Key}
    (h : find? index name = some key) : (name, key) ∈ index := by
  obtain ⟨entry, hentry, rfl⟩ := Option.map_eq_some_iff.1 h
  have hname := List.find?_some hentry
  simp only [decide_eq_true_eq] at hname
  exact hname ▸ List.mem_of_find?_eq_some hentry

theorem find?_eq_none_iff {index : Index} {name : Name} :
    find? index name = none ↔ ∀ entry ∈ index, entry.1 ≠ name := by
  simp [find?]

theorem find?_cons (entry : Name × Key) (index : Index) (name : Name) :
    find? (entry :: index) name = if entry.1 = name then some entry.2 else find? index name := by
  by_cases h : entry.1 = name <;> simp [find?, h]

/-- Where no name is listed twice, what is found is what is listed. -/
theorem find?_eq_some_iff {index : Index} (h : (index.map (·.1)).Nodup) {name : Name} {key : Key} :
    find? index name = some key ↔ (name, key) ∈ index := by
  refine ⟨mem_of_find?, fun hmem => ?_⟩
  induction index with
  | nil => cases hmem
  | cons head tail ih =>
    obtain ⟨hhead, htail⟩ := List.nodup_cons.1 h
    rw [find?_cons]
    rcases List.mem_cons.1 hmem with rfl | hmem
    · rw [if_pos rfl]
    · rw [if_neg, ih htail hmem]
      exact fun heq => hhead (List.mem_map.2 ⟨(name, key), hmem, heq.symm⟩)

/-! ## Striking out a name -/

/-- The index without a name. -/
def without (name : Name) (index : Index) : List (Name × Key) :=
  index.filter (·.1 ≠ name)

theorem mem_without {index : Index} {name : Name} {entry : Name × Key} :
    entry ∈ without name index ↔ entry ∈ index ∧ entry.1 ≠ name := by
  simp [without]

theorem without_cons (entry : Name × Key) (index : Index) (name : Name) :
    without name (entry :: index) =
      if entry.1 = name then without name index else entry :: without name index := by
  by_cases h : entry.1 = name <;> simp [without, h]

theorem find?_without (index : Index) (name other : Name) :
    find? (without name index) other = if other = name then none else find? index other := by
  induction index with
  | nil => simp [without, find?]
  | cons head tail ih =>
    rw [without_cons, find?_cons]
    split
    · rename_i hname
      rw [ih]
      split
      · rfl
      · rw [if_neg]
        exact fun h => absurd (h.symm.trans hname) ‹_›
    · rename_i hname
      rw [find?_cons, ih]
      by_cases hother : head.1 = other
      · rw [if_pos hother, if_neg (hother ▸ hname), if_pos hother]
      · rw [if_neg hother, if_neg hother]

theorem length_without {index : Index} (hnodup : (index.map (·.1)).Nodup)
    {entry : Name × Key} (h : entry ∈ index) :
    (without entry.1 index).length + 1 = index.length := by
  induction index with
  | nil => cases h
  | cons head tail ih =>
    obtain ⟨hhead, htail⟩ := List.nodup_cons.1 hnodup
    rw [without_cons]
    rcases List.mem_cons.1 h with rfl | h
    -- the name is listed once, so that the rest stays as it is
    · have hself : without entry.1 tail = tail := by
        refine List.filter_eq_self.2 fun other hmem => ?_
        simpa using fun heq : other.1 = entry.1 =>
          hhead (List.mem_map.2 ⟨other, hmem, heq⟩)
      rw [if_pos rfl, hself, List.length_cons]
    · have hne : head.1 ≠ entry.1 := fun heq =>
        hhead (List.mem_map.2 ⟨entry, h, heq.symm⟩)
      rw [if_neg hne, List.length_cons, List.length_cons, ih htail h]

/-! ## Coherence -/

/-- Two names do not share a record. -/
theorem Coherent.name_inj {records : Pool α} {index : Index} {count : Nat}
    (h : Coherent records index count) {a b : Name × Key} (ha : a ∈ index) (hb : b ∈ index)
    (hab : a.2.handle = b.2.handle) : a.1 = b.1 := by
  obtain ⟨r, hr, hra⟩ := h.get?_handle a ha
  obtain ⟨s, hs, hsb⟩ := h.get?_handle b hb
  rw [hab, hs] at hr
  cases hr
  exact hra.symm.trans hsb

/-- A record and its name may be taken out together. -/
theorem Coherent.without {records fewer : Pool α} {index : Index} {count : Nat}
    (h : Coherent records index count) {name : Name} {key : Key}
    (hkey : find? index name = some key) {record : α}
    (hremove : records.remove? key.handle = some (record, fewer)) :
    Coherent fewer (without name index) count where
  nodup_names := h.nodup_names.sublist (List.filter_sublist.map _)
  newest_first := h.newest_first.sublist List.filter_sublist
  order_lt entry hentry := h.order_lt entry (mem_without.1 hentry).1
  get?_handle entry hentry := by
    obtain ⟨hmem, hne⟩ := mem_without.1 hentry
    obtain ⟨other, hother, hname⟩ := h.get?_handle entry hmem
    refine ⟨other, ?_, hname⟩
    rw [(Pool.get?_of_remove? hremove).2, if_neg, hother]
    exact fun heq => hne (h.name_inj hmem (mem_of_find? hkey) heq)
  size_eq := by
    have hlength := length_without h.nodup_names (mem_of_find? hkey)
    have hsize := Pool.size_of_remove? hremove
    have := h.size_eq
    simp only at hlength
    omega

/-- A record may be put in under a name that is not listed. -/
theorem Coherent.cons {records : Pool α} {index : Index} {count : Nat}
    (h : Coherent records index count) (record : α)
    (hfind : find? index (Record.name record) = none) :
    Coherent (records.insert record).2
      ((Record.name record, ⟨(records.insert record).1, count⟩) :: index) (count + 1) where
  nodup_names := by
    refine List.nodup_cons.2 ⟨fun hmem => ?_, h.nodup_names⟩
    obtain ⟨entry, hentry, heq⟩ := List.mem_map.1 hmem
    exact find?_eq_none_iff.1 hfind entry hentry heq
  newest_first := List.pairwise_cons.2 ⟨h.order_lt, h.newest_first⟩
  order_lt entry hentry := by
    rcases List.mem_cons.1 hentry with rfl | hentry
    · exact Nat.lt_succ_self count
    · exact Nat.lt_succ_of_lt (h.order_lt entry hentry)
  get?_handle entry hentry := by
    rcases List.mem_cons.1 hentry with rfl | hentry
    · exact ⟨record, Pool.get?_insert_self record records, rfl⟩
    · obtain ⟨other, hother, hname⟩ := h.get?_handle entry hentry
      exact ⟨other, Pool.get?_insert_of_get? hother, hname⟩
  size_eq := by
    rw [Pool.size_insert, h.size_eq, List.length_cons]

/-- A record may be given another position. -/
theorem Coherent.modify {records : Pool α} {index : Index} {count : Nat}
    (h : Coherent records index count) (handle : Handle) (pos : Position) :
    Coherent (records.modify handle (Record.withPos pos)) index count where
  nodup_names := h.nodup_names
  newest_first := h.newest_first
  order_lt := h.order_lt
  get?_handle entry hentry := by
    obtain ⟨record, hrecord, hname⟩ := h.get?_handle entry hentry
    rw [Pool.get?_modify]
    split
    · rename_i heq
      refine ⟨Record.withPos pos record, ?_, (Record.name_withPos pos record).trans hname⟩
      rw [← heq, hrecord, Option.map_some]
    · exact ⟨record, hrecord, hname⟩
  size_eq := (Pool.size_modify ..).trans h.size_eq

end Table

end Beamline
