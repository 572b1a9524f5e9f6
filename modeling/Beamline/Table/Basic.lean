import Beamline.Table.Index

/-!
# Tables of named records

A table keeps the records of one namespace, at most one for each name, and remembers the order in
which they were stored. A record owns expressions of the forest; a record that is replaced or
removed releases them.

The view of a table is `Table.get?`; `Table.Lemmas` says what the operations do to it.
-/

namespace Beamline

open Source (Position)
open Beamline.Expr (NodeId Fault Forest)

/-- The records of one namespace. -/
structure Table (α : Type) [Record α] where
  /-- The records. -/
  records : Pool α
  /-- The names with the places of their records. -/
  index : Table.Index
  /-- How many records have been stored so far. -/
  count : Nat
  /-- The index fits the records. -/
  coherent : Table.Coherent records index count

namespace Table

variable {α : Type} [Record α]

/-- The table without records. -/
def empty : Table α where
  records := Pool.empty
  index := []
  count := 0
  coherent := ⟨.nil, .nil, by simp, by simp, rfl⟩

/-- The record of a name. -/
def get? (t : Table α) (name : Name) : Option α :=
  (find? t.index name).bind fun key => t.records.get? key.handle

/-- The record of the name that `raw` spells. -/
def lookup? (t : Table α) (raw : String) : Option α :=
  t.get? (Name.ofText raw)

/-- Whether the name has a record. -/
def contains (t : Table α) (name : Name) : Bool :=
  (find? t.index name).isSome

/-- The number of records. -/
def size (t : Table α) : Nat :=
  t.index.length

/-- The records in the order of the lines at which they were defined; those of one line in the
order in which they were stored. -/
def ordered (t : Table α) : List α :=
  let stored := t.index.reverse.filterMap fun entry => t.records.get? entry.2.handle
  stored.mergeSort fun a b => (Record.pos a).line ≤ (Record.pos b).line

/-- Takes the record of a name out of the table, if it has one. -/
def take? (name : Name) (t : Table α) : Option (α × Table α) :=
  match hkey : find? t.index name with
  | none => none
  | some key =>
    match hremove : t.records.remove? key.handle with
    | none => none
    | some (record, records) =>
      some (record,
        { records
          index := without name t.index
          count := t.count
          coherent := t.coherent.without hkey hremove })

/-- Puts a record into the table under a name that has none. -/
def put (record : α) (t : Table α) (h : find? t.index (Record.name record) = none) : Table α where
  records := (t.records.insert record).2
  index := (Record.name record, ⟨(t.records.insert record).1, t.count⟩) :: t.index
  count := t.count + 1
  coherent := t.coherent.cons record h

/-- The place of the record is free once it has been taken out. -/
theorem find?_of_take? {name : Name} {t fewer : Table α} {record : α}
    (h : t.take? name = some (record, fewer)) : find? fewer.index name = none := by
  unfold take? at h
  split at h
  · cases h
  · split at h
    · cases h
    · cases h
      simp [find?_without]

/-- Nothing can be taken out only where nothing is listed. -/
theorem find?_of_take?_eq_none {name : Name} {t : Table α} (h : t.take? name = none) :
    find? t.index name = none := by
  unfold take? at h
  split at h
  · assumption
  · rename_i key hkey
    split at h
    · rename_i hremove
      obtain ⟨record, hrecord, _⟩ := t.coherent.get?_handle _ (mem_of_find? hkey)
      simp [Pool.remove?_eq_none_iff, hrecord] at hremove
    · cases h

/-- Gives the record of a name another position, if it has one. -/
def setPos (name : Name) (pos : Position) (t : Table α) : Table α :=
  match find? t.index name with
  | none => t
  | some key =>
    { t with
      records := t.records.modify key.handle (Record.withPos pos)
      coherent := t.coherent.modify key.handle pos }

/-- Removes the record of a name and releases its expressions. Returns whether there was one. At a
fault the record is gone all the same. -/
def remove (name : Name) (t : Table α) (forest : Forest) :
    Except Fault Bool × Table α × Forest :=
  match t.take? name with
  | none => (.ok false, t, forest)
  | some (record, fewer) =>
    let (outcome, forest) := Forest.releaseEach (Record.owned record) forest
    (outcome.map fun _ => true, fewer, forest)

/-- Stores a record in place of the one that has its name. Returns whether there was one. At a
fault the old record is gone and the new one is not stored. -/
def insert (record : α) (t : Table α) (forest : Forest) : Except Fault Bool × Table α × Forest :=
  match h : t.take? (Record.name record) with
  | none => (.ok false, t.put record (find?_of_take?_eq_none h), forest)
  | some (old, fewer) =>
    match Forest.releaseEach (Record.owned old) forest with
    | (.ok _, forest) => (.ok true, fewer.put record (find?_of_take? h), forest)
    | (.error fault, forest) => (.error fault, fewer, forest)

end Table

end Beamline
