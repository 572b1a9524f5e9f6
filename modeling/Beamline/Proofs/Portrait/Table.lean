import Beamline.Proofs.Grove.Basic
import Beamline.Proofs.Plain.Records
import Beamline.Proofs.Table.Listing

/-!
# Tables and what they stand for

A record refers to its expressions by handle; the record that it stands for holds them as trees. A
portrayal says, for the records of one namespace, how the two are compared, and a table shows a
plain table if their records agree one by one.

* `Shows.get?`, `Shows.contains`: both tables answer a lookup alike.
* `Shows.remove`, `Shows.insert`: in a grove, removing and storing succeed, keep the tables alike
  and leave a grove of the trees that the plain table then holds.
-/

namespace Beamline

open Beamline.Expr (Forest Grove Tree)

/-- How the records of a namespace are compared with the records that hold trees. -/
structure Portrayal (α β γ : Type) [Record α] [Plain.Named β] [Plain.Named γ] where
  /-- The record in plain form, its expressions left as handles. -/
  view : α → β
  /-- The record with each tree replaced by the handle of its root. -/
  sketch : γ → β
  /-- The trees that the record holds. -/
  trees : γ → List Tree
  /-- The plain form keeps the name. -/
  name_view : ∀ a, Plain.Named.name (view a) = Record.name a
  /-- The plain form keeps the position. -/
  pos_view : ∀ a, Plain.Named.pos (view a) = Record.pos a
  /-- The sketch keeps the name. -/
  name_sketch : ∀ c, Plain.Named.name (sketch c) = Plain.Named.name c
  /-- The sketch keeps the position. -/
  pos_sketch : ∀ c, Plain.Named.pos (sketch c) = Plain.Named.pos c
  /-- A record owns the roots of the trees of the record that it stands for. -/
  owned_eq : ∀ {a c}, view a = sketch c → Record.owned a = (trees c).map Tree.root

namespace Portrayal

variable {α β γ : Type} [Record α] [Plain.Named β] [Plain.Named γ] (π : Portrayal α β γ)

/-- The table holds the records of the plain table, in the same order. -/
def Shows (t : Table α) (l : Plain.Table γ) : Prop :=
  t.toList.map π.view = l.map π.sketch

namespace Shows

variable {π} {t : Table α} {l : Plain.Table γ}

/-! ## Lookups -/

/-- Both tables answer a lookup alike. -/
theorem get? (h : π.Shows t l) (name : Name) :
    (t.get? name).map π.view = (Plain.Table.get? l name).map π.sketch := by
  have hview : (t.get? name).map π.view = Plain.Table.get? (t.toList.map π.view) name := by
    rw [Table.get?_eq_find?, Plain.Table.get?, List.find?_map]
    simp only [Function.comp_def, π.name_view]
  rw [hview, h, Plain.Table.get?_map π.name_sketch]

/-- Both tables have records of the same names. -/
theorem contains (h : π.Shows t l) (name : Name) :
    t.contains name = Plain.Table.contains l name := by
  -- two lookups that agree have both found something or neither has
  have := congrArg Option.isSome (h.get? name)
  rwa [Option.isSome_map, Option.isSome_map, Table.isSome_get?] at this

/-- A record that is found stands for the one that the plain table has. -/
theorem exists_of_get? (h : π.Shows t l) {name : Name} {a : α} (ha : t.get? name = some a) :
    ∃ c, Plain.Table.get? l name = some c ∧ π.view a = π.sketch c := by
  have := h.get? name
  rw [ha, Option.map_some, eq_comm, Option.map_eq_some_iff] at this
  obtain ⟨c, hc, heq⟩ := this
  exact ⟨c, hc, heq.symm⟩

/-- Where nothing is found the plain table has nothing. -/
theorem get?_eq_none (h : π.Shows t l) {name : Name} (ha : t.get? name = none) :
    Plain.Table.get? l name = none := by
  have := h.get? name
  rwa [ha, Option.map_none, eq_comm, Option.map_eq_none_iff] at this

/-- Both tables list their records in the same order. -/
theorem ordered (h : π.Shows t l) :
    t.ordered.map π.view = (Plain.Table.ordered l).map π.sketch := by
  have hview : t.ordered.map π.view = Plain.Table.ordered (t.toList.map π.view) := by
    rw [Table.ordered_eq, Plain.Table.ordered, ← List.map_reverse]
    exact List.map_mergeSort fun a _ b _ => by rw [π.pos_view, π.pos_view]
  rw [hview, h, Plain.Table.ordered_map π.pos_sketch]

/-- No name occurs twice in the plain table. -/
theorem nodup_names (h : π.Shows t l) : (l.map Plain.Named.name).Nodup := by
  have hnames : l.map Plain.Named.name = t.toList.map Record.name := by
    have := congrArg (List.map Plain.Named.name) h
    simpa only [List.map_map, Function.comp_def, π.name_view, π.name_sketch] using this.symm
  rw [hnames]
  exact t.nodup_names_toList

/-! ## Storing and removing -/

/-- A record that is stored under a free name comes first in both tables. -/
theorem put (h : π.Shows t l) {a : α} {c : γ} (hac : π.view a = π.sketch c)
    (hfree : Table.find? t.index (Record.name a) = none) : π.Shows (t.put a hfree) (c :: l) := by
  rw [Shows, Table.toList_put, List.map_cons, List.map_cons, hac, h]

/-- Taking a record out leaves its name out of both tables. -/
theorem take? (h : π.Shows t l) {name : Name} {a : α} {fewer : Table α}
    (ha : t.take? name = some (a, fewer)) : π.Shows fewer (Plain.Table.without name l) := by
  rw [Shows, Table.toList_of_take? ha, ← Plain.Table.without_map π.name_sketch, ← h,
    Plain.Table.without, List.filter_map]
  simp only [Function.comp_def, π.name_view]

end Shows

/-- The trees of a plain table in which no name occurs twice are those of a record and those of the
others. -/
theorem perm_trees {l : Plain.Table γ} (hnodup : (l.map Plain.Named.name).Nodup) {name : Name}
    {c : γ} (hc : Plain.Table.get? l name = some c) :
    (l.flatMap π.trees).Perm (π.trees c ++ (Plain.Table.without name l).flatMap π.trees) :=
  (Plain.Table.perm_of_get? hnodup hc).flatMap_right π.trees

namespace Shows

variable {π} {t : Table α} {l : Plain.Table γ} {forest : Forest} {rest : List Tree} {stray : Nat}

/-- A record of the table can be taken out and its trees released. -/
theorem releaseEach (h : π.Shows t l) (hg : Grove forest (l.flatMap π.trees ++ rest) stray)
    {name : Name} {a : α} {fewer : Table α} (ha : t.take? name = some (a, fewer)) :
    ∃ left, Forest.releaseEach (Record.owned a) forest = (.ok (), left) ∧
      π.Shows fewer (Plain.Table.without name l) ∧
        Grove left ((Plain.Table.without name l).flatMap π.trees ++ rest) stray := by
  obtain ⟨c, hc, hac⟩ := h.exists_of_get? (Table.get?_of_take? ha).1
  -- bring the trees of the record to the front, where they can be released
  have hperm := (π.perm_trees h.nodup_names hc).append_right rest
  rw [List.append_assoc] at hperm
  obtain ⟨left, hleft, hgrove⟩ := (hg.perm hperm).releaseEach
  rw [← π.owned_eq hac] at hleft
  exact ⟨left, hleft, h.take? ha, hgrove⟩

/-- Nothing is struck out under a name that has no record. -/
theorem without_of_take?_eq_none (h : π.Shows t l) {name : Name} (ha : t.take? name = none) :
    Plain.Table.without name l = l :=
  Plain.Table.without_of_get?_eq_none (h.get?_eq_none (Table.take?_eq_none_iff.1 ha))

/-- A record can be removed, and all others keep their trees. -/
theorem remove (h : π.Shows t l) (hg : Grove forest (l.flatMap π.trees ++ rest) stray)
    (name : Name) :
    ∃ fewer left, t.remove name forest = (.ok (Plain.Table.contains l name), fewer, left) ∧
      π.Shows fewer (Plain.Table.without name l) ∧
        Grove left ((Plain.Table.without name l).flatMap π.trees ++ rest) stray := by
  unfold Table.remove
  cases ha : t.take? name with
  | none =>
    have hnone := h.get?_eq_none (Table.take?_eq_none_iff.1 ha)
    refine ⟨t, forest, ?_, ?_, ?_⟩
    · rw [Plain.Table.contains, hnone]
      rfl
    · rwa [h.without_of_take?_eq_none ha]
    · rwa [h.without_of_take?_eq_none ha]
  | some found =>
    obtain ⟨a, fewer⟩ := found
    obtain ⟨left, hleft, hshows, hgrove⟩ := h.releaseEach hg ha
    obtain ⟨c, hc, -⟩ := h.exists_of_get? (Table.get?_of_take? ha).1
    refine ⟨fewer, left, ?_, hshows, hgrove⟩
    simp only [hleft, Plain.Table.contains, hc]
    rfl

/-- A record can be stored in place of the one of its name, and all others keep their trees. -/
theorem insert (h : π.Shows t l) {a : α} {c : γ} (hac : π.view a = π.sketch c)
    (hg : Grove forest (l.flatMap π.trees ++ (π.trees c ++ rest)) stray) :
    ∃ replaced u left, t.insert a forest = (.ok replaced, u, left) ∧
      π.Shows u (Plain.Table.insert c l) ∧
        Grove left ((Plain.Table.insert c l).flatMap π.trees ++ rest) stray := by
  have hname : Plain.Named.name c = Record.name a := by
    rw [← π.name_sketch, ← hac, π.name_view]
  have hperm : ((Plain.Table.without (Record.name a) l).flatMap π.trees ++
      (π.trees c ++ rest)).Perm ((Plain.Table.insert c l).flatMap π.trees ++ rest) := by
    rw [Plain.Table.insert, hname, List.flatMap_cons, ← List.append_assoc]
    exact List.perm_append_comm.append_right _
  unfold Table.insert
  -- the name is free, or its record is taken out and released before
  split
  · rename_i hnone
    refine ⟨false, _, forest, rfl, ?_, ?_⟩
    · rw [Plain.Table.insert, hname, h.without_of_take?_eq_none hnone]
      exact h.put hac _
    · refine Grove.perm ?_ hperm
      rwa [h.without_of_take?_eq_none hnone]
  · rename_i old fewer htake
    obtain ⟨left, hleft, hshows, hgrove⟩ := h.releaseEach hg htake
    rw [hleft]
    refine ⟨true, _, left, rfl, ?_, hgrove.perm hperm⟩
    rw [Plain.Table.insert, hname]
    exact hshows.put hac _

end Shows

end Portrayal

end Beamline
