import Mathlib.Data.Finset.Card
import Mathlib.Data.List.DropRight
import Mathlib.Data.List.Induction
import Beamline.Symbols
import Beamline.Proofs.Grove.Basic
import Beamline.Proofs.Sorting
import Beamline.Proofs.Table.Listing

/-!
# Tables and their history

A table is what the changes since it was empty have made of it: records that were stored and names
that were removed. Which record a name has, how many records there are and in which order they are
listed can be told from these changes alone. Neither the slots that were used again nor the order
in which the entries of the index are walked have a part in it.

* `toList_of_change`, `change_of_rooted`: what one change makes of the records, and that it does
  not fail where they own trees that share no node.
* `pairwise_standing`: the records that stand, in the order in which they were stored.
* `orderedFrom_eq`: the order in which the index is walked does not matter.
* `reflects_of_reached`: every table reflects the changes that led to it.
-/

namespace Beamline.Table

open Beamline.Expr (Fault Forest Grove Tree)

variable {α : Type} [Record α]

/-! ## Changes -/

/-- A change of a table. -/
inductive Change (α : Type) where
  /-- A record is stored, in place of the one that has its name. -/
  | insert (record : α)
  /-- The record of a name is removed. -/
  | remove (name : Name)

namespace Change

/-- The name whose record changes. -/
def name : Change α → Name
  | .insert record => Record.name record
  | .remove name => name

/-- The record that the name has afterwards. -/
def record? : Change α → Option α
  | .insert record => some record
  | .remove _ => none

theorem name_of_record? (c : Change α) {record : α} (h : c.record? = some record) :
    Record.name record = c.name := by
  cases c with
  | insert _ =>
    cases h
    rfl
  | remove _ => cases h

end Change

/-- Makes a change. Returns whether the name had a record. -/
def change (c : Change α) (t : Table α) (forest : Forest) : Except Fault Bool × Table α × Forest :=
  match c with
  | .insert record => t.insert record forest
  | .remove name => t.remove name forest

/-- The changes, the oldest first, have made the table of the empty one, and none of them failed.
The forest is not the table's own: between two changes anything may have happened to it. -/
inductive Reached : List (Change α) → Table α → Prop
  /-- Nothing has changed yet. -/
  | empty : Reached [] empty
  /-- One more change was made. -/
  | change {changes : List (Change α)} {t next : Table α} {found : Bool} {left : Forest}
      (c : Change α) (forest : Forest) : Reached changes t →
        t.change c forest = (.ok found, next, left) → Reached (changes ++ [c]) next

section

variable {t next : Table α} {c : Change α} {found : Bool} {forest left : Forest}

/-- A change leaves out the record of its name and puts the new one, if any, in front. -/
theorem toList_of_change (h : t.change c forest = (.ok found, next, left)) :
    next.toList =
      c.record?.toList ++ t.toList.filter fun record => Record.name record ≠ c.name := by
  cases c with
  | insert record => exact toList_of_insert h
  | remove name => exact toList_of_remove h

/-- A change affects the lookup of its name only. -/
theorem get?_of_change (h : t.change c forest = (.ok found, next, left)) (name : Name) :
    next.get? name = if c.name = name then c.record? else t.get? name := by
  have hnew : (c.record?.toList.find? fun record => Record.name record = name) =
      if c.name = name then c.record? else none := by
    cases hrecord : c.record? with
    | none => simp
    | some record => by_cases hname : c.name = name <;> simp [c.name_of_record? hrecord, hname]
  have hold : ((t.toList.filter fun record => Record.name record ≠ c.name).find? fun record =>
      Record.name record = name) = if c.name = name then none else t.get? name := by
    rw [List.find?_filter, get?_eq_find?]
    by_cases hname : c.name = name
    · simp [hname]
    · -- a record that is left out does not have the name sought
      have hsame (record : α) : (Record.name record ≠ c.name ∧ Record.name record = name) ↔
          Record.name record = name :=
        and_iff_right_of_imp fun heq => heq ▸ Ne.symm hname
      simp [hname, hsame]
  rw [get?_eq_find?, toList_of_change h, List.find?_append, hnew, hold]
  by_cases hname : c.name = name <;> simp [hname]

/-- A change tells whether its name had a record. -/
theorem found_of_change (h : t.change c forest = (.ok found, next, left)) :
    found = (t.get? c.name).isSome := by
  cases c with
  | insert record =>
    change t.insert record forest = _ at h
    unfold insert at h
    split at h
    · rename_i htake
      cases h
      rw [Change.name, take?_eq_none_iff.1 htake, Option.isSome_none]
    · rename_i htake
      split at h
      · cases h
        rw [Change.name, (get?_of_take? htake).1, Option.isSome_some]
      · cases h
  | remove name =>
    change t.remove name forest = _ at h
    unfold remove at h
    cases htake : t.take? name with
    | none =>
      rw [htake] at h
      cases h
      rw [Change.name, take?_eq_none_iff.1 htake, Option.isSome_none]
    | some taken =>
      rw [htake] at h
      rcases hrun : Forest.releaseEach (Record.owned taken.1) forest with ⟨x | x, after⟩
      · simp only [hrun] at h
        cases h
      · simp only [hrun] at h
        cases h
        rw [Change.name, (get?_of_take? htake).1, Option.isSome_some]

end

/-! ## What the changes tell -/

section

variable (changes : List (Change α)) (name : Name)

/-- The record that the last change of a name has left to it. -/
def lastRecord? : Option α :=
  (changes.filter fun c => c.name = name).getLast?.bind Change.record?

/-- How many changes there were up to the last one of a name. -/
def lastTime : Nat :=
  (changes.rdropWhile fun c => c.name ≠ name).length

/-- The names that have a record after the changes. -/
def present : Finset Name :=
  (changes.map Change.name).toFinset.filter fun name => (lastRecord? changes name).isSome

/-- The records that stand after the changes, in the order in which they were stored: a record
stands if its name has not changed since. -/
def standing : List (Change α) → List α
  | [] => []
  | c :: later =>
    if later.any fun other => other.name = c.name then standing later
    else c.record?.toList ++ standing later

variable {changes name} {c : Change α}

theorem lastRecord?_concat :
    lastRecord? (changes ++ [c]) name =
      if c.name = name then c.record? else lastRecord? changes name := by
  by_cases h : c.name = name <;> simp [lastRecord?, h]

theorem lastTime_concat :
    lastTime (changes ++ [c]) name =
      if c.name = name then changes.length + 1 else lastTime changes name := by
  by_cases h : c.name = name <;> simp [lastTime, h]

theorem lastTime_le : lastTime changes name ≤ changes.length :=
  (List.rdropWhile_prefix _ _).length_le

theorem mem_present :
    name ∈ present changes ↔ (lastRecord? changes name).isSome = true := by
  refine ⟨fun h => (Finset.mem_filter.1 h).2, fun h => Finset.mem_filter.2 ⟨?_, h⟩⟩
  -- a name without a change has no last one
  by_contra hmem
  have hnone : (changes.filter fun c => c.name = name) = [] := by
    refine List.filter_eq_nil_iff.2 fun c hc heq => hmem ?_
    exact List.mem_toFinset.2 (List.mem_map.2 ⟨c, hc, of_decide_eq_true heq⟩)
  simp [lastRecord?, hnone] at h

/-- The records that stand are among those that were stored. -/
theorem standing_sublist (changes : List (Change α)) :
    (standing changes).Sublist (changes.filterMap Change.record?) := by
  induction changes with
  | nil => exact .slnil
  | cons c later ih =>
    rw [standing]
    split
    · exact ih.trans ((List.sublist_cons_self c later).filterMap _)
    · cases h : c.record? with
      | none => simpa [h] using ih
      | some record => simpa [h] using ih

/-- One more change leaves out the record of its name and adds the new one, if any. -/
theorem standing_concat :
    standing (changes ++ [c]) =
      (standing changes).filter (fun record => Record.name record ≠ c.name) ++
        c.record?.toList := by
  induction changes with
  | nil => simp [standing]
  | cons first later ih =>
    rw [List.cons_append, standing, standing, ih, List.any_append]
    cases hlater : later.any fun other => other.name = first.name with
    | true => simp
    | false =>
      -- the first record stands unless the new change is of its name
      cases hrecord : first.record? with
      | none => by_cases hname : c.name = first.name <;> simp [hname]
      | some record =>
        have := first.name_of_record? hrecord
        by_cases hname : c.name = first.name
        · simp [hname, this]
        · simp [hname, this, Ne.symm hname]

/-- The records that stand are in the order in which their names changed last. -/
theorem pairwise_standing (changes : List (Change α)) :
    (standing changes).Pairwise fun a b =>
      lastTime changes (Record.name a) < lastTime changes (Record.name b) := by
  induction changes using List.reverseRecOn with
  | nil => exact .nil
  | append_singleton changes c ih =>
    have hold {record : α} (h : record ∈ (standing changes).filter fun record =>
        Record.name record ≠ c.name) :
        lastTime (changes ++ [c]) (Record.name record) = lastTime changes (Record.name record) := by
      rw [lastTime_concat, if_neg (Ne.symm (by simpa using (List.mem_filter.1 h).2))]
    rw [standing_concat, List.pairwise_append]
    refine ⟨?_, ?_, ?_⟩
    · refine (ih.sublist List.filter_sublist).imp_of_mem fun ha hb hlt => ?_
      rwa [hold ha, hold hb]
    · cases c.record? with
      | none => exact .nil
      | some record => exact List.pairwise_singleton _ _
    · -- the new record is the last one
      intro a ha b hb
      rw [hold ha, lastTime_concat, if_pos (c.name_of_record? (Option.mem_toList.1 hb)).symm]
      exact Nat.lt_succ_of_le lastTime_le

end

/-! ## Walking the index -/

section

variable (t : Table α) (entries : List (Name × Key))

/-- The records that entries of the index lead to, each with its line and its order. -/
def stamped : List (Nat × Nat × α) :=
  entries.filterMap fun entry =>
    (t.records.get? entry.2.handle).map fun record =>
      ((Record.pos record).line, entry.2.order, record)

/-- The records that entries of the index lead to, sorted by line and order. -/
def orderedFrom : List α :=
  ((t.stamped entries).mergeSort fun a b => a.1 < b.1 ∨ a.1 = b.1 ∧ a.2.1 ≤ b.2.1).map
    fun stamp => stamp.2.2

theorem map_record_stamped :
    (t.stamped entries).map (fun stamp => stamp.2.2) =
      entries.filterMap fun entry => t.records.get? entry.2.handle := by
  rw [stamped, List.map_filterMap]
  refine List.filterMap_congr fun entry _ => ?_
  cases t.records.get? entry.2.handle with
  | none => rfl
  | some _ => rfl

theorem line_of_mem_stamped {stamp : Nat × Nat × α} (h : stamp ∈ t.stamped entries) :
    stamp.1 = (Record.pos stamp.2.2).line := by
  obtain ⟨entry, -, hstamp⟩ := List.mem_filterMap.1 h
  obtain ⟨record, -, rfl⟩ := Option.map_eq_some_iff.1 hstamp
  rfl

/-- From the oldest entry to the newest the orders go up. -/
theorem pairwise_stamped :
    (t.stamped t.index.reverse).Pairwise fun a b => a.2.1 < b.2.1 := by
  refine List.Pairwise.filterMap _ ?_ (List.pairwise_reverse.2 t.coherent.newest_first)
  intro entry other hlt a ha b hb
  obtain ⟨_, -, rfl⟩ := Option.map_eq_some_iff.1 ha
  obtain ⟨_, -, rfl⟩ := Option.map_eq_some_iff.1 hb
  exact hlt

variable {t entries}

/-- In whichever order the index is walked, the records come out in the same order. -/
theorem orderedFrom_eq (h : entries.Perm t.index) : t.orderedFrom entries = t.ordered := by
  have hperm : (t.stamped entries).Perm (t.stamped t.index.reverse) :=
    (h.trans (List.reverse_perm _).symm).filterMap _
  rw [orderedFrom, Sorting.mergeSort_eq_of_perm hperm t.pairwise_stamped, ordered,
    ← map_record_stamped]
  exact List.map_mergeSort fun a ha b hb => by
    rw [t.line_of_mem_stamped _ ha, t.line_of_mem_stamped _ hb]

end

/-! ## Records that own their expressions -/

/-- The records own trees that stand in the forest, as does the rest, and share no node. -/
structure Rooted (trees : α → List Tree) (rest : List Tree) (stray : Nat) (records : List α)
    (forest : Forest) : Prop where
  /-- A record owns the roots of its trees. -/
  owned_eq : ∀ record ∈ records, Record.owned record = (trees record).map Tree.root
  /-- The trees share no node. -/
  grove : Grove forest (records.flatMap trees ++ rest) stray

section

variable {trees : α → List Tree} {rest : List Tree} {stray : Nat} {records others : List α}
  {t : Table α} {c : Change α} {forest : Forest}

theorem Rooted.perm (h : Rooted trees rest stray records forest) (hperm : records.Perm others) :
    Rooted trees rest stray others forest where
  owned_eq record hmem := h.owned_eq record (hperm.mem_iff.2 hmem)
  grove := h.grove.perm ((hperm.flatMap_right trees).append_right rest)

/-- A record can release its expressions, and the others keep theirs. -/
theorem Rooted.releaseEach {record : α} (h : Rooted trees rest stray (record :: records) forest) :
    ∃ left, Forest.releaseEach (Record.owned record) forest = (.ok (), left) ∧
      Rooted trees rest stray records left := by
  have hgrove := h.grove
  rw [List.flatMap_cons, List.append_assoc] at hgrove
  obtain ⟨left, hleft, hgrove⟩ := hgrove.releaseEach
  rw [← h.owned_eq record List.mem_cons_self] at hleft
  exact ⟨left, hleft, fun other hmem => h.owned_eq other (List.mem_cons_of_mem _ hmem), hgrove⟩

/-- Where the records and the new one own trees that share no node, a change does not fail, and it
leaves records of which the same is true. -/
theorem change_of_rooted
    (h : Rooted trees rest stray (t.toList ++ c.record?.toList) forest) :
    ∃ found next left, t.change c forest = (.ok found, next, left) ∧
      Rooted trees rest stray next.toList left := by
  -- the record of the name, if there is one, releases its trees before the new one is stored
  have hrelease {record : α} {fewer : Table α} (htake : t.take? c.name = some (record, fewer)) :
      ∃ left, Forest.releaseEach (Record.owned record) forest = (.ok (), left) ∧
        Rooted trees rest stray (fewer.toList ++ c.record?.toList) left :=
    (h.perm ((perm_of_take? htake).append_right c.record?.toList)).releaseEach
  cases c with
  | insert record =>
    change ∃ found next left, t.insert record forest = _ ∧ _
    unfold insert
    split
    · refine ⟨false, _, forest, rfl, ?_⟩
      rw [toList_put]
      exact h.perm List.perm_append_comm
    · rename_i old fewer htake
      obtain ⟨left, hleft, hrooted⟩ := hrelease htake
      rw [hleft]
      refine ⟨true, _, left, rfl, ?_⟩
      rw [toList_put]
      exact hrooted.perm List.perm_append_comm
  | remove name =>
    change ∃ found next left, t.remove name forest = _ ∧ _
    unfold remove
    cases htake : t.take? name with
    | none => exact ⟨false, t, forest, rfl, by simpa [Change.record?] using h⟩
    | some taken =>
      obtain ⟨left, hleft, hrooted⟩ := hrelease htake
      refine ⟨true, taken.2, left, ?_, by simpa [Change.record?] using hrooted⟩
      simp only [hleft]
      rfl

end

/-! ## The table and its history -/

namespace Reached

variable {changes : List (Change α)} {t : Table α}

/-- The records of the table are those that stand. -/
theorem reverse_toList (h : Reached changes t) : t.toList.reverse = standing changes := by
  induction h with
  | empty => rfl
  | change c _ _ hchange ih =>
    rw [toList_of_change hchange, standing_concat, ← ih, List.reverse_append, List.filter_reverse]
    congr 1
    cases c <;> rfl

/-- A name has the record that its last change has left to it. -/
theorem get?_eq (h : Reached changes t) (name : Name) :
    t.get? name = lastRecord? changes name := by
  induction h with
  | empty => rfl
  | change _ _ _ hchange ih => rw [get?_of_change hchange, lastRecord?_concat, ih]

end Reached

/-- The table answers for the changes that led to it. -/
structure Reflects (changes : List (Change α)) (t : Table α) : Prop where
  /-- A name has the record that its last change has left to it. -/
  get?_eq : ∀ name, t.get? name = lastRecord? changes name
  /-- A change tells whether its name had a record. -/
  found_eq : ∀ {c forest found next left}, t.change c forest = (.ok found, next, left) →
    (found = true ↔ c.name ∈ present changes)
  /-- The table has as many entries as there are names with a record. -/
  size_eq : t.size = (present changes).card
  /-- There are as many records. -/
  size_records : t.records.size = (present changes).card
  /-- The records listed are those that the names have. -/
  mem_ordered : ∀ record, record ∈ t.ordered ↔ t.get? (Record.name record) = some record
  /-- No record is listed twice. -/
  nodup_ordered : (t.ordered.map Record.name).Nodup
  /-- The records are listed by line, and those of one line as they were stored. -/
  pairwise_ordered : t.ordered.Pairwise fun a b =>
    (Record.pos a).line < (Record.pos b).line ∨
      (Record.pos a).line = (Record.pos b).line ∧
        lastTime changes (Record.name a) < lastTime changes (Record.name b)
  /-- In whichever order the index is walked, the list is the same. -/
  orderedFrom_eq : ∀ entries, entries.Perm t.index → t.orderedFrom entries = t.ordered
  /-- If the lines never went back, the records are listed as they were stored last. -/
  ordered_eq : ((changes.filterMap Change.record?).Pairwise fun a b =>
    (Record.pos a).line ≤ (Record.pos b).line) → t.ordered = standing changes
  /-- Where records own trees that share no node, the next change does not fail. -/
  change_of_rooted : ∀ {c trees rest stray forest},
    Rooted trees rest stray (t.toList ++ c.record?.toList) forest →
      ∃ found next left, t.change c forest = (.ok found, next, left) ∧
        Rooted trees rest stray next.toList left

/-- Every table answers for the changes that led to it. -/
theorem reflects_of_reached {changes : List (Change α)} {t : Table α} (h : Reached changes t) :
    Reflects changes t := by
  have hordered : t.ordered = (standing changes).mergeSort fun a b =>
      (Record.pos a).line ≤ (Record.pos b).line := by
    rw [← h.reverse_toList, Table.ordered_eq]
  have hperm : t.ordered.Perm t.toList := by
    rw [Table.ordered_eq]
    exact (List.mergeSort_perm ..).trans (List.reverse_perm _)
  have hcard : (present changes).card = t.size := by
    have hpresent : present changes = (t.toList.map Record.name).toFinset := by
      ext name
      rw [mem_present, ← h.get?_eq, get?_eq_find?, List.find?_isSome]
      simp
    rw [hpresent, List.toFinset_card_of_nodup t.nodup_names_toList, List.length_map, length_toList]
  exact {
    get?_eq := h.get?_eq
    found_eq := fun hchange => by
      rw [found_of_change hchange, h.get?_eq, mem_present]
    size_eq := hcard.symm
    size_records := t.coherent.size_eq.trans hcard.symm
    mem_ordered := fun record => hperm.mem_iff.trans mem_toList
    nodup_ordered := (hperm.map Record.name).nodup_iff.2 t.nodup_names_toList
    pairwise_ordered := by
      rw [hordered]
      exact Sorting.pairwise_mergeSort_of_pairwise (pairwise_standing changes)
    orderedFrom_eq := fun entries => Table.orderedFrom_eq
    ordered_eq := fun hlines => by
      rw [hordered]
      refine List.mergeSort_of_pairwise ?_
      simpa using hlines.sublist (standing_sublist changes)
    change_of_rooted := Table.change_of_rooted }

/-- The theorem applies to variables of which one is removed and one is defined again, which moves
it to the end. -/
theorem reflects_of_reached_of_redefinition :
    let numbered (raw : String) (slot line : Nat) : Variable :=
      ⟨.ofText raw, ⟨slot, 0⟩, .inBuffer line⟩
    let changes : List (Change Variable) :=
      [.insert (numbered "A" 0 2), .insert (numbered "B" 1 4), .insert (numbered "C" 2 5),
        .insert (numbered "A" 3 5), .remove (.ofText "B")]
    ∃ t : Table Variable, Reached changes t ∧ Reflects changes t ∧
      t.ordered = [numbered "C" 2 5, numbered "A" 3 5] := by
  intro numbered changes
  let forest : Forest := [1.0, 2.0, 3.0, 4.0].foldl (fun left x => (left.insert (.number x)).2)
    Pool.empty
  have step {changes : List (Change Variable)} {t : Table Variable} (h : Reached changes t)
      (c : Change Variable) (hc : (t.change c forest).1.isOk = true) :
      Reached (changes ++ [c]) (t.change c forest).2.1 := by
    cases hrun : (t.change c forest).1 with
    | error => simp [hrun, Except.isOk, Except.toBool] at hc
    | ok found => exact .change c forest h (Prod.ext hrun rfl)
  have h₁ := step .empty (.insert (numbered "A" 0 2)) (by decide +kernel)
  have h₂ := step h₁ (.insert (numbered "B" 1 4)) (by decide +kernel)
  have h₃ := step h₂ (.insert (numbered "C" 2 5)) (by decide +kernel)
  have h₄ := step h₃ (.insert (numbered "A" 3 5)) (by decide +kernel)
  have h₅ := step h₄ (.remove (.ofText "B")) (by decide +kernel)
  have hreflects := reflects_of_reached h₅
  exact ⟨_, h₅, hreflects, (hreflects.ordered_eq (by decide +kernel)).trans (by decide +kernel)⟩

end Beamline.Table
