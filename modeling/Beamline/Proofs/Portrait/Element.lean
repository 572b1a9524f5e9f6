import Beamline.Proofs.Plain.Records

/-!
# Elements and what they stand for

An element in plain form lists the handles of its slots and of its transfer map. The operations on
elements are those on plain elements; an operation that sets a slot returns what the plain element
held there.

* `view_assign`, `view_assignEntry`, `view_flag`: what an accepted item does to the plain form.
* `owned_eq_exprs_view`: an element owns the expressions of its plain form.
* `Plain.Element.perm_exprs_setSlot`, `Plain.Element.perm_exprs_setEntry`: setting a slot gives up
  the expression that it held.
-/

namespace Beamline

open Beamline.Expr (NodeId Forest)
open Source (Position)

namespace Element

/-- The element in plain form, its expressions left as handles. -/
def view (e : Element) : Plain.Element NodeId where
  name := e.name
  kind := e.kind
  label := e.label
  pos := e.pos
  slots := e.slots.toList
  entries := e.map.map fun m => m.entries.toList

theorem view_blank (name : Name) (kind : Kind) (pos : Position) :
    (blank name kind pos).view = Plain.Element.blank name kind pos := by
  unfold view blank Plain.Element.blank
  simp only [Vector.toList_replicate]
  congr 1
  split
  · exact congrArg some Vector.toList_replicate
  · rfl

theorem view_setSlot (e : Element) (i : Fin e.kind.catalog.length) (id : NodeId) :
    (e.setSlot i id).2.view = e.view.setSlot i id := by
  unfold view setSlot Plain.Element.setSlot
  simp only [Vector.toList_set]

theorem fst_setSlot (e : Element) (i : Fin e.kind.catalog.length) (id : NodeId) :
    (e.setSlot i id).1 = e.view.slots[i.val]?.join := by
  change e.slots[i] = e.slots.toList[i.val]?.join
  simp

theorem view_relabel (e : Element) (label : String) :
    (e.relabel label).view = e.view.relabel label :=
  rfl

/-! ## Items -/

theorem view_assign (e : Element) {key : String} {i : Fin e.kind.catalog.length}
    (hi : e.kind.slotIndex? key = some i) (id : NodeId) :
    ∃ changed, e.assign key id = .ok (e.view.slots[i.val]?.join, changed) ∧
      changed.view = e.view.setSlot i id := by
  refine ⟨(e.setSlot i id).2, ?_, e.view_setSlot i id⟩
  rw [assign, slotIndex, hi, ← e.fst_setSlot i id]
  rfl

/-- A flag that the kind accepts stores its default. -/
theorem view_flag (e : Element) {key : String} {i : Fin e.kind.catalog.length}
    (hi : e.kind.slotIndex? key = some i) {x : Float} (hx : e.kind.flagDefault? key = some x)
    (forest : Forest) :
    ∃ changed,
      e.flag key forest =
          .ok (e.view.slots[i.val]?.join, changed, (forest.alloc (.number x)).2) ∧
        changed.view = e.view.setSlot i (forest.alloc (.number x)).1 := by
  refine ⟨(e.setSlot i (forest.alloc (.number x)).1).2, ?_, e.view_setSlot i _⟩
  rw [flag, slotIndex, hi]
  simp only [hx, ← e.fst_setSlot i (forest.alloc (.number x)).1]
  rfl

theorem flag_of_flagDefault?_eq_none (e : Element) {key : String}
    {i : Fin e.kind.catalog.length} (hi : e.kind.slotIndex? key = some i)
    (hx : e.kind.flagDefault? key = none) (forest : Forest) :
    e.flag key forest = .error (.noDefault e.kind (Text.normalize key)) := by
  rw [flag, slotIndex, hi]
  simp only [hx]
  rfl

theorem flag_of_slotIndex?_eq_none (e : Element) {key : String}
    (hi : e.kind.slotIndex? key = none) (forest : Forest) :
    e.flag key forest = .error (.unknownAttribute e.kind (Text.normalize key)) := by
  rw [flag, slotIndex, hi]
  rfl

/-- A matrix accepts an entry of its transfer map. -/
theorem view_assignEntry (e : Element) (hkind : e.kind = .matrix) (index : MapIndex)
    (id : NodeId) :
    ∃ changed, e.assignEntry index id = .ok ((e.view.cell? index).join, changed) ∧
      changed.view = e.view.setEntry index id := by
  -- a matrix has a transfer map, so that the other branch cannot be taken
  have hsome := e.isSome_map
  rw [hkind] at hsome
  unfold assignEntry
  split
  · rename_i m hm
    have hprevious : (m.set index id).1 = (e.view.cell? index).join := by
      simp [view, Plain.Element.cell?, hm, TransferMap.set, TransferMap.get?]
    rw [hprevious]
    refine ⟨_, rfl, ?_⟩
    simp [view, Plain.Element.setEntry, hm, TransferMap.set, Vector.toList_set]
  · rename_i hm
    rw [hm] at hsome
    cases hsome

/-! ## Reading -/

theorem slot?_view (e : Element) (key : String) : e.view.slot? key = e.slot? key := by
  unfold slot? Plain.Element.slot?
  change (e.kind.slotIndex? key).map (fun i => e.slots.toList[i.val]?.join) = _
  simp

theorem cell?_view (e : Element) (index : MapIndex) :
    e.view.cell? index = e.map.map fun m => m.get? index := by
  unfold Plain.Element.cell? view
  rw [Option.map_map]
  congr 1
  funext m
  simp [TransferMap.get?]

theorem length?_view (e : Element) : e.view.length? = e.length? :=
  rfl

theorem owned_eq_exprs_view (e : Element) : e.owned = e.view.exprs := by
  unfold owned Plain.Element.exprs view
  rw [Option.map_map]
  rfl

end Element

/-! ## What an item gives up -/

namespace Plain.Element

open Beamline.Element (Kind MapIndex)

variable {ε : Type}

/-- Setting a place of a list gives up what it held. -/
theorem perm_filterMap_set (x : ε) {l : List (Option ε)} {i : Nat} (hi : i < l.length) :
    (x :: l.filterMap id).Perm (l[i]?.join.toList ++ (l.set i (some x)).filterMap id) := by
  induction l generalizing i with
  | nil => cases hi
  | cons head tail ih =>
    cases i with
    | zero =>
      -- the place at the front: what it held comes out, `x` goes in
      cases head with
      | none => exact .refl _
      | some y => exact .swap _ _ _
    | succ i =>
      have ih := ih (Nat.lt_of_succ_lt_succ hi)
      rw [List.getElem?_cons_succ, List.set_cons_succ]
      cases head with
      | none => exact ih
      | some y =>
        refine (List.Perm.swap y x _).trans ((ih.cons y).trans ?_)
        exact List.perm_middle.symm

/-- Setting a slot gives up the expression that it held. -/
theorem perm_exprs_setSlot (e : Element ε) (x : ε) {i : Nat} (hi : i < e.slots.length) :
    (x :: e.exprs).Perm (e.slots[i]?.join.toList ++ (e.setSlot i x).exprs) := by
  unfold exprs setSlot
  rw [← List.cons_append, ← List.append_assoc]
  exact (perm_filterMap_set x hi).append_right _

/-- Setting an entry of a transfer map gives up the expression that it held. -/
theorem perm_exprs_setEntry (e : Element ε) (x : ε) (index : MapIndex)
    {entries : List (Option ε)} (he : e.entries = some entries) (hlength : entries.length = 252) :
    (x :: e.exprs).Perm ((e.cell? index).join.toList ++ (e.setEntry index x).exprs) := by
  have hlt : index.offset.val < entries.length := by
    rw [hlength]
    exact index.offset.isLt
  have hperm := perm_filterMap_set x hlt
  have hentry : (e.cell? index).join = entries[index.offset.val]?.join := by
    rw [cell?, he]
    rfl
  rw [hentry]
  unfold exprs setEntry
  rw [he, Option.map_some, Option.map_some, Option.getD_some, Option.map_some, Option.getD_some]
  exact List.perm_middle.symm.trans ((hperm.append_left _).trans
    (List.perm_append_comm_assoc _ _ _))

end Plain.Element

end Beamline
