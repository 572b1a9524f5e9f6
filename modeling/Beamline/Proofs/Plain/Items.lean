import Mathlib.Data.List.Induction
import Beamline.Proofs.Plain.Deferral
import Beamline.Proofs.Plain.Terms

/-!
# What items make of an element

An item of a definition stores an expression in a place of the element, or gives the label, or is
ignored with a warning. Which of these depends on the kind of the element and on the item alone. So
what an element holds when all items are entered can be read off the items: in each place what the
last item has stored there.

* `Element.Item.role`: what an item does.
* `Element.content?_foldl_play`: the last item decides on a place.
* `Deck.run_enterItems_of_ok`: the element, and what is raised on the way.
-/

namespace Beamline

open Source (Position)
open Diagnostic (Condition)
open Beamline.Expr (Formula Term)

/-! ## Roles -/

namespace Element

/-- A place where an element can hold an expression. -/
inductive Place where
  /-- An attribute, by its place in the catalog of the kind. -/
  | slot (i : Nat)
  /-- An entry of the transfer map. -/
  | entry (index : MapIndex)
  deriving DecidableEq

/-- Elements of the kind have the place. -/
def Kind.Has (kind : Kind) : Place → Prop
  | .slot i => i < kind.catalog.length
  | .entry _ => kind = .matrix

/-- What an item of a definition does. -/
inductive Role where
  /-- It stores an expression in a place. -/
  | store (place : Place) (value : Formula)
  /-- It gives the label. -/
  | label (text : String)
  /-- It is ignored. -/
  | ignored (condition : Condition)

namespace Role

/-- The expression that is stored in the place, if one is. -/
def stored? (place : Place) : Role → Option Formula
  | .store other value => if other = place then some value else none
  | _ => none

/-- The label that is given, if one is. -/
def label? : Role → Option String
  | .label text => some text
  | _ => none

/-- Whether the item is ignored. -/
def isIgnored : Role → Bool
  | .ignored _ => true
  | _ => false

/-- What is stored is stored in a place that elements of the kind have. -/
def Fits (kind : Kind) (role : Role) : Prop :=
  ∀ place value, role = .store place value → kind.Has place

theorem Fits.of_store {kind : Kind} {place : Place} (value : Formula) (h : kind.Has place) :
    (store place value).Fits kind := by
  rintro _ _ ⟨⟩
  exact h

end Role

/-- What an item for an entry of the transfer map does. -/
def entryRole (kind : Kind) (name : Name) (index : Option MapIndex) (written : String)
    (value : Formula) : Role :=
  if kind ≠ .matrix then .ignored (.notAMatrix name kind)
  else
    match index with
    | none => .ignored (.indexOutOfRange written)
    | some index => .store (.entry index) value

/-- The label that an assignment gives, if it gives one. -/
def assignedLabel? (key : String) (value : Formula) : Option String :=
  if Text.normalize key = "TYPE" then Deck.labelOf? value else none

/-- What an assignment does. -/
def assignRole (kind : Kind) (key : String) (value : Formula) : Role :=
  match assignedLabel? key value with
  | some text => .label text
  | none =>
    match kind.slotIndex? key with
    | some i => .store (.slot i) value
    | none => .ignored (.unknownAttribute kind (Text.normalize key))

/-- What an attribute without a value does. -/
def flagRole (kind : Kind) (key : String) : Role :=
  match kind.slotIndex? key with
  | none => .ignored (.unknownAttribute kind (Text.normalize key))
  | some i =>
    match kind.flagDefault? key with
    | some x => .store (.slot i) (.number x)
    | none => .ignored (.attributeNeedsValue kind (Text.normalize key))

/-- What an item does in the definition of an element. -/
def Item.role (kind : Kind) (name : Name) : Item → Role
  | .assign key value => assignRole kind key value
  | .flag key => flagRole kind key
  | .label text => .label text
  | .rm i j value => entryRole kind name (MapIndex.rm? i j) (Deck.writtenIndex [i, j]) value
  | .tm i j k value => entryRole kind name (MapIndex.tm? i j k) (Deck.writtenIndex [i, j, k]) value

theorem fits_entryRole (kind : Kind) (name : Name) (index : Option MapIndex) (written : String)
    (value : Formula) : (entryRole kind name index written value).Fits kind := by
  unfold entryRole
  by_cases hkind : kind = .matrix
  · rw [if_neg (not_not.2 hkind)]
    cases index with
    | none => nofun
    | some index => exact .of_store value hkind
  · rw [if_pos hkind]
    nofun

theorem fits_assignRole (kind : Kind) (key : String) (value : Formula) :
    (assignRole kind key value).Fits kind := by
  unfold assignRole
  cases assignedLabel? key value with
  | some text => nofun
  | none =>
    cases kind.slotIndex? key with
    | none => nofun
    | some i => exact .of_store value i.isLt

theorem fits_flagRole (kind : Kind) (key : String) : (flagRole kind key).Fits kind := by
  unfold flagRole
  cases kind.slotIndex? key with
  | none => nofun
  | some i =>
    cases kind.flagDefault? key with
    | none => nofun
    | some x => exact .of_store _ i.isLt

/-- An item stores only where elements of the kind can hold an expression. -/
theorem Item.fits_role (kind : Kind) (name : Name) (item : Item) :
    (item.role kind name).Fits kind := by
  cases item with
  | assign key value => exact fits_assignRole kind key value
  | flag key => exact fits_flagRole kind key
  | label text => nofun
  | rm i j value => exact fits_entryRole kind name _ _ value
  | tm i j k value => exact fits_entryRole kind name _ _ value

/-- The items that are not ignored in the definition of an element. -/
def accepted (kind : Kind) (name : Name) (items : List Item) : List Item :=
  items.filter fun item => !(item.role kind name).isIgnored

end Element

namespace Plain

open Beamline.Element (Item Kind Place Role)

/-! ## Places -/

namespace Element

variable {ε : Type} {kind : Kind} {e : Element ε} {place : Place}

/-- The element has all places of the kind, and no others. -/
structure Shaped (kind : Kind) (e : Element ε) : Prop where
  /-- It is of the kind. -/
  kind_eq : e.kind = kind
  /-- It has a slot for each attribute. -/
  slots : e.slots.length = kind.catalog.length
  /-- Exactly a matrix has a transfer map. -/
  entries : e.entries.map List.length = if kind = .matrix then some 252 else none

/-- Puts an expression in a place. -/
def put (place : Place) (x : ε) (e : Element ε) : Element ε :=
  match place with
  | .slot i => e.setSlot i x
  | .entry index => e.setEntry index x

/-- The expression in a place, if there is one. -/
def content? (e : Element ε) : Place → Option ε
  | .slot i => e.slots[i]?.join
  | .entry index => (e.cell? index).join

theorem shaped_blank (name : Name) (kind : Kind) (pos : Position) :
    (blank name kind pos : Element ε).Shaped kind := by
  refine ⟨rfl, List.length_replicate, ?_⟩
  unfold blank
  by_cases hkind : kind = .matrix
  · rw [if_pos hkind, if_pos hkind, Option.map_some, List.length_replicate]
  · rw [if_neg hkind, if_neg hkind, Option.map_none]

theorem join_getElem?_replicate_none (n i : Nat) :
    (List.replicate n (none : Option ε))[i]?.join = none := by
  rw [List.getElem?_replicate]
  split <;> rfl

theorem content?_blank (name : Name) (kind : Kind) (pos : Position) (place : Place) :
    (blank name kind pos : Element ε).content? place = none := by
  cases place with
  | slot i => exact join_getElem?_replicate_none _ i
  | entry index =>
    unfold content? cell? blank
    dsimp only
    by_cases hkind : kind = .matrix
    · rw [if_pos hkind, Option.map_some]
      exact join_getElem?_replicate_none 252 index.offset
    · rw [if_neg hkind]
      rfl

theorem Shaped.put (h : e.Shaped kind) (place : Place) (x : ε) : (e.put place x).Shaped kind := by
  cases place with
  | slot i => exact ⟨h.kind_eq, (List.length_set ..).trans h.slots, h.entries⟩
  | entry index =>
    refine ⟨h.kind_eq, h.slots, ?_⟩
    rw [← h.entries]
    simp [Element.put, setEntry, Function.comp_def]

theorem Shaped.relabel (h : e.Shaped kind) (text : String) : (e.relabel text).Shaped kind :=
  ⟨h.kind_eq, h.slots, h.entries⟩

theorem Shaped.exists_entries (h : e.Shaped .matrix) :
    ∃ entries, e.entries = some entries ∧ entries.length = 252 :=
  Option.map_eq_some_iff.1 h.entries

/-- What is put in a place is found there, and what is in other places stays. -/
theorem Shaped.content?_put (h : e.Shaped kind) (hplace : kind.Has place) (x : ε) (other : Place) :
    (e.put place x).content? other = if place = other then some x else e.content? other := by
  match place, other with
  | .slot i, .slot j =>
    have hi : i < e.slots.length := h.slots.symm ▸ hplace
    by_cases hij : i = j
    · subst hij
      simp [Element.put, content?, setSlot, hi]
    · simp [Element.put, content?, setSlot, hij]
  | .slot i, .entry index => rfl
  | .entry index, .slot i => rfl
  | .entry index, .entry index' =>
    -- only a matrix has the place
    obtain rfl : kind = .matrix := hplace
    obtain ⟨entries, hentries, hlength⟩ := h.exists_entries
    by_cases hindex : index = index'
    · subst hindex
      simp [Element.put, content?, cell?, setEntry, hentries, hlength]
    · have hoffset : index.offset.val ≠ index'.offset.val := fun heq =>
        hindex (Element.MapIndex.offset_inj.1 (Fin.ext heq))
      simp [Element.put, content?, cell?, setEntry, hentries, hindex, hoffset]

/-- A keyword of the catalog leads to the place of its attribute. -/
theorem Shaped.slot?_eq (h : e.Shaped kind) (key : String) :
    e.slot? key = (kind.slotIndex? key).map fun i => e.content? (.slot i.val) := by
  obtain rfl := h.kind_eq
  rfl

/-- Exactly a matrix has entries. -/
theorem Shaped.cell?_eq (h : e.Shaped kind) (index : Element.MapIndex) :
    e.cell? index = if kind = .matrix then some (e.content? (.entry index)) else none := by
  have hentries := h.entries
  unfold content? cell?
  cases he : e.entries with
  | none =>
    split
    · rename_i hkind
      rw [he, if_pos hkind] at hentries
      cases hentries
    · rfl
  | some entries =>
    split
    · rfl
    · rename_i hkind
      rw [he, if_neg hkind] at hentries
      cases hentries

/-! ## Items in order -/

/-- What an item with the role makes of the element. -/
def play (term : Formula → ε) (e : Element ε) : Role → Element ε
  | .store place value => e.put place (term value)
  | .label text => e.relabel text
  | .ignored _ => e

variable {term : Formula → ε}

theorem Shaped.play (h : e.Shaped kind) (role : Role) : (e.play term role).Shaped kind := by
  cases role with
  | store place value => exact h.put place (term value)
  | label text => exact h.relabel text
  | ignored condition => exact h

theorem Shaped.foldl_play (h : e.Shaped kind) (roles : List Role) :
    (roles.foldl (Element.play term) e).Shaped kind := by
  induction roles generalizing e with
  | nil => exact h
  | cons role roles ih => exact ih (h.play role)

theorem name_play (e : Element ε) (role : Role) : (e.play term role).name = e.name := by
  cases role with
  | store place value => cases place <;> rfl
  | label text => rfl
  | ignored condition => rfl

theorem pos_play (e : Element ε) (role : Role) : (e.play term role).pos = e.pos := by
  cases role with
  | store place value => cases place <;> rfl
  | label text => rfl
  | ignored condition => rfl

theorem kind_play (e : Element ε) (role : Role) : (e.play term role).kind = e.kind := by
  cases role with
  | store place value => cases place <;> rfl
  | label text => rfl
  | ignored condition => rfl

theorem name_foldl_play (e : Element ε) (roles : List Role) :
    (roles.foldl (play term) e).name = e.name := by
  induction roles generalizing e with
  | nil => rfl
  | cons role roles ih => exact (ih _).trans (name_play e role)

theorem pos_foldl_play (e : Element ε) (roles : List Role) :
    (roles.foldl (play term) e).pos = e.pos := by
  induction roles generalizing e with
  | nil => rfl
  | cons role roles ih => exact (ih _).trans (pos_play e role)

theorem Shaped.content?_play (h : e.Shaped kind) {role : Role} (hrole : role.Fits kind)
    (place : Place) :
    (e.play term role).content? place =
      ((role.stored? place).map term).or (e.content? place) := by
  cases role with
  | store other value =>
    have hput := h.content?_put (hrole other value rfl) (term value) place
    change (e.put other (term value)).content? place = _
    rw [hput]
    unfold Role.stored?
    by_cases hother : other = place
    · simp [hother]
    · simp [hother]
  | label text => cases place <;> rfl
  | ignored condition => rfl

/-- A place holds what the last item has stored there, if any has. -/
theorem Shaped.content?_foldl_play (h : e.Shaped kind) {roles : List Role}
    (hroles : ∀ role ∈ roles, role.Fits kind) (place : Place) :
    (roles.foldl (Element.play term) e).content? place =
      ((roles.filterMap (Role.stored? place)).getLast?.map term).or (e.content? place) := by
  -- by induction from the end, where the last item has the last word
  induction roles using List.reverseRecOn with
  | nil => rfl
  | append_singleton roles role ih =>
    have hlast : role.Fits kind := hroles role (by simp)
    have hbefore := ih fun r hr => hroles r (by simp [hr])
    rw [List.foldl_append, List.foldl_cons, List.foldl_nil,
      (h.foldl_play roles).content?_play hlast, hbefore, List.filterMap_append]
    cases hstored : role.stored? place with
    | none => simp only [List.filterMap_cons_none hstored, List.filterMap_nil, List.append_nil,
        Option.map_none, Option.none_or]
    | some value => simp only [List.filterMap_cons_some hstored, List.filterMap_nil,
        List.getLast?_concat, Option.map_some, Option.some_or]

/-- The label is what the last item that gives one says, without the blanks around it. -/
theorem label_foldl_play (e : Element ε) (roles : List Role) :
    (roles.foldl (play term) e).label =
      ((roles.filterMap Role.label?).getLast?.map Text.trim).or e.label := by
  induction roles using List.reverseRecOn with
  | nil => rfl
  | append_singleton roles role ih =>
    rw [List.foldl_append, List.foldl_cons, List.foldl_nil, List.filterMap_append]
    cases role with
    | store place value =>
      have hput : ((roles.foldl (play term) e).put place (term value)).label =
          (roles.foldl (play term) e).label := by
        cases place <;> rfl
      simpa [Role.label?, play, hput] using ih
    | label text => simp [Role.label?, play, relabel]
    | ignored condition => simpa [Role.label?, play] using ih

end Element

/-! ## Actions -/

/-- What entering an item with the role raises. -/
def LoweringScope.roleWarnings (scope : LoweringScope) : Role → List Diagnostic
  | .store _ value => scope.warnings value
  | .label _ => []
  | .ignored condition => [condition.diagnostic scope.pos]

namespace Deck

variable {e e' : Element Term} {w w' : Work}

/-- The scope in which the expressions of items are lowered. -/
def itemScope (deck : Deck Term) : LoweringScope :=
  deck.symbols.loweringScope deck.pos false

/-- Enters an item with the role. -/
def enterRole (e : Element Term) : Role → Action (Element Term)
  | .store place value => return e.put place (← lower value)
  | .label text => return e.relabel text
  | .ignored condition => do
    raise condition
    return e

theorem entryItem_eq (e : Element Term) (index : Option Element.MapIndex) (written : String)
    (value : Formula) :
    entryItem e index written value =
      enterRole e (Element.entryRole e.kind e.name index written value) := by
  unfold entryItem Element.entryRole
  by_cases hkind : e.kind = .matrix
  · rw [if_neg (not_not.2 hkind), if_neg (not_not.2 hkind)]
    cases index with
    | none => rfl
    | some index => rfl
  · rw [if_pos hkind, if_pos hkind]
    rfl

theorem assignItem_eq (e : Element Term) (key : String) (value : Formula) :
    assignItem e key value = enterRole e (Element.assignRole e.kind key value) := by
  unfold assignItem Element.assignRole
  rw [← Element.assignedLabel?]
  cases Element.assignedLabel? key value with
  | some text => rfl
  | none =>
    cases e.kind.slotIndex? key with
    | none => rfl
    | some i => rfl

theorem flagItem_eq (e : Element Term) (key : String) :
    flagItem e key = enterRole e (Element.flagRole e.kind key) := by
  unfold flagItem Element.flagRole
  cases e.kind.slotIndex? key with
  | none => rfl
  | some i =>
    cases e.kind.flagDefault? key with
    | none => rfl
    | some x => rfl

/-- An item is entered as its role says. -/
theorem enterItem_eq (e : Element Term) (item : Item) :
    enterItem e item = enterRole e (item.role e.kind e.name) := by
  cases item with
  | assign key value => exact assignItem_eq e key value
  | flag key => exact flagItem_eq e key
  | label text => rfl
  | rm i j value => exact entryItem_eq e _ _ value
  | tm i j k value => exact entryItem_eq e _ _ value

/-- Lowering that comes to a term comes to that of the formula. -/
theorem run_lower_of_ok {formula : Formula} {t : Term}
    (h : (lower formula).run w = (.ok t, w')) :
    t = formula.term w.deck.itemScope.constant? ∧ w'.deck = w.deck ∧
      w'.raised.toList = w.raised.toList ++ w.deck.itemScope.warnings formula := by
  rw [lower, lowerWith, run_observe] at h
  rcases hrun : (w.deck.itemScope.lower formula false).run w.raised with ⟨outcome, raised⟩
  have hrun' : ((w.deck.symbols.loweringScope w.deck.pos false).lower formula false).run w.raised =
      (outcome, raised) := hrun
  rw [hrun'] at h
  cases h
  obtain ⟨ht, hraised⟩ := w.deck.itemScope.comes_lower rfl formula false _ _ _ hrun
  exact ⟨ht, rfl, hraised⟩

theorem run_enterRole_of_ok {role : Role} (h : (enterRole e role).run w = (.ok e', w')) :
    e' = e.play (Formula.term w.deck.itemScope.constant?) role ∧ w'.deck = w.deck ∧
      w'.raised.toList = w.raised.toList ++ w.deck.itemScope.roleWarnings role := by
  cases role with
  | store place value =>
    unfold enterRole at h
    obtain ⟨t, v, hlower, hput⟩ := exists_of_run_bind h
    cases hput
    obtain ⟨rfl, hdeck, hraised⟩ := run_lower_of_ok hlower
    exact ⟨rfl, hdeck, hraised⟩
  | label text =>
    cases h
    exact ⟨rfl, rfl, (List.append_nil _).symm⟩
  | ignored condition =>
    cases h
    exact ⟨rfl, rfl, Array.toList_push⟩

/-- Items that are all entered make of the element what their roles say, one after the other. -/
theorem run_enterItems_of_ok {items : List Item}
    (h : (items.foldlM enterItem e).run w = (.ok e', w')) :
    let roles := items.map (Item.role e.kind e.name)
    e' = roles.foldl (Element.play (Formula.term w.deck.itemScope.constant?)) e ∧
      w'.deck = w.deck ∧
      w'.raised.toList =
        w.raised.toList ++ roles.flatMap w.deck.itemScope.roleWarnings := by
  induction items generalizing e w with
  | nil =>
    cases h
    exact ⟨rfl, rfl, (List.append_nil _).symm⟩
  | cons item items ih =>
    rw [List.foldlM_cons] at h
    obtain ⟨x, v, hitem, hrest⟩ := exists_of_run_bind h
    rw [enterItem_eq] at hitem
    obtain ⟨hx, hdeck, hraised⟩ := run_enterRole_of_ok hitem
    -- the element keeps its kind and its name, and with them the roles of the items to come
    have hkind : x.kind = e.kind := by rw [hx, Element.kind_play]
    have hname : x.name = e.name := by rw [hx, Element.name_play]
    obtain ⟨he', hdeck', hraised'⟩ := ih hrest
    rw [hkind, hname, hdeck] at he' hraised'
    refine ⟨?_, hdeck'.trans hdeck, ?_⟩
    · rw [he', hx]
      rfl
    · rw [hraised', hraised, List.append_assoc]
      rfl

/-- The deck from which the element of a name is gone. -/
def withoutElement (deck : Deck Term) (name : Name) : Deck Term :=
  { deck with symbols := { deck.symbols with elements := deck.symbols.elements.without name } }

/-- The element that is defined by items that are all entered. -/
def definedElement (deck : Deck Term) (name : Name) (kind : Kind) (items : List Item) :
    Element Term :=
  (items.map (Item.role kind name)).foldl (Element.play (Formula.term deck.itemScope.constant?))
    (Element.blank name kind deck.pos)

/-- A definition that is done stores the element that its items define, and has raised the warning
about an element of the name that was replaced and those of the items in order. -/
theorem run_defineElement_of_ok {raw : String} {kind : Kind} {items : List Item}
    (h : (defineElement raw kind items).run w = (.ok (), w')) :
    let name := Name.ofText raw
    let removed := w.deck.withoutElement name
    w'.deck = { removed with symbols := { removed.symbols with
        elements := w.deck.definedElement name kind items :: removed.symbols.elements } } ∧
      w'.raised.toList = w.raised.toList ++
        ((if w.deck.symbols.elements.contains name then
            [(Condition.elementRedefined name).diagnostic w.deck.pos] else []) ++
          (items.map (Item.role kind name)).flatMap removed.itemScope.roleWarnings) := by
  intro name removed
  let told : Array Diagnostic :=
    if w.deck.symbols.elements.contains name then
      w.raised.push ((Condition.elementRedefined name).diagnostic w.deck.pos)
    else w.raised
  have htold : told.toList = w.raised.toList ++
      if w.deck.symbols.elements.contains name then
        [(Condition.elementRedefined name).diagnostic w.deck.pos] else [] := by
    by_cases hcontains : w.deck.symbols.elements.contains name = true
    · simp [told, hcontains]
    · simp [told, hcontains]
  have hrun : (items.foldlM enterItem (Element.blank name kind w.deck.pos) >>= insertElement).run
      ⟨removed, told⟩ = (.ok (), w') := (run_defineElement_eq raw kind items w).symm.trans h
  obtain ⟨e, v, hitems, hinserted⟩ := exists_of_run_bind hrun
  cases hinserted
  obtain ⟨he, hdeck, hraised⟩ := run_enterItems_of_ok hitems
  have hname : e.name = name := by rw [he, Element.name_foldl_play, Element.blank]
  -- the element of that name is gone, so that there is none to replace
  have hinsert : Table.insert e removed.symbols.elements = e :: removed.symbols.elements := by
    have hwithout : removed.symbols.elements.without name = removed.symbols.elements :=
      Table.without_without name _
    rw [Table.insert, show Named.name e = name from hname, hwithout]
  constructor
  · show ({ v.deck with symbols := { v.deck.symbols with
      elements := v.deck.symbols.elements.insert e } } : Deck Term) = _
    rw [hdeck]
    show ({ removed with symbols := { removed.symbols with
      elements := Table.insert e removed.symbols.elements } } : Deck Term) = _
    rw [hinsert, he]
    rfl
  · show v.raised.toList = _
    rw [hraised, htold, List.append_assoc]
    rfl

end Deck

end Plain

end Beamline
