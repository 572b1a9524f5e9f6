import Beamline.Symbols

/-!
# Plain records

The records of a deck refer to their expressions by handle. A plain record holds its expressions
itself, in whatever form `ε` they are given: as terms in a plain deck, which stores nothing
elsewhere, and as trees with the handles of their nodes where a deck is compared with a plain one.

The records of one namespace form a list, newest first, in which no expression is shared and
nothing is ever released: a record that is replaced or removed is left out of the list.

* `Table.get?_map`: what a form of expressions does to a lookup.
* `Table.get?_insert`, `Table.get?_without`: what storing and removing do to a lookup.
-/

namespace Beamline.Plain

open Source (Position)
open Beamline.Element (Kind MapIndex)

/-! ## Tables -/

/-- A record with a name and the position of its definition. -/
class Named (ρ : Type) where
  /-- The name of the record. -/
  name : ρ → Name
  /-- Where the record was defined. -/
  pos : ρ → Position

/-- The records of one namespace, newest first. -/
abbrev Table (ρ : Type) := List ρ

namespace Table

variable {ρ ρ' : Type} [Named ρ] [Named ρ']

/-- The record of a name. -/
def get? (t : Table ρ) (name : Name) : Option ρ :=
  t.find? fun record => Named.name record = name

/-- Whether the name has a record. -/
def contains (t : Table ρ) (name : Name) : Bool :=
  (get? t name).isSome

/-- The records without that of a name. -/
def without (name : Name) (t : Table ρ) : Table ρ :=
  t.filter fun record => Named.name record ≠ name

/-- The records with a new one in place of the one that has its name. -/
def insert (record : ρ) (t : Table ρ) : Table ρ :=
  record :: without (Named.name record) t

/-- The records in the order of the lines at which they were defined; those of one line in the
order in which they were stored. -/
def ordered (t : Table ρ) : List ρ :=
  t.reverse.mergeSort fun a b => (Named.pos a).line ≤ (Named.pos b).line

theorem get?_cons (record : ρ) (t : Table ρ) (name : Name) :
    get? (record :: t) name =
      if Named.name record = name then some record else get? t name := by
  by_cases h : Named.name record = name <;> simp [get?, h]

/-- A change of the records that keeps their names commutes with a lookup. -/
theorem get?_map {f : ρ → ρ'} (hname : ∀ record, Named.name (f record) = Named.name record)
    (t : Table ρ) (name : Name) : get? (t.map f) name = (get? t name).map f := by
  induction t with
  | nil => rfl
  | cons record t ih =>
    rw [List.map_cons, get?_cons, get?_cons, hname, ih]
    by_cases h : Named.name record = name
    · rw [if_pos h, if_pos h, Option.map_some]
    · rw [if_neg h, if_neg h]

theorem contains_map {f : ρ → ρ'} (hname : ∀ record, Named.name (f record) = Named.name record)
    (t : Table ρ) (name : Name) : contains (t.map f) name = contains t name := by
  simp [contains, get?_map hname]

theorem without_map {f : ρ → ρ'} (hname : ∀ record, Named.name (f record) = Named.name record)
    (t : Table ρ) (name : Name) : without name (t.map f) = (without name t).map f := by
  simp [without, List.filter_map, Function.comp_def, hname]

theorem insert_map {f : ρ → ρ'} (hname : ∀ record, Named.name (f record) = Named.name record)
    (t : Table ρ) (record : ρ) : insert (f record) (t.map f) = (insert record t).map f := by
  rw [insert, insert, hname, without_map hname, List.map_cons]

/-- A change of the records that keeps their positions keeps their order. -/
theorem ordered_map {f : ρ → ρ'} (hpos : ∀ record, Named.pos (f record) = Named.pos record)
    (t : Table ρ) : ordered (t.map f) = (ordered t).map f := by
  rw [ordered, ordered, ← List.map_reverse, List.map_mergeSort]
  -- the sort compares lines only
  exact fun a _ b _ => by rw [hpos, hpos]

/-- Removing a record changes the lookup of its name only. -/
theorem get?_without (name : Name) (t : Table ρ) (other : Name) :
    get? (without name t) other = if other = name then none else get? t other := by
  induction t with
  | nil => simp [without, get?]
  | cons head tail ih =>
    by_cases h : Named.name head = name
    · -- the head goes, which can be found under no other name
      rw [without, List.filter_cons_of_neg (by simp [h]), ← without, ih, get?_cons]
      by_cases ho : other = name
      · simp [ho]
      · rw [if_neg ho, if_neg ho, if_neg (fun heq => ho (heq.symm.trans h))]
    · -- the head stays, and answers for its own name only
      rw [without, List.filter_cons_of_pos (by simp [h]), ← without, get?_cons, ih, get?_cons]
      by_cases ho : Named.name head = other
      · rw [if_pos ho, if_pos ho, if_neg (fun heq => h (ho.trans heq))]
      · rw [if_neg ho, if_neg ho]

/-- Storing a record changes the lookup of its name only. -/
theorem get?_insert (record : ρ) (t : Table ρ) (name : Name) :
    get? (insert record t) name =
      if name = Named.name record then some record else get? t name := by
  rw [insert, get?_cons, get?_without]
  by_cases h : name = Named.name record
  · simp [h]
  · rw [if_neg (Ne.symm h), if_neg h, if_neg h]

theorem mem_of_get? {t : Table ρ} {name : Name} {record : ρ} (h : get? t name = some record) :
    record ∈ t :=
  List.mem_of_find?_eq_some h

theorem name_of_get? {t : Table ρ} {name : Name} {record : ρ} (h : get? t name = some record) :
    Named.name record = name := by
  simpa using List.find?_some h

/-- A name without a record is not struck out. -/
theorem without_of_get?_eq_none {t : Table ρ} {name : Name} (h : get? t name = none) :
    without name t = t := by
  refine List.filter_eq_self.2 fun record hmem => ?_
  have := List.find?_eq_none.1 h record hmem
  simpa using this

theorem without_without (name : Name) (t : Table ρ) :
    without name (without name t) = without name t :=
  List.filter_filter.trans (List.filter_congr fun _ _ => Bool.and_self _)

/-- Where no name occurs twice, the records are that of a name and the others. -/
theorem perm_of_get? {t : Table ρ} (hnodup : (t.map Named.name).Nodup) {name : Name} {record : ρ}
    (h : get? t name = some record) : t.Perm (record :: without name t) := by
  induction t with
  | nil => cases h
  | cons head tail ih =>
    rw [List.map_cons, List.nodup_cons] at hnodup
    rw [get?_cons] at h
    by_cases heq : Named.name head = name
    · rw [if_pos heq] at h
      cases h
      -- the name has been found, and no other record has it
      have hfree : get? tail name = none := by
        refine List.find?_eq_none.2 fun other hmem heq' => hnodup.1 ?_
        rw [heq, ← of_decide_eq_true heq']
        exact List.mem_map_of_mem hmem
      rw [without, List.filter_cons_of_neg (by simp [heq]), ← without,
        without_of_get?_eq_none hfree]
    · rw [if_neg heq] at h
      rw [without, List.filter_cons_of_pos (by simp [heq]), ← without]
      exact ((ih hnodup.2 h).cons head).trans (.swap record head _)

end Table

/-! ## Records -/

variable {ε δ η : Type}

/-- A constant with its expression. -/
structure Constant (ε : Type) where
  /-- The name. -/
  name : Name
  /-- The value that the expression had when the constant was defined. -/
  value : Value
  /-- The expression. -/
  source : ε
  /-- Where the constant was defined. -/
  pos : Position

/-- A variable with its expression. -/
structure Variable (ε : Type) where
  /-- The name. -/
  name : Name
  /-- The expression. -/
  expr : ε
  /-- Where the variable was defined. -/
  pos : Position

/-- An element with the expressions of its attributes and of its transfer map. -/
structure Element (ε : Type) where
  /-- The name. -/
  name : Name
  /-- What the element is. -/
  kind : Kind
  /-- The label, if there is one. -/
  label : Option String
  /-- Where the element was defined. -/
  pos : Position
  /-- The expressions of the attributes, in the order of the catalog. -/
  slots : List (Option ε)
  /-- The expressions of the transfer map by place, if the element has one. -/
  entries : Option (List (Option ε))

instance : Named (Constant ε) := ⟨Constant.name, Constant.pos⟩
instance : Named (Variable ε) := ⟨Variable.name, Variable.pos⟩
instance : Named (Element ε) := ⟨Element.name, Element.pos⟩
instance : Named Line := ⟨Line.name, Line.pos⟩

namespace Constant

/-- The constant with its expression in another form. -/
def map (f : ε → δ) (c : Constant ε) : Constant δ :=
  { c with source := f c.source }

theorem name_map (f : ε → δ) (c : Constant ε) : Named.name (c.map f) = Named.name c :=
  rfl

end Constant

namespace Variable

/-- The variable with its expression in another form. -/
def map (f : ε → δ) (v : Variable ε) : Variable δ :=
  { v with expr := f v.expr }

theorem name_map (f : ε → δ) (v : Variable ε) : Named.name (v.map f) = Named.name v :=
  rfl

end Variable

namespace Element

/-- An element with nothing set. -/
def blank (name : Name) (kind : Kind) (pos : Position) : Element ε where
  name := name
  kind := kind
  label := none
  pos := pos
  slots := List.replicate kind.catalog.length none
  -- 36 entries of first order and 216 of second
  entries := if kind = .matrix then some (List.replicate 252 none) else none

/-- Sets an attribute by its place in the catalog. -/
def setSlot (i : Nat) (expr : ε) (e : Element ε) : Element ε :=
  { e with slots := e.slots.set i (some expr) }

/-- Sets an entry of the transfer map. -/
def setEntry (index : MapIndex) (expr : ε) (e : Element ε) : Element ε :=
  { e with entries := e.entries.map fun entries => entries.set index.offset (some expr) }

/-- Sets the label. -/
def relabel (label : String) (e : Element ε) : Element ε :=
  { e with label := some (Text.trim label) }

/-- The content of the slot with the given keyword: `none` if the kind has no such slot,
`some none` if nothing is set. -/
def slot? (e : Element ε) (key : String) : Option (Option ε) :=
  (e.kind.slotIndex? key).map fun i => e.slots[i.val]?.join

/-- The content of an entry of the transfer map: `none` if there is no map, `some none` if nothing
is set. -/
def cell? (e : Element ε) (index : MapIndex) : Option (Option ε) :=
  e.entries.map fun entries => entries[index.offset.val]?.join

/-- The expression of the length, if the kind has one and it is set. -/
def length? (e : Element ε) : Option ε :=
  if e.kind.hasLength then e.slots.head?.join else none

/-- The expressions that the element holds. -/
def exprs (e : Element ε) : List ε :=
  e.slots.filterMap id ++ (e.entries.map fun entries => entries.filterMap id).getD []

/-- The element with its expressions in another form. -/
def map (f : ε → δ) (e : Element ε) : Element δ where
  name := e.name
  kind := e.kind
  label := e.label
  pos := e.pos
  slots := e.slots.map (Option.map f)
  entries := e.entries.map fun entries => entries.map (Option.map f)

theorem name_map (f : ε → δ) (e : Element ε) : Named.name (e.map f) = Named.name e :=
  rfl

@[simp]
theorem kind_map (f : ε → δ) (e : Element ε) : (e.map f).kind = e.kind :=
  rfl

@[simp]
theorem map_blank (f : ε → δ) (name : Name) (kind : Kind) (pos : Position) :
    (blank name kind pos).map f = blank name kind pos := by
  simp only [map, blank, List.map_replicate, Option.map_none]
  split
  · rw [Option.map_some, List.map_replicate, Option.map_none]
  · rw [Option.map_none]

theorem map_setSlot (f : ε → δ) (i : Nat) (expr : ε) (e : Element ε) :
    (e.setSlot i expr).map f = (e.map f).setSlot i (f expr) := by
  simp [map, setSlot]

theorem map_setEntry (f : ε → δ) (index : MapIndex) (expr : ε) (e : Element ε) :
    (e.setEntry index expr).map f = (e.map f).setEntry index (f expr) := by
  simp [map, setEntry, Function.comp_def]

theorem slot?_map (f : ε → δ) (e : Element ε) (key : String) :
    (e.map f).slot? key = (e.slot? key).map (Option.map f) := by
  unfold slot?
  rw [Option.map_map]
  congr 1
  funext i
  change (e.slots.map (Option.map f))[i.val]?.join = e.slots[i.val]?.join.map f
  rw [List.getElem?_map, Option.join_map_eq_map_join]

theorem cell?_map (f : ε → δ) (e : Element ε) (index : MapIndex) :
    (e.map f).cell? index = (e.cell? index).map (Option.map f) := by
  unfold cell? map
  rw [Option.map_map, Option.map_map]
  congr 1
  funext entries
  simp only [Function.comp_apply]
  rw [List.getElem?_map, Option.join_map_eq_map_join]

theorem length?_map (f : ε → δ) (e : Element ε) : (e.map f).length? = e.length?.map f := by
  unfold length? map
  split
  · rw [List.head?_map, Option.join_map_eq_map_join]
  · rfl

/-- The expressions in another form. -/
theorem exprs_map (f : ε → δ) (e : Element ε) : (e.map f).exprs = e.exprs.map f := by
  -- slots and entries are both lists of places that may be empty
  have hlist : ∀ l : List (Option ε),
      (l.map (Option.map f)).filterMap id = (l.filterMap id).map f := by
    intro l
    rw [List.filterMap_map, List.map_filterMap]
    rfl
  unfold exprs map
  rw [List.map_append, hlist]
  congr 1
  cases e.entries with
  | none => rfl
  | some entries => exact hlist entries

/-- Forms that agree on the expressions give the same element. -/
theorem map_congr {e : Element ε} {f f' : ε → δ} (h : ∀ x ∈ e.exprs, f x = f' x) :
    e.map f = e.map f' := by
  have hlist {l : List (Option ε)} (hl : ∀ x ∈ l.filterMap id, f x = f' x) :
      l.map (Option.map f) = l.map (Option.map f') := by
    refine List.map_congr_left fun o ho => ?_
    cases o with
    | none => rfl
    -- a place that is filled holds one of the expressions
    | some x => exact congrArg some (hl x (List.mem_filterMap.2 ⟨some x, ho, rfl⟩))
  have hslots := hlist fun x hx => h x (List.mem_append_left _ hx)
  have hentries : (e.entries.map fun entries => entries.map (Option.map f)) =
      e.entries.map fun entries => entries.map (Option.map f') := by
    cases hcases : e.entries with
    | none => rfl
    | some entries =>
      refine congrArg some (hlist fun x hx => h x (List.mem_append_right _ ?_))
      rw [hcases]
      exact hx
  unfold map
  rw [hslots, hentries]

theorem map_map (f : ε → δ) (f' : δ → η) (e : Element ε) :
    (e.map f).map f' = e.map (f' ∘ f) := by
  simp [map, Function.comp_def]

theorem exprs_blank (name : Name) (kind : Kind) (pos : Position) :
    (blank name kind pos : Element ε).exprs = [] := by
  rw [exprs, blank, List.filterMap_replicate_of_none rfl]
  split
  · rw [Option.map_some, List.filterMap_replicate_of_none rfl]
    rfl
  · rfl

/-- The length of an element is one of its expressions. -/
theorem mem_exprs_of_length? {e : Element ε} {x : ε} (h : e.length? = some x) : x ∈ e.exprs := by
  unfold length? at h
  split at h
  · refine List.mem_append_left _ (List.mem_filterMap.2 ⟨some x, ?_, rfl⟩)
    rw [Option.join_eq_some_iff] at h
    exact List.mem_of_mem_head? h
  · cases h

theorem mem_exprs_of_slot? {e : Element ε} {key : String} {x : ε}
    (h : e.slot? key = some (some x)) : x ∈ e.exprs := by
  obtain ⟨i, -, hi⟩ := Option.map_eq_some_iff.1 h
  rw [Option.join_eq_some_iff] at hi
  exact List.mem_append_left _ (List.mem_filterMap.2 ⟨some x, List.mem_of_getElem? hi, rfl⟩)

theorem mem_exprs_of_cell? {e : Element ε} {index : MapIndex} {x : ε}
    (h : e.cell? index = some (some x)) : x ∈ e.exprs := by
  obtain ⟨entries, hentries, hi⟩ := Option.map_eq_some_iff.1 h
  rw [Option.join_eq_some_iff] at hi
  refine List.mem_append_right _ ?_
  rw [hentries]
  exact List.mem_filterMap.2 ⟨some x, List.mem_of_getElem? hi, rfl⟩

end Element

/-! ## The four namespaces -/

/-- The four namespaces. -/
structure Symbols (ε : Type) where
  /-- The constants. -/
  consts : Table (Constant ε)
  /-- The variables. -/
  vars : Table (Variable ε)
  /-- The elements. -/
  elements : Table (Element ε)
  /-- The lines. -/
  lines : Table Line

namespace Symbols

/-- No symbol defined. -/
def empty : Symbols ε where
  consts := []
  vars := []
  elements := []
  lines := []

/-- The symbols with their expressions in another form. -/
def map (f : ε → δ) (symbols : Symbols ε) : Symbols δ where
  consts := symbols.consts.map (Constant.map f)
  vars := symbols.vars.map (Variable.map f)
  elements := symbols.elements.map (Element.map f)
  lines := symbols.lines

/-- The expressions that the records hold. -/
def exprs (symbols : Symbols ε) : List ε :=
  symbols.consts.map Constant.source ++ symbols.vars.map Variable.expr ++
    symbols.elements.flatMap Element.exprs

/-- The expressions in another form. -/
theorem exprs_map (f : ε → δ) (symbols : Symbols ε) :
    (symbols.map f).exprs = symbols.exprs.map f := by
  simp only [exprs, map, List.map_append, List.map_map, List.flatMap_map, List.map_flatMap,
    Element.exprs_map]
  rfl

/-- Forms that agree on the expressions of the records give the same records. -/
theorem map_congr {symbols : Symbols ε} {f f' : ε → δ}
    (h : ∀ x ∈ symbols.exprs, f x = f' x) : symbols.map f = symbols.map f' := by
  unfold map
  -- namespace by namespace, as lines hold no expressions
  congr 1
  · refine List.map_congr_left fun c hc => ?_
    have hsource := h c.source
      (List.mem_append_left _ (List.mem_append_left _ (List.mem_map_of_mem hc)))
    rw [Constant.map, Constant.map, hsource]
  · refine List.map_congr_left fun v hv => ?_
    have hexpr := h v.expr
      (List.mem_append_left _ (List.mem_append_right _ (List.mem_map_of_mem hv)))
    rw [Variable.map, Variable.map, hexpr]
  · refine List.map_congr_left fun e he => Element.map_congr fun x hx => ?_
    exact h x (List.mem_append_right _ (List.mem_flatMap.2 ⟨e, he, hx⟩))

theorem map_map (f : ε → δ) (f' : δ → η) (symbols : Symbols ε) :
    (symbols.map f).map f' = symbols.map (f' ∘ f) := by
  simp only [map, List.map_map]
  congr 1
  exact List.map_congr_left fun e _ => Element.map_map f f' e

end Symbols

end Beamline.Plain
