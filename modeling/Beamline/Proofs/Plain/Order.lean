import Beamline.Proofs.Plain.Levels

/-!
# Records in another order

Two decks with the same constants and lines, and the same variables and elements in another order,
answer the same questions in the same way: names are looked up, and no name occurs twice. Only the
position that an error is given can differ.

* `Table.get?_eq_of_perm`: the order does not matter for a lookup.
* `Table.insert_comm`: records of different names can be stored in either order.
* `Deck.SameUpToOrder.outcome_slotValue`: values do not depend on the order.
-/

namespace Beamline.Plain

open Beamline.Expr (Term)

/-! ## Tables -/

namespace Table

variable {ρ : Type} [Named ρ] {t t' : Table ρ}

theorem perm_insert (record : ρ) (h : t.Perm t') : (insert record t).Perm (insert record t') :=
  (h.filter _).cons record

/-- Records of different names can be stored in either order. -/
theorem insert_comm {a b : ρ} (h : Named.name a ≠ Named.name b) (t : Table ρ) :
    (insert a (insert b t)).Perm (insert b (insert a t)) := by
  have hwithout {c d : ρ} (hcd : Named.name c ≠ Named.name d) :
      insert c (insert d t) =
        c :: d :: without (Named.name c) (without (Named.name d) t) := by
    rw [insert, insert, without, List.filter_cons_of_pos (by simpa using hcd.symm)]
    rfl
  have hcomm : without (Named.name a) (without (Named.name b) t) =
      without (Named.name b) (without (Named.name a) t) := by
    rw [without, without, without, without, List.filter_filter, List.filter_filter]
    exact List.filter_congr fun record _ => Bool.and_comm _ _
  -- the two new records change places in front of the same rest
  rw [hwithout h, hwithout h.symm, hcomm]
  exact List.Perm.swap b a _

/-- A record stored in place of one that was removed is stored in place of that one. -/
theorem insert_without (record : ρ) (t : Table ρ) :
    insert record (without (Named.name record) t) = insert record t := by
  rw [insert, insert, without, without, List.filter_filter]
  simp

/-- Where no name occurs twice, the record of a name is the one that has it. -/
theorem get?_eq_some_iff (hnodup : (t.map Named.name).Nodup) {name : Name} {record : ρ} :
    get? t name = some record ↔ record ∈ t ∧ Named.name record = name := by
  constructor
  · exact fun h => ⟨mem_of_get? h, name_of_get? h⟩
  · rintro ⟨hmem, rfl⟩
    induction t with
    | nil => cases hmem
    | cons head tail ih =>
      obtain ⟨hhead, htail⟩ := List.nodup_cons.1 hnodup
      rw [get?_cons]
      rcases List.mem_cons.1 hmem with rfl | hmem
      · rw [if_pos rfl]
      · -- the head has another name, as the name of the record occurs behind it
        have hne : Named.name head ≠ Named.name record := fun heq => by
          rw [heq] at hhead
          exact hhead (List.mem_map_of_mem hmem)
        rw [if_neg hne, ih htail hmem]

/-- Where no name occurs twice, the order does not matter for a lookup. -/
theorem get?_eq_of_perm (h : t.Perm t') (hnodup : (t.map Named.name).Nodup) (name : Name) :
    get? t name = get? t' name := by
  have hnodup' : (t'.map Named.name).Nodup := (h.map Named.name).nodup_iff.1 hnodup
  ext record
  rw [get?_eq_some_iff hnodup, get?_eq_some_iff hnodup', h.mem_iff]

end Table

/-! ## Symbols -/

/-- The same constants and lines, and the same variables and elements in another order. -/
structure Symbols.SameUpToOrder (s s' : Symbols Term) : Prop where
  /-- The constants are the same. -/
  consts : s.consts = s'.consts
  /-- The variables are the same, in some order. -/
  vars : s.vars.Perm s'.vars
  /-- The elements are the same, in some order. -/
  elements : s.elements.Perm s'.elements
  /-- The lines are the same. -/
  lines : s.lines = s'.lines

namespace Symbols.SameUpToOrder

variable {s s' s'' : Symbols Term}

theorem refl (s : Symbols Term) : s.SameUpToOrder s :=
  ⟨rfl, .refl _, .refl _, rfl⟩

theorem trans (h : s.SameUpToOrder s') (h' : s'.SameUpToOrder s'') : s.SameUpToOrder s'' where
  consts := h.consts.trans h'.consts
  vars := h.vars.trans h'.vars
  elements := h.elements.trans h'.elements
  lines := h.lines.trans h'.lines

/-- The expressions are the same, in some order. -/
theorem perm_exprs (h : s.SameUpToOrder s') : s.exprs.Perm s'.exprs := by
  unfold exprs
  rw [h.consts]
  exact ((h.vars.map _).append_left _).append (h.elements.flatMap_right _)

end Symbols.SameUpToOrder

/-! ## Decks -/

/-- Both decks hold the same up to order and have the same limits; no name occurs twice. -/
structure Deck.SameUpToOrder (d d' : Deck Term) : Prop where
  /-- The symbols are the same up to order. -/
  symbols : d.symbols.SameUpToOrder d'.symbols
  /-- The limits are the same. -/
  limits : d.limits = d'.limits
  /-- No two variables have one name. -/
  nodup_vars : (d.symbols.vars.map Named.name).Nodup
  /-- No two elements have one name. -/
  nodup_elements : (d.symbols.elements.map Named.name).Nodup

namespace Deck.SameUpToOrder

variable {d d' : Deck Term} (h : d.SameUpToOrder d')
include h

theorem variable_get? (name : Name) : d.symbols.vars.get? name = d'.symbols.vars.get? name :=
  Table.get?_eq_of_perm h.symbols.vars h.nodup_vars name

theorem element_get? (name : Name) :
    d.symbols.elements.get? name = d'.symbols.elements.get? name :=
  Table.get?_eq_of_perm h.symbols.elements h.nodup_elements name

theorem levels_eq (t : Term) : d.levels t = d'.levels t := by
  have hsize : d.size = d'.size := (h.symbols.perm_exprs.map Term.size).sum_nat
  rw [levels, levels, hsize, h.limits]

theorem sameLookups : d.scope.SameLookups d'.scope where
  constant? := by
    funext name
    change (d.symbols.consts.get? name).map _ = (d'.symbols.consts.get? name).map _
    rw [h.symbols.consts]
  expr? := funext fun name => congrArg (Option.map Variable.expr) (h.variable_get? name)
  length? := funext fun name => congrArg (Option.map Element.length?) (h.element_get? name)
  limit := congrArg Limits.evalDepth h.limits

/-- Evaluating a term comes to the same on both decks, but for the position of an error. -/
theorem outcome_evaluate (t : Term) (raised raised' : Array Diagnostic) :
    ((evaluate t).run ⟨d, raised⟩).1.mapError Error.unplaced =
      ((evaluate t).run ⟨d', raised'⟩).1.mapError Error.unplaced := by
  have hvisit := EvaluationScope.even_visit h.sameLookups (d.levels t) t ⟨false, raised⟩
    ⟨false, raised'⟩ (.of_not_tripped rfl rfl)
  rw [run_evaluate, run_evaluate, ← h.levels_eq]
  rcases hvisit with ⟨x, y, p, q, ha, hb, rfl, -⟩ | ⟨e, f, p, q, ha, hb, herror, -⟩
  · rw [ha, hb]
  · rw [ha, hb]
    exact congrArg Except.error herror

/-- The value of a slot is the same on both decks, but for the position of an error. -/
theorem outcome_slotValue (slot : Option (Option Term)) (raised raised' : Array Diagnostic) :
    ((slotValue slot).run ⟨d, raised⟩).1.mapError Error.unplaced =
      ((slotValue slot).run ⟨d', raised'⟩).1.mapError Error.unplaced := by
  match slot with
  | none | some none => rfl
  | some (some t) =>
    have heval := h.outcome_evaluate t raised raised'
    -- a slot that is set is evaluated, and its value is what the query answers
    have hmap (deck : Deck Term) (raised : Array Diagnostic) :
        ((slotValue (some (some t))).run ⟨deck, raised⟩).1 =
          ((evaluate t).run ⟨deck, raised⟩).1.map some := by
      rw [slotValue, map_eq_pure_bind]
      rcases hrun : (evaluate t).run ⟨deck, raised⟩ with ⟨x | x, w⟩
      · rw [run_bind_of_error hrun]
        rfl
      · rw [run_bind_of_ok hrun]
        rfl
    have hswap (outcome : Except Error Value) : (outcome.map some).mapError Error.unplaced =
        (outcome.mapError Error.unplaced).map some := by
      cases outcome <;> rfl
    rw [hmap, hmap, hswap, hswap, heval]

/-! Queries look up a slot and give its value. -/

theorem outcome_variableValue (raw : String) :
    ((variableValue raw).run ⟨d, #[]⟩).1.mapError Error.unplaced =
      ((variableValue raw).run ⟨d', #[]⟩).1.mapError Error.unplaced := by
  have hrun (deck : Deck Term) : (variableValue raw).run ⟨deck, #[]⟩ =
      (slotValue ((deck.symbols.vars.get? (Name.ofText raw)).map fun record =>
        some record.expr)).run ⟨deck, #[]⟩ := rfl
  rw [hrun, hrun, h.variable_get?]
  exact h.outcome_slotValue _ _ _

theorem outcome_attributeValue (raw key : String) :
    ((attributeValue raw key).run ⟨d, #[]⟩).1.mapError Error.unplaced =
      ((attributeValue raw key).run ⟨d', #[]⟩).1.mapError Error.unplaced := by
  have hrun (deck : Deck Term) : (attributeValue raw key).run ⟨deck, #[]⟩ =
      (slotValue ((deck.symbols.elements.get? (Name.ofText raw)).bind fun e =>
        e.slot? key)).run ⟨deck, #[]⟩ := rfl
  rw [hrun, hrun, h.element_get?]
  exact h.outcome_slotValue _ _ _

theorem outcome_entryValue (raw : String) (index : Beamline.Element.MapIndex) :
    ((entryValue raw index).run ⟨d, #[]⟩).1.mapError Error.unplaced =
      ((entryValue raw index).run ⟨d', #[]⟩).1.mapError Error.unplaced := by
  have hrun (deck : Deck Term) : (entryValue raw index).run ⟨deck, #[]⟩ =
      (slotValue ((deck.symbols.elements.get? (Name.ofText raw)).bind fun e =>
        e.cell? index)).run ⟨deck, #[]⟩ := rfl
  rw [hrun, hrun, h.element_get?]
  exact h.outcome_slotValue _ _ _

theorem outcome_elementLength (raw : String) :
    ((elementLength raw).run ⟨d, #[]⟩).1.mapError Error.unplaced =
      ((elementLength raw).run ⟨d', #[]⟩).1.mapError Error.unplaced := by
  have hrun (deck : Deck Term) : (elementLength raw).run ⟨deck, #[]⟩ =
      (slotValue ((deck.symbols.elements.get? (Name.ofText raw)).map
        Element.length?)).run ⟨deck, #[]⟩ := rfl
  rw [hrun, hrun, h.element_get?]
  exact h.outcome_slotValue _ _ _

end Deck.SameUpToOrder

end Beamline.Plain
