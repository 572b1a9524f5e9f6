import Beamline.Proofs.Session.Immediate
import Beamline.Proofs.Session.Meaning
import Beamline.Proofs.Session.Names
import Beamline.Proofs.Spelling

/-!
# Queries and expressions read the same

A constant, a variable and the length of an element can be asked for by name, and they can be named
in a formula. The formula is stored as a node of its own, which is told apart by the names that are
defined, and which the evaluation follows into what the name stands for. Both ways come to the same
value or the same error.

* `Plain.Deck.run_evaluate_of_leads`: a node that only leads on to another.
* `Deck.Depicts.lowerEvaluate_eq`: a formula that is stored and evaluated, by the plain deck.
* `Session.lowerEvaluate_eq_query`: identifiers and queries, in every session.
-/

namespace Beamline

open Source (Position)
open Beamline.Expr (Formula NodeId Term Tree)

/-! ## Plain decks -/

namespace Plain

/-- Without a limit no evaluation is cut short. -/
theorem EvaluationScope.tripped_eq_false_of_unlimited {scope : EvaluationScope}
    (hlimit : scope.limit = 0) (levels : Nat) (t : Term) {p : Progress} (hp : p.tripped = false) :
    ((scope.visit levels t).run p).2.tripped = false := by
  have heven := even_visit (SameLookups.refl scope) levels t p p (.of_not_tripped hp hp)
  rcases heven with ⟨x, y, p', q', ha, -, -, heven⟩ | ⟨e, d, p', q', ha, -, -, -, heven⟩
  · rw [ha]
    exact heven.unlimited hlimit
  · rw [ha]
    exact heven.unlimited hlimit

namespace Deck

variable {deck : Deck Term} {raised : Array Diagnostic} {raw : String} {t u : Term}

theorem exists_levels_eq_succ (deck : Deck Term) (hsize : t.size = 1) (u : Term) :
    ∃ n, deck.levels t = n + 1 ∧ n ≤ deck.levels u := by
  unfold levels
  split
  · exact ⟨deck.size, by rw [hsize], Nat.le_add_right ..⟩
  · exact ⟨deck.limits.evalDepth - 1, by omega, by omega⟩

/-- The evaluation of a node that only leads on to another term is that of the term, unless it gives
up: the level that the node takes is not needed. -/
theorem run_evaluate_of_leads (hsize : t.size = 1)
    (hnode : ∀ visit, deck.scope.node visit t = visit u) (h : ¬deck.GivesUp t) :
    (evaluate t).run ⟨deck, #[]⟩ = (evaluate u).run ⟨deck, #[]⟩ := by
  obtain ⟨n, hlevels, hle⟩ := exists_levels_eq_succ deck hsize u
  have hvisit : (deck.scope.visit (deck.levels t) t).run ⟨false, #[]⟩ =
      (deck.scope.visit n u).run ⟨false, #[]⟩ := by
    rw [hlevels, EvaluationScope.visit, hnode]
    exact EvaluationScope.run_unlessTripped_of_not_tripped _ rfl
  have hcomplete := Classical.not_not.1 h
  rw [hvisit] at hcomplete
  have hbelow :=
    (EvaluationScope.visit_below hle deck.scope.limit u).run_eq ⟨false, #[]⟩ rfl hcomplete
  rw [run_evaluate, run_evaluate]
  dsimp only
  rw [hvisit, ← hbelow]

/-- The evaluation of a node that leads nowhere is what the node does. -/
theorem run_evaluate_of_leaf (hsize : t.size = 1) {v : Value}
    (hnode : ∀ visit, deck.scope.node visit t = pure v) :
    (evaluate t).run ⟨deck, #[]⟩ = (.ok v, ⟨deck, #[]⟩) := by
  obtain ⟨n, hlevels, -⟩ := exists_levels_eq_succ deck hsize t
  have hvisit : (deck.scope.visit (deck.levels t) t).run ⟨false, #[]⟩ = (.ok v, ⟨false, #[]⟩) := by
    rw [hlevels, EvaluationScope.visit, hnode]
    rfl
  rw [run_evaluate]
  dsimp only
  rw [hvisit]

/-! ### Identifiers -/

theorem run_lower (formula : Formula) (w : Work) :
    (lower formula).run w =
      ((((w.deck.symbols.loweringScope w.deck.pos false).lower formula false).run w.raised).1,
        { w with raised :=
            (((w.deck.symbols.loweringScope w.deck.pos false).lower formula false).run
              w.raised).2 }) :=
  rfl

/-- The identifier of a constant is stored as one, and evaluated to its value. -/
theorem exists_run_lower_constant (raised : Array Diagnostic) {value : Value}
    (h : deck.scope.constant? (Name.ofText raw) = some value) :
    ∃ t : Term, (lower (.name raw)).run ⟨deck, raised⟩ = (.ok t, ⟨deck, raised⟩) ∧
      (evaluate t).run ⟨deck, #[]⟩ = (.ok value, ⟨deck, #[]⟩) := by
  have hconstant : (deck.symbols.loweringScope deck.pos false).constant? (Name.ofText raw) =
      some value := h
  cases value with
  | number x =>
    refine ⟨.numberConstant (Name.ofText raw), ?_, run_evaluate_of_leaf rfl fun visit => ?_⟩
    · rw [run_lower, LoweringScope.lower, LoweringScope.classify, hconstant]
      rfl
    · rw [EvaluationScope.node, EvaluationScope.constant, h]
      rfl
  | text content =>
    refine ⟨.textConstant (Name.ofText raw), ?_, run_evaluate_of_leaf rfl fun visit => ?_⟩
    · rw [run_lower, LoweringScope.lower, LoweringScope.classify, hconstant]
      rfl
    · rw [EvaluationScope.node, EvaluationScope.constant, h]

/-- The identifier of a variable is stored as one. -/
theorem run_lower_variable (hconst : deck.symbols.consts.contains (Name.ofText raw) = false)
    (hvar : deck.symbols.vars.contains (Name.ofText raw) = true) :
    (lower (.name raw)).run ⟨deck, raised⟩ =
      (.ok (.variable (Name.ofText raw)), ⟨deck, raised⟩) := by
  have hconstant : (deck.symbols.loweringScope deck.pos false).constant? (Name.ofText raw) =
      none := by
    refine Option.map_eq_none_iff.2 (Option.not_isSome_iff_eq_none.1 ?_)
    exact Bool.eq_false_iff.1 hconst
  have hvariable : (deck.symbols.loweringScope deck.pos false).isVariable (Name.ofText raw) =
      true := hvar
  rw [run_lower, LoweringScope.lower, LoweringScope.classify, hconstant]
  dsimp only
  rw [hvariable]
  rfl

/-- The length of an element is stored as such. -/
theorem run_lower_lengthOf (h : deck.symbols.elements.contains (Name.ofText raw) = true) :
    (lower (.lengthOf raw)).run ⟨deck, raised⟩ =
      (.ok (.lengthOf (Name.ofText raw)), ⟨deck, raised⟩) := by
  have helement : (deck.symbols.loweringScope deck.pos false).isElement (Name.ofText raw) =
      true := h
  rw [run_lower, LoweringScope.lower, helement]
  rfl

/-- To evaluate the identifier of a variable is to ask for its value. -/
theorem run_evaluate_variable {record : Variable Term}
    (hrecord : deck.symbols.vars.get? (Name.ofText raw) = some record)
    (h : ¬deck.GivesUp (.variable (Name.ofText raw))) :
    ((evaluate (.variable (Name.ofText raw))).run ⟨deck, #[]⟩).1.map some =
      ((variableValue raw).run ⟨deck, #[]⟩).1 := by
  have hexpr : deck.scope.expr? (Name.ofText raw) = some record.expr :=
    congrArg (Option.map Variable.expr) hrecord
  have hleads := run_evaluate_of_leads (u := record.expr) rfl (fun visit => ?_) h
  · rw [hleads, run_variableValue, hrecord, Option.map_some, slotValue, run_map]
  · rw [EvaluationScope.node, hexpr]

/-- To evaluate the length of an element is to ask for it; a length that is not set, or that the
kind does not have, is zero both ways. -/
theorem run_evaluate_lengthOf {element : Element Term}
    (helement : deck.symbols.elements.get? (Name.ofText raw) = some element)
    (h : ¬deck.GivesUp (.lengthOf (Name.ofText raw))) :
    ((evaluate (.lengthOf (Name.ofText raw))).run ⟨deck, #[]⟩).1.map some =
      ((elementLength raw).run ⟨deck, #[]⟩).1 := by
  have hlength : deck.scope.length? (Name.ofText raw) = some element.length? :=
    congrArg (Option.map Element.length?) helement
  have hquery : (elementLength raw).run ⟨deck, #[]⟩ =
      (slotValue (some element.length?)).run ⟨deck, #[]⟩ := by
    change (slotValue
      ((deck.symbols.elements.get? (Name.ofText raw)).map Element.length?)).run _ = _
    rw [helement]
    rfl
  rw [hquery]
  cases hset : element.length? with
  | none =>
    rw [hset] at hlength
    rw [run_evaluate_of_leaf (v := .zero) rfl fun visit => by rw [EvaluationScope.node, hlength]]
    rfl
  | some u =>
    rw [hset] at hlength
    rw [run_evaluate_of_leads (u := u) rfl (fun visit => by rw [EvaluationScope.node, hlength]) h,
      slotValue, run_map]

end Deck

end Plain

/-! ## Decks -/

namespace Deck

/-- The evaluation of a stored expression does not come to the limit on the depth; where there is no
limit, it comes to an end. -/
def ComesToEnd (deck : Deck) (id : NodeId) : Prop :=
  ¬deck.ReachesLimit id ∧
    ∀ handle, ((evaluate id).run ⟨deck, #[]⟩).1 ≠ .error (.fault (.endless handle))

instance (deck : Deck) (id : NodeId) : Decidable (deck.ReachesLimit id) :=
  inferInstanceAs
    (Decidable (∃ d ∈ ((evaluate id).run ⟨deck, #[]⟩).2.raised, d.code = .nestingTooDeep))

/-- Whether an evaluation has come to no end. -/
instance (outcome : Except FatalError Value) :
    Decidable (∀ handle, outcome ≠ .error (.fault (.endless handle))) :=
  match outcome with
  | .error (.fault (.endless handle)) => isFalse fun h => h handle rfl
  | .error (.fault (.stale _)) | .error (.textInArithmetic ..) | .error (.lineTooLong ..)
  | .ok _ => isTrue nofun

instance (deck : Deck) (id : NodeId) : Decidable (deck.ComesToEnd id) :=
  inferInstanceAs (Decidable (_ ∧ _))

namespace Depicts

variable {deck : Deck} {limits : Limits} {g : Plain.Deck Tree} {held : List Tree} {stray : Nat}
  (hd : deck.Depicts limits g held stray)
include hd

/-- An evaluation that comes to an end does not give up on the plain deck. -/
theorem not_givesUp_of_comesToEnd {t : Tree} (ht : t ∈ g.symbols.exprs ++ held)
    (h : deck.ComesToEnd t.root) : ¬(g.map Tree.term).GivesUp t.term := by
  by_cases hzero : limits.evalDepth = 0
  · let plain := g.map Tree.term
    have hlimit : plain.scope.limit = 0 :=
      (congrArg Limits.evalDepth hd.plain_limits_eq).trans hzero
    have htripped := Plain.EvaluationScope.tripped_eq_false_of_unlimited hlimit
      (plain.levels t.term) t.term (p := ⟨false, #[]⟩) rfl
    refine Classical.not_not.2 ⟨fun hend => ?_, htripped⟩
    have hplain : ((Plain.Deck.evaluate t.term).run ⟨plain, #[]⟩).1 = .error .endless := hend
    -- an evaluation without end on the plain deck is one on the deck
    rcases mirrors_evaluate t ⟨deck, #[]⟩ ⟨plain, #[]⟩ ⟨rfl, g, hd, rfl, ht⟩ with
      ⟨x, y, w, q, -, hb, -⟩ | ⟨e, d, w, q, ha, hb, -, hcorresponds, -⟩
    · rw [hb] at hplain
      cases hplain
    · rw [hb] at hplain
      obtain rfl : d = .endless := Except.error.inj hplain
      rcases hcorresponds with ⟨-, hne⟩ | ⟨-, -, handle, rfl⟩
      · exact hne rfl
      · exact h.2 handle (congrArg Prod.fst ha)
  · exact hd.not_givesUp_of_not_reachesLimit ht hzero h.1

end Depicts

end Deck

namespace Interpreter

/-- The evaluation of a formula, once it is stored, comes to an end. -/
def ComesToEnd (it : Interpreter) (formula : Formula) : Prop :=
  ∀ id it', (lower formula).run it = (.ok id, it') → it'.deck.ComesToEnd id

instance (it : Interpreter) (formula : Formula) : Decidable (it.ComesToEnd formula) :=
  match h : (lower formula).run it with
  | (.error e, _) => isTrue fun id it' hrun => nomatch h.symm.trans hrun
  | (.ok id, it') =>
    decidable_of_iff (it'.deck.ComesToEnd id)
      ⟨fun hend _ _ hrun => by cases h.symm.trans hrun; exact hend, fun hend => hend id it' h⟩

section Depicts

variable {it : Interpreter} {limits : Limits} {g : Plain.Deck Tree} {held : List Tree} {stray : Nat}
  {formula : Formula} {term : Term} {raised : Array Diagnostic}
  (hd : it.deck.Depicts limits g held stray)
include hd

/-- A formula is stored as the term that the plain deck lowers it to. -/
theorem exists_stored (hlower : (Plain.Deck.lower formula).run ⟨g.map Tree.term, #[]⟩ =
      (.ok term, ⟨g.map Tree.term, raised⟩)) :
    ∃ t : Tree, t.term = term ∧ ∃ it', (lower formula).run it = (.ok t.root, it') ∧
      ∃ g', it'.deck.Depicts limits g' (t :: held) stray ∧ g'.map Tree.term = g.map Tree.term := by
  rcases Deck.mirrors_lowerWith false formula ⟨it.deck, #[]⟩ ⟨g.map Tree.term, #[]⟩
      ⟨rfl, g, hd, rfl⟩ with
    ⟨id, other, w, q, ha, hb, t, rfl, hterm, -, g', hd', hmap⟩ | ⟨e, d, w, q, -, hb, -⟩
  · cases hlower.symm.trans hb
    obtain ⟨it', hit, hdeck⟩ := exists_run_lower ha
    exact ⟨t, hterm, it', hit, g', hdeck ▸ hd', hmap⟩
  · cases hlower.symm.trans hb

/-- What comes of a formula that is stored and evaluated is what comes of its term on the plain
deck, if that comes to an end. -/
theorem lowerEvaluate_eq (hlower : (Plain.Deck.lower formula).run ⟨g.map Tree.term, #[]⟩ =
      (.ok term, ⟨g.map Tree.term, raised⟩))
    (hend : ((Plain.Deck.evaluate term).run ⟨g.map Tree.term, #[]⟩).1 ≠ .error .endless) :
    ((lowerEvaluate formula).run it).1 =
      ((Plain.Deck.evaluate term).run ⟨g.map Tree.term, #[]⟩).1.mapError Plain.Error.fatal := by
  obtain ⟨t, rfl, it', hit, g', hd', hmap⟩ := exists_stored hd hlower
  have ht : t ∈ g'.symbols.exprs ++ t :: held := List.mem_append_right _ List.mem_cons_self
  rw [run_lowerEvaluate hit]
  exact (hd'.run_evaluate_eq (w := ⟨it'.deck, #[]⟩) ht hmap hend).1

/-- If the evaluation of a formula that is stored comes to an end, that of its term does not give
up. -/
theorem not_givesUp_of_comesToEnd (hlower : (Plain.Deck.lower formula).run ⟨g.map Tree.term, #[]⟩ =
      (.ok term, ⟨g.map Tree.term, raised⟩))
    (h : it.ComesToEnd formula) : ¬(g.map Tree.term).GivesUp term := by
  obtain ⟨t, rfl, it', hit, g', hd', hmap⟩ := exists_stored hd hlower
  have ht : t ∈ g'.symbols.exprs ++ t :: held := List.mem_append_right _ List.mem_cons_self
  rw [← hmap]
  exact hd'.not_givesUp_of_comesToEnd ht (h _ _ hit)

/-- What a query comes to is what it comes to on the plain deck, if that comes to an end. -/
theorem run_perform_eq {α : Type} {a : Deck.Action α} {b : Plain.Deck.Action α}
    (h : Mirrors (Deck.Alike limits held stray) a b (Deck.Returned limits held stray)
      (Deck.Failed limits held))
    (hend : (b.run ⟨g.map Tree.term, #[]⟩).1 ≠ .error .endless) :
    ((perform a).run it).1 = (b.run ⟨g.map Tree.term, #[]⟩).1.mapError Plain.Error.fatal := by
  rw [run_perform]
  rcases h ⟨it.deck, #[]⟩ ⟨g.map Tree.term, #[]⟩ ⟨rfl, g, hd, rfl⟩ with
    ⟨x, y, w, q, ha, hb, rfl, -⟩ | ⟨e, d, w, q, ha, hb, -, herror, -⟩
  · rw [ha, hb]
    rfl
  · rw [hb] at hend
    rw [ha, hb]
    rcases herror with ⟨rfl, -⟩ | ⟨-, rfl, -⟩
    · rfl
    · exact absurd rfl hend

/-- A formula that the plain deck evaluates to what a query comes to, is evaluated to that. -/
theorem lowerEvaluate_eq_perform {a : Deck.Action (Option Value)}
    {b : Plain.Deck.Action (Option Value)}
    (h : Mirrors (Deck.Alike limits held stray) a b (Deck.Returned limits held stray)
      (Deck.Failed limits held))
    (hlower : (Plain.Deck.lower formula).run ⟨g.map Tree.term, #[]⟩ =
      (.ok term, ⟨g.map Tree.term, raised⟩))
    (hquery : ¬(g.map Tree.term).GivesUp term →
      ((Plain.Deck.evaluate term).run ⟨g.map Tree.term, #[]⟩).1.map some =
        (b.run ⟨g.map Tree.term, #[]⟩).1)
    (hend : it.ComesToEnd formula) :
    ((lowerEvaluate formula).run it).1.map some = ((perform a).run it).1 := by
  have hcomplete := not_givesUp_of_comesToEnd hd hlower hend
  have hterm : ((Plain.Deck.evaluate term).run ⟨g.map Tree.term, #[]⟩).1 ≠ .error .endless :=
    (Classical.not_not.1 hcomplete).1
  rw [lowerEvaluate_eq hd hlower hterm, run_perform_eq hd h ?_, ← hquery hcomplete]
  · exact (mapError_map _ _ _).symm
  · rw [← hquery hcomplete]
    cases houtcome : ((Plain.Deck.evaluate term).run ⟨g.map Tree.term, #[]⟩).1 with
    | ok v => nofun
    | error e =>
      rw [houtcome] at hterm
      exact fun h => hterm (congrArg Except.error (Except.error.inj h))

end Depicts

end Interpreter

/-! ## Lengths -/

namespace Element

/-- The keyword of the length is that of the first slot. -/
theorem Kind.slotIndex?_of_lengthKeyword? {kind : Kind} {key : String}
    (h : kind.lengthKeyword? = some key) :
    ∃ hpos, kind.slotIndex? key = some ⟨0, hpos⟩ := by
  cases kind with
  | marker | yrot | srot | beambeam | matrix | lump => cases h
  | _ =>
    cases h
    exact ⟨by decide, by decide +kernel⟩

/-- The length is what is found under its keyword. -/
theorem slot?_of_lengthKeyword? {e : Element} {key : String}
    (h : e.kind.lengthKeyword? = some key) : e.slot? key = some e.length? := by
  obtain ⟨hpos, hindex⟩ := Kind.slotIndex?_of_lengthKeyword? h
  have hlength : e.kind.hasLength = true := by
    unfold Kind.lengthKeyword? at h
    split at h
    · assumption
    · cases h
  have hfirst : e.slots.toList.head? = some e.slots[0] := by
    rw [List.head?_eq_getElem?, Vector.getElem?_toList, Vector.getElem?_eq_getElem hpos]
  rw [slot?, hindex, length?, if_pos hlength, hfirst]
  rfl

theorem Kind.lengthKeyword?_eq_none_iff {kind : Kind} :
    kind.lengthKeyword? = none ↔ kind.hasLength = false := by
  cases kind <;> simp [lengthKeyword?, hasLength, catalog, multipoleCatalog]

end Element

namespace Deck

variable {deck : Deck} {raw : String} {element : Element}
  (helement : deck.symbols.elements.lookup? raw = some element)
include helement

theorem run_elementLength (raised : Array Diagnostic) :
    (elementLength raw).run ⟨deck, raised⟩ =
      (slotValue (some element.length?)).run ⟨deck, raised⟩ := by
  change (slotValue ((deck.symbols.elements.lookup? raw).map Element.length?)).run _ = _
  rw [helement, Option.map_some]

/-- The length of an element is the attribute with the keyword of the length. -/
theorem run_elementLength_of_lengthKeyword? {key : String}
    (h : element.kind.lengthKeyword? = some key) (raised : Array Diagnostic) :
    (elementLength raw).run ⟨deck, raised⟩ = (attributeValue raw key).run ⟨deck, raised⟩ := by
  rw [run_elementLength helement]
  change _ = (slotValue ((deck.symbols.elements.lookup? raw).bind fun e => e.slot? key)).run _
  rw [helement, Option.bind_some, Element.slot?_of_lengthKeyword? h]

/-- The length of an element whose kind has none is zero, whatever its slots hold. -/
theorem run_elementLength_of_hasLength_eq_false (h : element.kind.hasLength = false)
    (raised : Array Diagnostic) :
    (elementLength raw).run ⟨deck, raised⟩ = (.ok (some .zero), ⟨deck, raised⟩) := by
  have hnone : element.length? = none := if_neg (by rw [h]; decide)
  rw [run_elementLength helement, hnone]
  rfl

end Deck

/-! ## Spelling -/

namespace Interpreter

/-- In both spellings an identifier is stored alike and asked for alike. -/
structure SameSpelling (raw other : String) : Prop where
  /-- The identifier, stored and evaluated. -/
  name : lowerEvaluate (.name other) = lowerEvaluate (.name raw)
  /-- The length of the element, stored and evaluated. -/
  lengthOf : lowerEvaluate (.lengthOf other) = lowerEvaluate (.lengthOf raw)
  /-- The constant. -/
  constantValue? : ∀ deck : Deck, deck.constantValue? other = deck.constantValue? raw
  /-- The variable. -/
  variableValue : variableValue other = variableValue raw
  /-- The length of the element. -/
  elementLength : elementLength other = elementLength raw
  /-- The attributes of the element, by keywords in any spelling. -/
  attributeValue : ∀ key key', Text.normalize key' = Text.normalize key →
    attributeValue other key' = attributeValue raw key

/-- What is done with a spelling is done with its normal form. -/
theorem sameSpelling_of_normalize {raw other : String}
    (h : Text.normalize other = Text.normalize raw) : SameSpelling raw other := by
  have hformula {f f' : Formula} (hf : f'.normalized = f.normalized) :
      lowerEvaluate f' = lowerEvaluate f := by
    rw [lowerEvaluate, lowerEvaluate, lower_eq_perform, lower_eq_perform,
      ← Deck.lower_normalized f', hf, Deck.lower_normalized]
  exact
    { name := hformula (congrArg Formula.name h)
      lengthOf := hformula (congrArg Formula.lengthOf h)
      constantValue? := fun deck => by
        rw [← deck.constantValue?_normalize, h, deck.constantValue?_normalize]
      variableValue := by
        rw [variableValue_eq_perform, ← Deck.variableValue_normalize, h,
          Deck.variableValue_normalize, variableValue_eq_perform]
      elementLength := by
        rw [elementLength_eq_perform, ← Deck.elementLength_normalize, h,
          Deck.elementLength_normalize, elementLength_eq_perform]
      attributeValue := fun key key' hkey => by
        rw [attributeValue_eq_perform, ← Deck.attributeValue_normalize, h, hkey,
          Deck.attributeValue_normalize, attributeValue_eq_perform] }

/-- What is asked about a name and what is read where a formula mentions it are the same. -/
structure ReadsAlike (it : Interpreter) (raw : String) : Prop where
  /-- The identifier of a constant is evaluated to the value of the constant. -/
  constant_eq : ∀ v, it.deck.constantValue? raw = some v →
    ((lowerEvaluate (.name raw)).run it).1 = .ok v
  /-- The identifier of a variable is evaluated to exactly what the variable is read as, be that a
  value or an error. -/
  variable_eq : ∀ record, it.deck.symbols.vars.lookup? raw = some record →
    it.ComesToEnd (.name raw) →
      ((lowerEvaluate (.name raw)).run it).1.map some = ((variableValue raw).run it).1
  /-- The length of an element is evaluated to exactly what it is asked for as. -/
  lengthOf_eq : ∀ element, it.deck.symbols.elements.lookup? raw = some element →
    it.ComesToEnd (.lengthOf raw) →
      ((lowerEvaluate (.lengthOf raw)).run it).1.map some = ((elementLength raw).run it).1
  /-- The length is the attribute under the keyword of the length, and zero for the kinds that have
  none, whatever is set. -/
  length_eq : ∀ element, it.deck.symbols.elements.lookup? raw = some element →
    match element.kind.lengthKeyword? with
    | some key => (elementLength raw).run it = (attributeValue raw key).run it
    | none => ((elementLength raw).run it).1 = .ok (some .zero)
  /-- None of it depends on how the name is spelled. -/
  spelling : ∀ other, Text.normalize other = Text.normalize raw → SameSpelling raw other

end Interpreter

/-! ## Sessions -/

namespace Session

open Interpreter

variable {limits : Limits} {stray : Nat} {same : Prop} {s : Session} {p : Plain.Session}
  {raw : String}

/-- An identifier that is a constant's is evaluated to the value of the constant. -/
theorem Alike.lowerEvaluate_constant (hs : Alike limits stray same s p) {v : Value}
    (h : s.interpreter.deck.constantValue? raw = some v) :
    ((lowerEvaluate (.name raw)).run s.interpreter).1 = .ok v := by
  have hconstant := (hs.constantValue?_eq raw).symm.trans h
  obtain ⟨trees, ⟨⟨g, hd, hmap⟩, -⟩, -⟩ := hs
  rw [← hmap] at hconstant
  obtain ⟨term, hlower, heval⟩ := Plain.Deck.exists_run_lower_constant #[] hconstant
  rw [lowerEvaluate_eq hd hlower (by rw [heval]; nofun), heval]
  rfl

/-- An identifier that is a variable's is evaluated to what the variable is read as. -/
theorem Alike.lowerEvaluate_variable (hs : Alike limits stray same s p)
    (hconst : s.interpreter.deck.symbols.consts.contains (Name.ofText raw) = false)
    {record : Variable} (h : s.interpreter.deck.symbols.vars.lookup? raw = some record)
    (hend : s.interpreter.ComesToEnd (.name raw)) :
    ((lowerEvaluate (.name raw)).run s.interpreter).1.map some =
      ((variableValue raw).run s.interpreter).1 := by
  obtain ⟨trees, ⟨⟨g, hd, -⟩, -⟩, -⟩ := hs
  rw [hd.contains_consts] at hconst
  rcases hd.variable_cases (Name.ofText raw) with ⟨hnone, -⟩ | ⟨_, v, -, hget, -⟩
  · cases hnone.symm.trans h
  · have hvar : (g.map Tree.term).symbols.vars.contains (Name.ofText raw) = true :=
      Option.isSome_iff_exists.2 ⟨_, hget⟩
    rw [variableValue_eq_perform]
    exact lowerEvaluate_eq_perform hd (Deck.mirrors_variableValue raw)
      (Plain.Deck.run_lower_variable hconst hvar) (Plain.Deck.run_evaluate_variable hget) hend

/-- The length of an element, as a term, is evaluated to what it is asked for as. -/
theorem Alike.lowerEvaluate_lengthOf (hs : Alike limits stray same s p) {element : Element}
    (h : s.interpreter.deck.symbols.elements.lookup? raw = some element)
    (hend : s.interpreter.ComesToEnd (.lengthOf raw)) :
    ((lowerEvaluate (.lengthOf raw)).run s.interpreter).1.map some =
      ((elementLength raw).run s.interpreter).1 := by
  obtain ⟨trees, ⟨⟨g, hd, -⟩, -⟩, -⟩ := hs
  rcases hd.element_cases (Name.ofText raw) with ⟨hnone, -⟩ | ⟨_, e, -, hget, -⟩
  · cases hnone.symm.trans h
  · have helement : (g.map Tree.term).symbols.elements.contains (Name.ofText raw) = true :=
      Option.isSome_iff_exists.2 ⟨_, hget⟩
    rw [elementLength_eq_perform]
    exact lowerEvaluate_eq_perform hd (Deck.mirrors_elementLength raw)
      (Plain.Deck.run_lower_lengthOf helement) (Plain.Deck.run_evaluate_lengthOf hget) hend

/-- In every session queries and formulas read the same, unless the evaluation of the formula comes
to the limit on the depth, or to no end where there is none: a formula that is stored and evaluated
takes another way to a constant, to a variable and to the length of an element than a query does,
and comes to exactly the same value or error. -/
theorem readsAlike_after (config : Config) (requests : List Request) (raw : String) :
    ((ofConfig config).after requests).interpreter.ReadsAlike raw := by
  let it := ((ofConfig config).after requests).interpreter
  obtain ⟨_, _, hs, -⟩ := alike_after requests (alike_ofConfig config)
  refine
    { constant_eq := fun v h => hs.lowerEvaluate_constant h
      variable_eq := fun record h hend => ?_
      lengthOf_eq := fun element h hend => hs.lowerEvaluate_lengthOf h hend
      length_eq := fun element h => ?_
      spelling := fun other h => sameSpelling_of_normalize h }
  · -- were it the name of a constant as well, the identifier would be that of the constant
    have hvar : it.deck.symbols.vars.contains (Name.ofText raw) = true := by
      rw [← Table.isSome_get?]
      exact Option.isSome_iff_exists.2 ⟨record, h⟩
    have hconst : it.deck.symbols.consts.contains (Name.ofText raw) = false :=
      Bool.eq_false_iff.2 fun hconst => not_contains_both config requests _ ⟨hconst, hvar⟩
    exact hs.lowerEvaluate_variable hconst h hend
  · split
    · rename_i key hkey
      rw [elementLength_eq_perform, attributeValue_eq_perform, Interpreter.run_perform,
        Interpreter.run_perform, Deck.run_elementLength_of_lengthKeyword? h hkey]
    · rename_i hnone
      have hlength := Element.Kind.lengthKeyword?_eq_none_iff.1 hnone
      rw [elementLength_eq_perform, Interpreter.run_perform,
        Deck.run_elementLength_of_hasLength_eq_false h hlength]

/-- A text constant, a variable that hangs on one that is not defined, a multipole whose length is
that variable, and a rotation, which has no length although its first slot is set. -/
theorem readsAlike_after_of_lengths :
    let pos := Position.unread
    let config : Config := { limits := { evalDepth := 4 } }
    let requests : List Request :=
      [.defineConstant "T" (.text "t") pos,
        .defineVariable "V" (.binary .add (.name "W") (.number 1.0)) .deferred pos,
        .defineElement "M" .multipole [.assign "LRAD" (.name "V")] pos,
        .defineElement "R" .srot [.assign "ANGLE" (.number 2.0)] pos]
    let it := ((ofConfig config).after requests).interpreter
    (∃ v, it.deck.constantValue? "t" = some v ∧ v.isText = true ∧
        ((lowerEvaluate (.name "t")).run it).1 = .ok v) ∧
      ((variableValue "V").run it).1.isOk = true ∧
      ((lowerEvaluate (.name "V")).run it).1.map some = ((variableValue "V").run it).1 ∧
      ((lowerEvaluate (.lengthOf " m")).run it).1.map some =
        ((attributeValue " m" "LRAD").run it).1 ∧
      ((lowerEvaluate (.lengthOf "R")).run it).1.map some = .ok (some .zero) := by
  intro pos config requests it
  have hreads (raw : String) : it.ReadsAlike raw := readsAlike_after config requests raw
  have hconstant : (it.deck.constantValue? "t").map Value.isText = some true := by decide +kernel
  have hvariable : (it.deck.symbols.vars.lookup? "V").isSome = true := by decide +kernel
  have hmultipole : (it.deck.symbols.elements.lookup? " m").map Element.kind = some .multipole := by
    decide +kernel
  have hrotation : (it.deck.symbols.elements.lookup? "R").map Element.kind = some .srot := by
    decide +kernel
  obtain ⟨v, hv, htext⟩ := Option.map_eq_some_iff.1 hconstant
  obtain ⟨record, hrecord⟩ := Option.isSome_iff_exists.1 hvariable
  obtain ⟨multipole, hM, hkindM⟩ := Option.map_eq_some_iff.1 hmultipole
  obtain ⟨rotation, hR, hkindR⟩ := Option.map_eq_some_iff.1 hrotation
  have hlengthM := (hreads " m").length_eq multipole hM
  rw [hkindM] at hlengthM
  have hlengthR := (hreads "R").length_eq rotation hR
  rw [hkindR] at hlengthR
  refine ⟨⟨v, hv, htext, (hreads "t").constant_eq v hv⟩, by decide +kernel, ?_, ?_, ?_⟩
  · exact (hreads "V").variable_eq record hrecord (by decide +kernel)
  · exact ((hreads " m").lengthOf_eq multipole hM (by decide +kernel)).trans
      (congrArg Prod.fst hlengthM)
  · exact ((hreads "R").lengthOf_eq rotation hR (by decide +kernel)).trans hlengthR

end Session

end Beamline
