import Beamline.Proofs.Plain.Lookups

/-!
# Variables with immediate and with deferred bindings

What a definition of a variable stores on a plain deck, with either binding, and what the variable
is read as afterwards. A deferred variable is evaluated after the definition has stored it; that
comes to what the formula was evaluated to before, unless the evaluation looks up the variable
itself.

* `Deck.run_variableValue_deferred`: reading a variable that does not look itself up.
* `Deck.run_variableValue_immediate`: reading a variable that holds a value.
-/

namespace Beamline.Plain

open Source (Position)
open Beamline.Expr (Formula Term)

namespace Deck

variable {deck : Deck Term} {raw : String} {formula : Formula} {t : Term} {w w' : Work}

/-- The deck with a variable of the given term, defined at the position of the deck. -/
def withVariable (deck : Deck Term) (raw : String) (t : Term) : Deck Term :=
  { deck with symbols := { deck.symbols with
      vars := deck.symbols.vars.insert { name := Name.ofText raw, expr := t, pos := deck.pos } } }

/-! ## Definitions -/

theorem run_defineVariable_ite (raw : String) (formula : Formula) (binding : Binding) (w : Work) :
    (defineVariable raw formula binding).run w =
      (if w.deck.symbols.consts.contains (Name.ofText raw) = true then
          raise (.variableIsConstant (Name.ofText raw))
        else do
          let lowered ← lower formula
          let expr ← match binding with
            | .deferred => pure lowered
            | .immediate => Term.ofValue <$> evaluate lowered
          insertVariable { name := Name.ofText raw, expr, pos := (← current).pos } :
            Action Unit).run w :=
  rfl

section Definition

variable (hname : w.deck.symbols.consts.contains (Name.ofText raw) = false)
include hname

/-- Unless a constant has the name, the formula is lowered first. -/
theorem run_defineVariable_of_not_constant (binding : Binding) :
    (defineVariable raw formula binding).run w =
      (do
        let lowered ← lower formula
        let expr ← match binding with
          | .deferred => pure lowered
          | .immediate => Term.ofValue <$> evaluate lowered
        insertVariable { name := Name.ofText raw, expr, pos := (← current).pos } :
          Action Unit).run w := by
  rw [run_defineVariable_ite, hname, if_neg nofun]

/-- A formula that cannot be lowered is refused, whatever the binding. -/
theorem run_defineVariable_of_lower_error {e : Error}
    (hlower : (lower formula).run w = (.error e, w'))
    (binding : Binding) : (defineVariable raw formula binding).run w = (.error e, w') := by
  rw [run_defineVariable_of_not_constant hname, run_bind_of_error hlower]

/-- With a deferred binding the term is stored. -/
theorem run_defineVariable_deferred (hlower : (lower formula).run w = (.ok t, w')) :
    (defineVariable raw formula .deferred).run w =
      (.ok (), { w' with deck := w'.deck.withVariable raw t }) := by
  rw [run_defineVariable_of_not_constant hname, run_bind_of_ok hlower]
  rfl

/-- With an immediate binding the value is stored, as the term that stands for it. -/
theorem run_defineVariable_immediate (hlower : (lower formula).run w = (.ok t, w')) :
    ((defineVariable raw formula .immediate).run w).1 =
        ((evaluate t).run w').1.map (fun _ => ()) ∧
      ∀ v, ((evaluate t).run w').1 = .ok v →
        ((defineVariable raw formula .immediate).run w).2.deck =
          w'.deck.withVariable raw (Term.ofValue v) := by
  rw [run_defineVariable_of_not_constant hname, run_bind_of_ok hlower]
  have hdeck : ((evaluate t).run w').2.deck = w'.deck := rfl
  have hmap := run_map Term.ofValue (evaluate t) w'
  rcases heval : (evaluate t).run w' with ⟨e | v, w''⟩ <;> rw [heval] at hmap hdeck
  · rw [run_bind_of_error hmap]
    exact ⟨rfl, nofun⟩
  · rw [run_bind_of_ok hmap]
    refine ⟨rfl, fun v' hv => ?_⟩
    obtain rfl : v = v' := Except.ok.inj hv
    dsimp only at hdeck
    rw [← hdeck]
    rfl

end Definition

/-- Lowering leaves the deck as it is. -/
theorem deck_of_run_lower {outcome : Except Error Term}
    (h : (lower formula).run w = (outcome, w')) : w'.deck = w.deck := by
  have hdeck : ((lower formula).run w).2.deck = w.deck := rfl
  rw [h] at hdeck
  exact hdeck

/-! ## Reading -/

theorem run_variableValue (raw : String) (w : Work) :
    (variableValue raw).run w =
      (slotValue ((w.deck.symbols.vars.get? (Name.ofText raw)).map
        fun record => some record.expr)).run w :=
  rfl

/-- The definition changes the lookup of its name only. -/
theorem get?_withVariable (deck : Deck Term) (raw : String) (t : Term) (name : Name) :
    (deck.withVariable raw t).symbols.vars.get? name =
      if name = Name.ofText raw then some { name := Name.ofText raw, expr := t, pos := deck.pos }
      else deck.symbols.vars.get? name :=
  Table.get?_insert _ _ name

/-- To read the variable is to evaluate its term. -/
theorem run_variableValue_withVariable (deck : Deck Term) (raw : String) (t : Term)
    (raised : Array Diagnostic) :
    ((variableValue raw).run ⟨deck.withVariable raw t, raised⟩).1 =
      ((evaluate t).run ⟨deck.withVariable raw t, raised⟩).1.map some := by
  rw [run_variableValue, get?_withVariable, if_pos rfl, Option.map_some, slotValue, run_map]

/-- The variable alone is another than before. -/
theorem sameBut_withVariable (deck : Deck Term) (raw : String) (t : Term) :
    deck.scope.SameBut (Name.ofText raw) (deck.withVariable raw t).scope where
  constant? := rfl
  expr? n hn := by
    unfold scope Symbols.evaluationScope
    dsimp only
    rw [get?_withVariable, if_neg hn]
  length? := rfl
  pos := rfl
  limit := rfl

/-- With a limit on the depth, a deferred variable that does not look itself up is read as its
term was evaluated before the definition. -/
theorem run_variableValue_deferred (hlimit : deck.limits.evalDepth ≠ 0)
    (h : Name.ofText raw ∉ deck.lookups t) (raised raised' : Array Diagnostic) :
    ((variableValue raw).run ⟨deck.withVariable raw t, raised⟩).1 =
      ((evaluate t).run ⟨deck, raised'⟩).1.map some := by
  have hlevels : deck.levels t = (deck.withVariable raw t).levels t :=
    (if_neg hlimit).trans (if_neg hlimit).symm
  rw [run_variableValue_withVariable, run_evaluate_of_not_mem_lookups
    (sameBut_withVariable deck raw t) hlevels h raised' raised]

/-- A level is enough to evaluate a value, and there is always one. -/
theorem run_evaluate_ofValue (v : Value) (raised : Array Diagnostic) :
    (evaluate (.ofValue v)).run ⟨deck, raised⟩ = (.ok v, ⟨deck, raised⟩) := by
  have hlevels : deck.levels (.ofValue v) ≠ 0 := by
    unfold levels
    split
    · cases v <;> exact Nat.succ_ne_zero _
    · assumption
  obtain ⟨n, hn⟩ := Nat.exists_eq_succ_of_ne_zero hlevels
  rw [run_evaluate, hn]
  cases v with
  | number x => rfl
  | text content => rfl

/-- An immediate variable is read as the value that it holds. -/
theorem run_variableValue_immediate (v : Value) (raised : Array Diagnostic) :
    ((variableValue raw).run ⟨deck.withVariable raw (Term.ofValue v), raised⟩).1 =
      .ok (some v) := by
  rw [run_variableValue_withVariable, run_evaluate_ofValue]
  rfl

end Deck

end Beamline.Plain
