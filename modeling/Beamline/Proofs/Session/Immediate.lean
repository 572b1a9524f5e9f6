import Beamline.Proofs.Deck.Limits
import Beamline.Proofs.Plain.Immediate
import Beamline.Proofs.Portrait.Lookups
import Beamline.Proofs.Session.Reading

/-!
# Immediate and deferred variables agree when they are defined

Right after its definition a variable has the value that its formula has at that moment, whether
the value was computed by the definition or is computed when the variable is read; and where there
is no value, the definition with an immediate binding ends in the error that the deferred variable
is read with. This is so for formulas that do not look up the variable itself, which is another one
after a deferred definition, also if the evaluation comes to the limit on the depth.

* `Session.immediate_eq_deferred`: both bindings, in every session with a limit on the depth.
-/

namespace Beamline

open Source (Position)
open Beamline.Expr (Formula NodeId Term Tree)

/-- A function of the result and one of the error may be applied in either order. -/
theorem mapError_map {ε δ α β : Type} (f : α → β) (g : ε → δ) (outcome : Except ε α) :
    (outcome.map f).mapError g = (outcome.mapError g).map f := by
  cases outcome <;> rfl

theorem ok_of_mapError {ε δ α : Type} {g : ε → δ} {outcome : Except ε α} {x : α}
    (h : outcome.mapError g = .ok x) : outcome = .ok x := by
  cases outcome with
  | error e => cases h
  | ok y => exact congrArg Except.ok (Except.ok.inj h)

/-! ## Formulas read at a position -/

namespace Interpreter

/-- Stores the formula of a statement read at `pos`. -/
def storeAt (formula : Formula) (pos : Position) : Action NodeId :=
  checkAt pos (runLowerer false formula)

/-- The value of the formula of a statement read at `pos`. -/
def evaluateAt (formula : Formula) (pos : Position) : Action Value :=
  checkAt pos do
    runEvaluator (← runLowerer false formula)

/-- The names of the variables that the evaluation of a formula of a statement read at `pos` looks
up. -/
def lookupsAt (it : Interpreter) (formula : Formula) (pos : Position) : List Name :=
  match (storeAt formula pos).run it with
  | (.ok id, it') => it'.deck.lookups id
  | (.error _, _) => []

theorem storeAt_eq_performAt (formula : Formula) (pos : Position) :
    storeAt formula pos = performAt pos (Deck.lower formula) :=
  checkAt_eq_performAt pos fun _ => agree_runLowerer false formula

theorem evaluateAt_eq_performAt (formula : Formula) (pos : Position) :
    evaluateAt formula pos = performAt pos (do Deck.evaluate (← Deck.lower formula)) :=
  checkAt_eq_performAt pos fun _ =>
    (agree_runLowerer false formula).bind fun id => agree_runEvaluator id

variable {limits : Limits} {held : List Tree} {stray : Nat} {it : Interpreter}
  {plain : Plain.Deck Term}

/-- With a limit on the depth, a formula is stored and evaluated as on the plain deck, unless it is
refused on both. -/
theorem evaluateAt_cases (formula : Formula) (pos : Position) (hlimit : limits.evalDepth ≠ 0)
    (hs : Deck.Alike limits held stray ⟨it.deck, #[]⟩ ⟨plain, #[]⟩) :
    (∃ e w, (Plain.Deck.lower formula).run ⟨{ plain with pos }, #[]⟩ = (.error e, w) ∧
        ((storeAt formula pos).run it).1 = .error e.fatal) ∨
      ∃ t w, (Plain.Deck.lower formula).run ⟨{ plain with pos }, #[]⟩ = (.ok t, w) ∧
        (∃ id, ((storeAt formula pos).run it).1 = .ok id) ∧
        it.lookupsAt formula pos = w.deck.lookups t ∧
        ((evaluateAt formula pos).run it).1 =
          ((Plain.Deck.evaluate t).run w).1.mapError Plain.Error.fatal := by
  have hlower : Mirrors (Deck.Alike limits held stray) (Deck.lower formula)
      (Plain.Deck.lower formula) (Deck.Stored limits held stray) (Deck.Failed limits held) :=
    Deck.mirrors_lowerWith false formula
  have hmirrors := (Deck.mirrors_moveTo pos).bind (fun _ _ => hlower) ⟨it.deck, #[]⟩
    ⟨plain, #[]⟩ hs
  have hperform := run_perform (do Deck.moveTo pos; Deck.lower formula) it
  have hstore : (storeAt formula pos).run it =
      (perform (do Deck.moveTo pos; Deck.lower formula)).run it := by
    rw [storeAt_eq_performAt]
    rfl
  rw [← hstore] at hperform
  have hplain : (do Plain.Deck.moveTo pos; Plain.Deck.lower formula : Plain.Deck.Action Term).run
      ⟨plain, #[]⟩ = (Plain.Deck.lower formula).run ⟨{ plain with pos }, #[]⟩ := rfl
  change _ ∨ _ at hmirrors
  rcases hmirrors with ⟨id, term, w, q, ha, hb, t, rfl, rfl, hraised, g, hd, hmap⟩ |
    ⟨e, d, w, q, ha, hb, -, hed, -⟩
  · right
    have hlower : (do Deck.moveTo pos; Deck.lower formula : Deck.Action NodeId).run ⟨it.deck, #[]⟩ =
        (.ok t.root, w) := ha
    rw [hlower] at hperform
    have ht : t ∈ g.symbols.exprs ++ t :: held := List.mem_append_right _ List.mem_cons_self
    refine ⟨t.term, q, hplain.symm.trans hb, ⟨t.root, ?_⟩, ?_, ?_⟩
    · exact congrArg Prod.fst hperform
    · unfold lookupsAt
      rw [hperform, ← hmap]
      exact hd.lookups_root ht hlimit
    · -- with a limit no evaluation is endless, so that both come to the same
      have hend : ((Plain.Deck.evaluate t.term).run ⟨q.deck, w.raised⟩).1 ≠ .error .endless := by
        rw [Plain.Deck.run_evaluate]
        refine Plain.EvaluationScope.ne_endless_of_limit ?_ rfl
        change q.deck.limits.evalDepth ≠ 0
        rw [← hmap, show (g.map Tree.term).limits = limits from hd.plain_limits_eq]
        exact hlimit
      have heval := (hd.run_evaluate_eq (w := w) ht hmap hend).1
      have hrun : ((evaluateAt formula pos).run it).1 = ((Deck.evaluate t.root).run w).1 := by
        have hbind : (do Deck.moveTo pos; Deck.evaluate (← Deck.lower formula) :
            Deck.Action Value) =
              (do Deck.moveTo pos; Deck.lower formula) >>= Deck.evaluate := rfl
        rw [evaluateAt_eq_performAt, performAt, run_perform, hbind, run_bind_of_ok hlower]
      rw [hrun, heval, hraised]
  · left
    have hlower : (do Deck.moveTo pos; Deck.lower formula : Deck.Action NodeId).run ⟨it.deck, #[]⟩ =
        (.error e, w) := ha
    rw [hlower] at hperform
    refine ⟨d, q, hplain.symm.trans hb, ?_⟩
    rcases hed with ⟨rfl, -⟩ | ⟨hzero, -⟩
    · exact congrArg Prod.fst hperform
    · exact absurd hzero hlimit

end Interpreter

/-! ## Sessions -/

namespace Session

variable {limits : Limits} {stray : Nat} {same : Prop} {s : Session} {p : Plain.Session}

/-- With a limit on the depth both sides give the same answer, whatever is asked for. -/
theorem Alike.answer_eq_of_limit (hs : Alike limits stray same s p)
    (hlimit : limits.evalDepth ≠ 0) (request : Request) :
    (s.step request).1 = (p.step request).1 ∧ ∃ more same',
      Alike limits more same' (s.step request).2 (p.step request).2 := by
  cases served request hs with
  | done hanswer _ halike => exact ⟨hanswer, _, _, halike⟩
  | failed hanswer _ _ _ more halike => exact ⟨hanswer, _, _, halike⟩
  | endless hzero => exact absurd hzero hlimit

/-- A name without a constant's value is no constant's on either side. -/
theorem Alike.contains_consts_of_constantValue?_eq_none (hs : Alike limits stray same s p)
    {raw : String} (hnone : s.interpreter.deck.constantValue? raw = none) :
    p.interpreter.deck.symbols.consts.contains (Name.ofText raw) = false := by
  have hget : p.interpreter.deck.symbols.consts.get? (Name.ofText raw) = none :=
    Option.map_eq_none_iff.1 ((hs.constantValue?_eq raw).symm.trans hnone)
  exact Option.isSome_eq_false_iff.2 (Option.isNone_iff_eq_none.2 hget)

/-- What a request answers, and what the variable is read as after it. -/
theorem Alike.variableValue_eq (hs : Alike limits stray same s p) (hlimit : limits.evalDepth ≠ 0)
    (request : Request) (raw : String) :
    ((s.step request).2.step (.variableValue raw)).1 =
      .value (((Plain.Deck.variableValue raw).run
        ⟨(p.step request).2.interpreter.deck, #[]⟩).1.mapError Plain.Error.fatal) := by
  obtain ⟨-, more, same', hs'⟩ := hs.answer_eq_of_limit hlimit request
  exact (hs'.answer_eq_of_limit hlimit (.variableValue raw)).1

/-- Outside of a comment block, a statement defines a variable as a request for it does. -/
theorem step_apply_variable (hactive : s.interpreter.deck.commentary.isActive = false)
    (raw : String) (formula : Formula) (binding : Binding) (pos : Position) :
    s.step (.apply ⟨.variable raw formula binding, pos⟩) =
      s.step (.defineVariable raw formula binding pos) := by
  have hrun : (Deck.apply ⟨.variable raw formula binding, pos⟩).run ⟨s.interpreter.deck, #[]⟩ =
      (do Deck.moveTo pos; Deck.defineVariable raw formula binding : Deck.Action Unit).run
        ⟨s.interpreter.deck, #[]⟩ := by
    have happly : (Deck.apply ⟨.variable raw formula binding, pos⟩).run ⟨s.interpreter.deck, #[]⟩ =
        (if (s.interpreter.deck.commentary.isActive && !false) = true then pure ()
          else Deck.defineVariable raw formula binding : Deck.Action Unit).run
            ⟨{ s.interpreter.deck with pos }, #[]⟩ := rfl
    rw [happly, hactive]
    rfl
  rw [step_apply, step_defineVariable, Interpreter.performAt, run_perform, run_perform,
    Interpreter.run_perform, Interpreter.run_perform, hrun]

/-- With a limit on the depth, a name that is no constant's, and a formula that does not look up
the variable of that name: after a deferred definition the variable is read as the formula is
evaluated to at that moment, and so it is after an immediate definition if that is a value; if it is
an error, the immediate definition ends in this error. A formula that cannot be stored is refused
with the same error by both. Statements outside of a comment block define variables likewise. -/
theorem immediate_eq_deferred (config : Config) (requests : List Request) (raw : String)
    (formula : Formula) (pos : Position) (hlimit : config.limits.evalDepth ≠ 0)
    (hconstant : ((ofConfig config).after requests).interpreter.deck.constantValue? raw = none)
    (hlookups : Name.ofText raw ∉
      ((ofConfig config).after requests).interpreter.lookupsAt formula pos) :
    let s := (ofConfig config).after requests
    let immediate := s.step (.defineVariable raw formula .immediate pos)
    let deferred := s.step (.defineVariable raw formula .deferred pos)
    let outcome := ((Interpreter.evaluateAt formula pos).run s.interpreter).1
    (match ((Interpreter.storeAt formula pos).run s.interpreter).1 with
      | .error e => immediate.1 = .done (.error e) ∧ deferred.1 = .done (.error e)
      | .ok _ =>
        deferred.1 = .done (.ok ()) ∧
          (deferred.2.step (.variableValue raw)).1 = .value (outcome.map some) ∧
          immediate.1 = .done (outcome.map fun _ => ()) ∧
          ∀ v, outcome = .ok v →
            (immediate.2.step (.variableValue raw)).1 = .value (.ok (some v))) ∧
      (s.interpreter.deck.commentary.isActive = false → ∀ binding,
        s.step (.apply ⟨.variable raw formula binding, pos⟩) =
          s.step (.defineVariable raw formula binding pos)) := by
  intro s immediate deferred outcome
  refine ⟨?_, fun hactive binding => step_apply_variable hactive raw formula binding pos⟩
  obtain ⟨stray, same, hs, -⟩ := alike_after requests (alike_ofConfig config)
  let p := (Plain.Session.ofConfig config).after requests
  let deck : Plain.Deck Term := { p.interpreter.deck with pos }
  have hdepth : deck.limits.evalDepth ≠ 0 := by
    rw [show deck.limits = config.limits from hs.limits_eq]
    exact hlimit
  have hname : deck.symbols.consts.contains (Name.ofText raw) = false :=
    hs.contains_consts_of_constantValue?_eq_none hconstant
  -- what both definitions answer, and how the variable is read after them, is that of the plain
  -- deck
  have hanswer (binding : Binding) : (s.step (.defineVariable raw formula binding pos)).1 =
      .done (((Plain.Deck.defineVariable raw formula binding).run ⟨deck, #[]⟩).1.mapError
        Plain.Error.fatal) :=
    (hs.answer_eq_of_limit hlimit (.defineVariable raw formula binding pos)).1
  have hread (binding : Binding) :
      ((s.step (.defineVariable raw formula binding pos)).2.step (.variableValue raw)).1 =
        .value (((Plain.Deck.variableValue raw).run
          ⟨((Plain.Deck.defineVariable raw formula binding).run ⟨deck, #[]⟩).2.deck,
            #[]⟩).1.mapError Plain.Error.fatal) :=
    hs.variableValue_eq hlimit (.defineVariable raw formula binding pos) raw
  obtain ⟨trees, ⟨⟨g, hd, hmap⟩, -⟩, -⟩ := hs
  rcases Interpreter.evaluateAt_cases formula pos hlimit ⟨rfl, g, hd, hmap⟩ with
    ⟨e, w, hlower, hstored⟩ | ⟨t, w, hlower, ⟨id, hstored⟩, hlooked, heval⟩
  · rw [hstored]
    have hrefused (binding : Binding) :=
      Plain.Deck.run_defineVariable_of_lower_error hname hlower binding
    refine ⟨(hanswer .immediate).trans ?_, (hanswer .deferred).trans ?_⟩
    · rw [hrefused]
      rfl
    · rw [hrefused]
      rfl
  · rw [hstored]
    -- the formula is evaluated on the deck on which it was lowered
    obtain ⟨lowered, raised⟩ := w
    obtain rfl : lowered = deck := Plain.Deck.deck_of_run_lower hlower
    have hnot : Name.ofText raw ∉ deck.lookups t := hlooked ▸ hlookups
    have houtcome : outcome =
        ((Plain.Deck.evaluate t).run ⟨deck, raised⟩).1.mapError Plain.Error.fatal := heval
    have hdeferred := Plain.Deck.run_defineVariable_deferred hname hlower
    have himmediate := Plain.Deck.run_defineVariable_immediate hname hlower
    refine ⟨(hanswer .deferred).trans ?_, (hread .deferred).trans ?_,
      (hanswer .immediate).trans ?_, fun v hv => (hread .immediate).trans ?_⟩
    · rw [hdeferred]
      rfl
    · rw [hdeferred, houtcome]
      dsimp only
      rw [Plain.Deck.run_variableValue_deferred hdepth hnot #[] raised]
      exact congrArg Answer.value (mapError_map _ _ _)
    · rw [himmediate.1, houtcome]
      exact congrArg Answer.done (mapError_map _ _ _)
    · rw [houtcome] at hv
      rw [himmediate.2 v (ok_of_mapError hv), Plain.Deck.run_variableValue_immediate v #[]]
      rfl

/-- A variable that refers to itself is defined anew by the length of an element, which goes on into
a variable and from there one level too deep, so that both evaluations are cut short. -/
theorem immediate_eq_deferred_of_cut_short :
    let pos := Position.unread
    let config : Config := { limits := { evalDepth := 3 } }
    let requests : List Request :=
      [.defineVariable "A" (.binary .add (.name "B") (.number 1.0)) .deferred pos,
        .defineElement "Q" .drift [.assign "L" (.name "A")] pos,
        .defineVariable "V" (.name "V") .deferred pos]
    let formula : Formula := .binary .add (.lengthOf "Q") (.number 1.0)
    let s := (ofConfig config).after requests
    let immediate := s.step (.defineVariable "V" formula .immediate pos)
    let deferred := s.step (.defineVariable "V" formula .deferred pos)
    ∃ v, (deferred.2.step (.variableValue "V")).1 = .value (.ok (some v)) ∧
      (immediate.2.step (.variableValue "V")).1 = .value (.ok (some v)) := by
  intro pos config requests formula
  have hlookups : Name.ofText "V" ∉
      ((ofConfig config).after requests).interpreter.lookupsAt formula pos := by
    decide +kernel
  have hstored : ((Interpreter.storeAt formula pos).run
      ((ofConfig config).after requests).interpreter).1.isOk = true := by
    decide +kernel
  have hvalue : ((Interpreter.evaluateAt formula pos).run
      ((ofConfig config).after requests).interpreter).1.isOk = true := by
    decide +kernel
  have h : _ ∧ _ := immediate_eq_deferred config requests "V" formula pos (by decide)
    (by decide +kernel) hlookups
  cases hid : ((Interpreter.storeAt formula pos).run
      ((ofConfig config).after requests).interpreter).1 with
  | error e =>
    rw [hid] at hstored
    cases hstored
  | ok id =>
    rw [hid] at h
    obtain ⟨⟨-, hdeferred, -, himmediate⟩, -⟩ := h
    cases hv : ((Interpreter.evaluateAt formula pos).run
        ((ofConfig config).after requests).interpreter).1 with
    | error e =>
      rw [hv] at hvalue
      cases hvalue
    | ok v =>
      rw [hv] at hdeferred
      exact ⟨v, hdeferred, himmediate v hv⟩

end Session

end Beamline
