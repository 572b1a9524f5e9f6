import Beamline.Proofs.Plain.Constants
import Beamline.Proofs.Session.Reading

/-!
# Constants in two sessions

Two sessions with the same constants make the same of the definition of a further one, as long as
its formula asks for no length. A length is looked up in the elements, also in the definition of a
constant, so that the elements decide about the value then.

* `Session.defineConstant_congr`: the definition in two sessions with the same constants.
* `Session.defineConstant_lengthOf`: a length makes a difference.
-/

namespace Beamline

open Source (Position)
open Beamline.Expr (Formula)

/-- Plain sessions with the same constants answer the definition of a constant alike, unless its
formula asks for a length. The constants are the same afterwards. -/
theorem Plain.Session.defineConstant_cases {p p' : Plain.Session} {raw : String}
    {formula : Formula} (hlengths : ∀ raw, .lengthOf raw ∉ formula.leaves) (pos : Position)
    (hconstants : p.interpreter.deck.scope.constant? = p'.interpreter.deck.scope.constant?)
    (hlimits : p.interpreter.deck.limits = p'.interpreter.deck.limits)
    (hvars : p.interpreter.deck.symbols.vars.contains (Name.ofText raw) = false)
    (hvars' : p'.interpreter.deck.symbols.vars.contains (Name.ofText raw) = false) :
    let x := p.step (.defineConstant raw formula pos)
    let x' := p'.step (.defineConstant raw formula pos)
    x.1 = x'.1 ∧ x.1.error? ≠ some Plain.Error.endless.fatal ∧
      x.2.interpreter.deck.scope.constant? = x'.2.interpreter.deck.scope.constant? ∧
      (x.1.error? = none →
        (x.2.interpreter.deck.scope.constant? (Name.ofText raw)).isSome = true) := by
  intro x x'
  let action : Plain.Deck.Action Unit := do
    Plain.Deck.moveTo pos
    Plain.Deck.defineConstant raw formula
  let w : Plain.Deck.Work := ⟨p.interpreter.deck, #[]⟩
  let w' : Plain.Deck.Work := ⟨p'.interpreter.deck, #[]⟩
  have hmove (w : Plain.Deck.Work) : action.run w =
      (Plain.Deck.defineConstant raw formula).run { w with deck := { w.deck with pos } } := rfl
  have hx : x = p.perform (Plain.Interpreter.perform action) .done := rfl
  have hx' : x' = p'.perform (Plain.Interpreter.perform action) .done := rfl
  rw [hx, hx', Plain.Session.run_perform, Plain.Session.run_perform,
    Plain.Interpreter.run_perform, Plain.Interpreter.run_perform]
  rcases Plain.Deck.agree_defineConstant hlengths { w with deck := { w.deck with pos } }
      { w' with deck := { w'.deck with pos } } ⟨⟨hvars, hvars'⟩, rfl, hconstants, rfl, hlimits⟩ with
    ⟨_, _, v, v', hv, hv', -, hsame, hsome⟩ | ⟨e, _, v, v', hv, hv', ⟨rfl, hend⟩, hsame⟩
  · rw [← hmove] at hv hv'
    rw [hv, hv']
    exact ⟨rfl, nofun, hsame.constant?, fun _ => hsome⟩
  · rw [← hmove] at hv hv'
    rw [hv, hv']
    refine ⟨rfl, fun h => hend ?_, hsame.constant?, nofun⟩
    cases e <;> first | rfl | cases h

namespace Session

/-- If two sessions have the same constants, the definition of a constant that asks for no length
ends in the same error in both, or stores the same value in both. The name must be taken by a
variable in neither. -/
theorem defineConstant_congr (config : Config) (requests requests' : List Request) (raw : String)
    (formula : Formula) (pos : Position) (hlengths : ∀ raw, .lengthOf raw ∉ formula.leaves) :
    let s := (ofConfig config).after requests
    let s' := (ofConfig config).after requests'
    let x := s.step (.defineConstant raw formula pos)
    let x' := s'.step (.defineConstant raw formula pos)
    (∀ name, s.interpreter.deck.constantValue? name = s'.interpreter.deck.constantValue? name) →
      s.interpreter.deck.symbols.vars.contains (Name.ofText raw) = false →
      s'.interpreter.deck.symbols.vars.contains (Name.ofText raw) = false →
        x.1 = x'.1 ∧
        (∀ name, x.2.interpreter.deck.constantValue? name =
          x'.2.interpreter.deck.constantValue? name) ∧
        (x.1.error? = none →
          ∃ v, x.2.interpreter.deck.constantValue? raw = some v ∧
            x'.2.interpreter.deck.constantValue? raw = some v) := by
  intro s s' x x' hconstants hvars hvars'
  obtain ⟨_, _, hs, -⟩ := alike_after requests (alike_ofConfig config)
  obtain ⟨_, _, hs', -⟩ := alike_after requests' (alike_ofConfig config)
  let p := (Plain.Session.ofConfig config).after requests
  let p' := (Plain.Session.ofConfig config).after requests'
  have hplain : p.interpreter.deck.scope.constant? = p'.interpreter.deck.scope.constant? := by
    funext name
    have hname := hconstants name.text
    rwa [hs.constantValue?_eq, hs'.constantValue?_eq, Name.ofText_text] at hname
  rw [hs.contains_vars] at hvars
  rw [hs'.contains_vars] at hvars'
  obtain ⟨hanswer, hend, hafter, hsome⟩ :=
    Plain.Session.defineConstant_cases hlengths pos hplain (hs.limits_eq.trans hs'.limits_eq.symm)
      hvars hvars'
  -- both sessions answer as the plain ones do, and so do the values that are stored
  obtain ⟨hx, _, _, halike⟩ := hs.answer_eq hend
  obtain ⟨hx', _, _, halike'⟩ := hs'.answer_eq (hanswer ▸ hend)
  have hvalues : ∀ name, x.2.interpreter.deck.constantValue? name =
      x'.2.interpreter.deck.constantValue? name := by
    intro name
    rw [halike.constantValue?_eq, halike'.constantValue?_eq, hafter]
  refine ⟨hx.trans (hanswer.trans hx'.symm), hvalues, fun hnone => ?_⟩
  obtain ⟨v, hv⟩ := Option.isSome_iff_exists.1 (hsome (hx ▸ hnone))
  have hstored := (halike.constantValue?_eq raw).trans hv
  exact ⟨v, hstored, (hvalues raw).symm.trans hstored⟩

/-- A constant that names another one and one that is not there, defined in a session with a
variable and an element and in one without. -/
theorem defineConstant_congr_of_sum :
    let pos := Position.unread
    let requests : List Request :=
      [.defineConstant "A" (.number 1.0) pos,
        .defineVariable "X" (.number 2.0) .deferred pos,
        .defineElement "Q1" .drift [.assign "L" (.number 3.0)] pos]
    let requests' : List Request := [.defineConstant "A" (.number 1.0) pos]
    let formula : Formula := .binary .add (.name "A") (.name "X")
    let x := ((ofConfig {}).after requests).step (.defineConstant "C" formula pos)
    let x' := ((ofConfig {}).after requests').step (.defineConstant "C" formula pos)
    x.1.error? = none ∧
      ∃ v, x.2.interpreter.deck.constantValue? "C" = some v ∧
        x'.2.interpreter.deck.constantValue? "C" = some v := by
  intro pos requests requests' formula
  have hlengths : ∀ raw, Formula.lengthOf raw ∉ formula.leaves := by
    intro raw
    simp [formula, Formula.leaves]
  have hconsts : ((ofConfig {}).after requests).interpreter.deck.symbols.consts =
      ((ofConfig {}).after requests').interpreter.deck.symbols.consts := rfl
  have hconstants (name : String) := congrArg
    (fun consts => (consts.lookup? name).map Constant.value) hconsts
  have hnone : (((ofConfig {}).after requests).step
      (.defineConstant "C" formula pos)).1.error? = none := by decide +kernel
  have hvars : ((ofConfig {}).after requests).interpreter.deck.symbols.vars.contains
      (Name.ofText "C") = false := by decide +kernel
  have hvars' : ((ofConfig {}).after requests').interpreter.deck.symbols.vars.contains
      (Name.ofText "C") = false := by decide +kernel
  have h := defineConstant_congr {} requests requests' "C" formula pos hlengths hconstants hvars
    hvars'
  exact ⟨hnone, h.2.2 hnone⟩

/-- What the length of an element makes of a constant: in two sessions with the same constants, and
without variables, the same definition stores two values. -/
theorem defineConstant_lengthOf :
    let pos := Position.unread
    let s := (ofConfig {}).after [.defineElement "Q1" .drift [.assign "L" (.number 2.0)] pos]
    let s' := (ofConfig {}).after []
    let x := s.step (.defineConstant "C" (.lengthOf "Q1") pos)
    let x' := s'.step (.defineConstant "C" (.lengthOf "Q1") pos)
    (∀ name, s.interpreter.deck.constantValue? name = s'.interpreter.deck.constantValue? name) ∧
      s.interpreter.deck.symbols.vars.contains (Name.ofText "C") = false ∧
      s'.interpreter.deck.symbols.vars.contains (Name.ofText "C") = false ∧
      x.1.error? = none ∧ x'.1.error? = none ∧
      x.2.interpreter.deck.constantValue? "C" ≠ x'.2.interpreter.deck.constantValue? "C" := by
  intro pos s s' x x'
  have hconsts : s.interpreter.deck.symbols.consts = s'.interpreter.deck.symbols.consts := rfl
  have hconstants (name : String) : s.interpreter.deck.constantValue? name =
      s'.interpreter.deck.constantValue? name := by
    rw [Deck.constantValue?, Deck.constantValue?, hconsts]
  refine ⟨hconstants, by decide +kernel, by decide +kernel, by decide +kernel, by decide +kernel,
    fun h => ?_⟩
  -- numbers are told apart by their digits
  have hdigits : (x.2.interpreter.deck.constantValue? "C").map Value.render ≠
      (x'.2.interpreter.deck.constantValue? "C").map Value.render := by decide +kernel
  exact hdigits (congrArg _ h)

end Session

end Beamline
