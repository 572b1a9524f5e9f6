import Beamline.Proofs.Session.Basic
import Beamline.Proofs.Spelling

/-!
# Sessions and spelling

Requests with every name and every keyword of an attribute in normal form are served as the requests
themselves, with the same answers, the same diagnostics, the same records and the same handles. So
two lists of requests that differ only in spelling cannot be told apart.

* `Session.step_normalized`: one request.
* `Session.trace_eq_of_normalized`: lists of requests.
-/

namespace Beamline

open Source (Position)
open Beamline.Expr (Formula)

/-- The request with its names, keywords and identifiers in normal form. -/
def Request.normalized : Request → Request
  | .apply statement => .apply statement.normalized
  | .run statements => .run (statements.map Statement.normalized)
  | .defineConstant raw formula pos =>
    .defineConstant (Text.normalize raw) formula.normalized pos
  | .defineVariable raw formula binding pos =>
    .defineVariable (Text.normalize raw) formula.normalized binding pos
  | .defineElement raw kind items pos =>
    .defineElement (Text.normalize raw) kind (items.map Element.Item.normalized) pos
  | .defineLine raw body pos => .defineLine (Text.normalize raw) body.normalized pos
  | .layout body => .layout body.normalized
  | .lower formula => .lower formula.normalized
  | .constantValue raw => .constantValue (Text.normalize raw)
  | .variableValue raw => .variableValue (Text.normalize raw)
  | .attributeValue raw key => .attributeValue (Text.normalize raw) (Text.normalize key)
  | .entryValue raw index => .entryValue (Text.normalize raw) index
  | .elementLength raw => .elementLength (Text.normalize raw)
  -- names that are given as such are in normal form, and comments and paths are kept
  | request => request

namespace Interpreter

theorem apply_normalized (statement : Statement) :
    apply statement.normalized = apply statement := by
  rw [apply_eq_perform, apply_eq_perform, Deck.apply_normalized]

theorem run_normalized (statements : List Statement) :
    run (statements.map Statement.normalized) = run statements := by
  induction statements with
  | nil => rfl
  | cons statement statements ih => simp only [List.map_cons, run, apply_normalized, ih]

end Interpreter

namespace Session

/-- A request is served as its normal form is. -/
theorem step_normalized (s : Session) (request : Request) :
    s.step request.normalized = s.step request := by
  cases request with
  | apply statement => simp only [Request.normalized, step, Interpreter.apply_normalized]
  | run statements => simp only [Request.normalized, step, Interpreter.run_normalized]
  | defineConstant raw formula pos =>
    simp only [Request.normalized, step_defineConstant, Deck.defineConstant_normalized]
  | defineVariable raw formula binding pos =>
    simp only [Request.normalized, step_defineVariable, Deck.defineVariable_normalized]
  | defineElement raw kind items pos =>
    simp only [Request.normalized, step_defineElement, Deck.defineElement_normalized]
  | defineLine raw body pos =>
    simp only [Request.normalized, step_defineLine, Deck.defineLine_normalized]
  | layout body => simp only [Request.normalized, step_layout, Deck.layout_normalized]
  | lower formula => simp only [Request.normalized, step_lower, Deck.lower_normalized]
  | constantValue raw => simp only [Request.normalized, step, Deck.constantValue?_normalize]
  | variableValue raw =>
    simp only [Request.normalized, step_variableValue, Deck.variableValue_normalize]
  | attributeValue raw key =>
    simp only [Request.normalized, step_attributeValue, Deck.attributeValue_normalize]
  | entryValue raw index =>
    simp only [Request.normalized, step_entryValue, Deck.entryValue_normalize]
  | elementLength raw =>
    simp only [Request.normalized, step_elementLength, Deck.elementLength_normalize]
  | _ => rfl

theorem after_map_normalized (s : Session) (requests : List Request) :
    s.after (requests.map Request.normalized) = s.after requests := by
  induction requests generalizing s with
  | nil => rfl
  | cons request requests ih =>
    change (s.step request.normalized).2.after (requests.map Request.normalized) =
      (s.step request).2.after requests
    rw [step_normalized, ih]

theorem trace_map_normalized (s : Session) (requests : List Request) :
    s.trace (requests.map Request.normalized) = s.trace requests := by
  induction requests generalizing s with
  | nil => rfl
  | cons request requests ih => rw [List.map_cons, trace_cons, trace_cons, step_normalized, ih]

/-- Two lists of requests that have the same normal form are served alike, from whatever session:
step by step they get the same answers and tell the console the same, and they leave the same
session, with the same records under the same handles. -/
theorem trace_eq_of_normalized (s : Session) {requests others : List Request}
    (h : requests.map Request.normalized = others.map Request.normalized) :
    s.trace requests = s.trace others ∧
      (∀ n, s.after (requests.take n) = s.after (others.take n)) ∧
      s.after requests = s.after others := by
  have hafter {requests others : List Request}
      (h : requests.map Request.normalized = others.map Request.normalized) :
      s.after requests = s.after others := by
    rw [← after_map_normalized s requests, h, after_map_normalized]
  refine ⟨?_, fun n => hafter ?_, hafter h⟩
  · rw [← trace_map_normalized s requests, h, trace_map_normalized]
  · rw [List.map_take, List.map_take, h]

/-- A constant, an element with a label and a line, each spelled in two ways. The label is kept as
it is written. -/
theorem trace_eq_of_normalized_of_lower_case :
    let pos := Position.unread
    let requests : List Request :=
      [.defineConstant " a" (.number 1.0) pos,
        .run [⟨.element "q1" .quadrupole
            [.assign "l" (.name "A "), .assign "type" (.name "Mag"), .flag "tilt"], pos⟩,
          ⟨.line "ring" (.repetition "2" (.member " q1")), pos⟩],
        .attributeValue "Q1" "Tilt"]
    let others : List Request :=
      [.defineConstant "A" (.number 1.0) pos,
        .run [⟨.element "Q1" .quadrupole
            [.assign "L" (.name "a"), .assign " TYPE" (.name "Mag"), .flag "TILT "], pos⟩,
          ⟨.line "Ring" (.repetition "2" (.member "q1")), pos⟩],
        .attributeValue " q1" "TILT"]
    let s := ofConfig {}
    requests ≠ others ∧ requests.map Request.normalized = others.map Request.normalized ∧
      ((s.after requests).interpreter.deck.symbols.elements.lookup? "Q1").bind Element.label =
        some "Mag" ∧
      s.trace requests = s.trace others ∧ s.after requests = s.after others := by
  intro pos requests others s
  have hspelled : Text.normalize " a" = "A" ∧ Text.normalize "A" = "A" ∧ Text.normalize "a" = "A" ∧
      Text.normalize "A " = "A" ∧ Text.normalize "q1" = "Q1" ∧ Text.normalize "Q1" = "Q1" ∧
      Text.normalize " q1" = "Q1" ∧ Text.normalize "ring" = "RING" ∧
      Text.normalize "Ring" = "RING" := by
    decide +kernel
  have hkeywords : Text.normalize "l" = "L" ∧ Text.normalize "L" = "L" ∧
      Text.normalize "type" = "TYPE" ∧ Text.normalize " TYPE" = "TYPE" ∧
      Text.normalize "tilt" = "TILT" ∧ Text.normalize "Tilt" = "TILT" ∧
      Text.normalize "TILT " = "TILT" ∧ Text.normalize "TILT" = "TILT" := by
    decide +kernel
  have hnormalized : requests.map Request.normalized = others.map Request.normalized := by
    simp [requests, others, Request.normalized, Statement.normalized, Clause.normalized,
      Element.Item.normalized, Formula.normalized, Line.Body.normalized, Deck.labelOf?, hspelled,
      hkeywords]
  have hlabel : ((s.after requests).interpreter.deck.symbols.elements.lookup? "Q1").bind
      Element.label = some "Mag" := by
    decide +kernel
  obtain ⟨htrace, -, hafter⟩ := trace_eq_of_normalized s hnormalized
  exact ⟨by simp [requests, others], hnormalized, hlabel, htrace, hafter⟩

end Session

end Beamline
