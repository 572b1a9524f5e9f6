import Beamline.Proofs.Plain.Deck
import Beamline.Proofs.Session.Basic

/-!
# Plain sessions

The interpreter and the session over plain decks: the reference that says what a session answers,
without a forest behind it. A formula stored on request is kept as its term.
-/

namespace Beamline.Plain

open Source (Position)
open Diagnostic (Console)
open Beamline.Expr (Formula Term)

/-- A plain deck and the console to which its diagnostics go. -/
structure Interpreter where
  /-- What has been defined so far. -/
  deck : Deck Term
  /-- Where diagnostics go. -/
  console : Console

namespace Interpreter

/-- The interpreter before the first statement. -/
def ofConfig (config : Config) : Interpreter where
  deck := Deck.initial config.limits
  console := Console.ofPolicy config.policy

/-- An operation of the interpreter. -/
abbrev Action := ExceptT FatalError (StateM Interpreter)

/-- Runs an action on the deck and reports what it raised and the error that ended it. -/
def perform {α : Type} (action : Deck.Action α) : Action α :=
  .mk fun it =>
    let (outcome, work) := action.run { deck := it.deck, raised := #[] }
    let fatal := match outcome with
      | .ok _ => []
      | .error e => [e.fatal.diagnostic work.deck.pos]
    (outcome.mapError Error.fatal,
      { deck := work.deck, console := it.console.reportAll (work.raised.toList ++ fatal) })

theorem run_perform {α : Type} (action : Deck.Action α) (it : Interpreter) :
    (perform action).run it =
      ((action.run ⟨it.deck, #[]⟩).1.mapError Error.fatal,
        { deck := (action.run ⟨it.deck, #[]⟩).2.deck
          console := it.console.reportAll ((action.run ⟨it.deck, #[]⟩).2.raised.toList ++
            match (action.run ⟨it.deck, #[]⟩).1 with
            | .ok _ => []
            | .error e => [e.fatal.diagnostic (action.run ⟨it.deck, #[]⟩).2.deck.pos]) }) :=
  rfl

/-- Runs an action of a statement read at `pos`. -/
def performAt {α : Type} (pos : Position) (action : Deck.Action α) : Action α :=
  perform do
    Deck.moveTo pos
    action

/-- Applies a statement. -/
def apply (statement : Statement) : Action Unit :=
  perform (Deck.apply statement)

/-- Applies statements in order, up to the first fatal error. -/
def run : List Statement → Action Unit
  | [] => return ()
  | statement :: statements => do
    apply statement
    run statements

end Interpreter

/-- A plain interpreter and the terms that it has kept on request, in order. -/
structure Session where
  /-- The interpreter. -/
  interpreter : Interpreter
  /-- The terms of the formulas stored on request. -/
  issued : List Term

namespace Session

/-- The session before the first request. -/
def ofConfig (config : Config) : Session where
  interpreter := Interpreter.ofConfig config
  issued := []

/-- Runs an operation of the interpreter. -/
def perform {α : Type} (s : Session) (operation : Interpreter.Action α)
    (answer : Except FatalError α → Answer) : Answer × Session :=
  let (outcome, interpreter) := operation.run s.interpreter
  (answer outcome, { s with interpreter })

theorem run_perform {α : Type} (s : Session) (operation : Interpreter.Action α)
    (answer : Except FatalError α → Answer) :
    s.perform operation answer =
      (answer (operation.run s.interpreter).1,
        { s with interpreter := (operation.run s.interpreter).2 }) :=
  rfl

/-- Serves a request. -/
def step (s : Session) (request : Request) : Answer × Session :=
  let deck := s.interpreter.deck
  match request with
  | .apply statement => s.perform (Interpreter.apply statement) .done
  | .run statements => s.perform (Interpreter.run statements) .done
  | .defineConstant raw formula pos =>
    s.perform (Interpreter.performAt pos (Deck.defineConstant raw formula)) .done
  | .defineVariable raw formula binding pos =>
    s.perform (Interpreter.performAt pos (Deck.defineVariable raw formula binding)) .done
  | .defineElement raw kind items pos =>
    s.perform (Interpreter.performAt pos (Deck.defineElement raw kind items)) .done
  | .defineLine raw body pos =>
    s.perform (Interpreter.performAt pos (Deck.defineLine raw body)) .done
  | .beginComment => s.perform (Interpreter.perform Deck.beginComment) .done
  | .endComment => s.perform (Interpreter.perform Deck.endComment) .done
  | .captureComment text atEnd =>
    s.perform (Interpreter.perform (Deck.captureComment text atEnd)) .done
  | .layout body => s.perform (Interpreter.perform (Deck.layout body)) .entries
  | .lower formula =>
    match (Interpreter.perform (Deck.lower formula)).run s.interpreter with
    | (.ok t, interpreter) => (.done (.ok ()), { interpreter, issued := s.issued ++ [t] })
    | (.error e, interpreter) => (.done (.error e), { s with interpreter })
  | .evaluate number =>
    match s.issued[number]? with
    | some t => s.perform (some <$> Interpreter.perform (Deck.evaluate t)) .value
    | none => (.unissued, s)
  | .render number =>
    match s.issued[number]? with
    | some t => (.text (.ok t.render), s)
    | none => (.unissued, s)
  | .constantValue raw => (.value (.ok (deck.constantValue? raw)), s)
  | .variableValue raw => s.perform (Interpreter.perform (Deck.variableValue raw)) .value
  | .attributeValue raw key =>
    s.perform (Interpreter.perform (Deck.attributeValue raw key)) .value
  | .entryValue raw index => s.perform (Interpreter.perform (Deck.entryValue raw index)) .value
  | .elementLength raw => s.perform (Interpreter.perform (Deck.elementLength raw)) .value
  | .resolve entry =>
    -- an element comes before a line of the same name
    (.member (match deck.symbols.elements.get? entry.name with
      | some record => some (.inl record.kind)
      | none => (deck.symbols.lines.get? entry.name).map fun record => .inr record.entries), s)
  | .elementsOf kinds =>
    (.names ((deck.symbols.elements.ordered.filter fun e => kinds.contains e.kind).map
      Element.name), s)
  | .commentAt line => (.comment (deck.commentary.atLine? line), s)
  | request =>
    (.done (.ok ()), { s with
      interpreter := { s.interpreter with
        console := request.onConsole s.interpreter.console } })

theorem step_lower (s : Session) (formula : Formula) :
    s.step (.lower formula) =
      match (Interpreter.perform (Deck.lower formula)).run s.interpreter with
      | (.ok t, interpreter) => (.done (.ok ()), { interpreter, issued := s.issued ++ [t] })
      | (.error e, interpreter) => (.done (.error e), { s with interpreter }) :=
  rfl

/-- The session after requests. -/
def after (s : Session) (requests : List Request) : Session :=
  requests.foldl (fun s request => (s.step request).2) s

/-- What is seen of a session: each answer, and the console after it. -/
def trace (s : Session) : List Request → List (Answer × Console)
  | [] => []
  | request :: requests =>
    let (answer, next) := s.step request
    (answer, next.interpreter.console) :: next.trace requests

theorem trace_cons (s : Session) (request : Request) (requests : List Request) :
    s.trace (request :: requests) =
      ((s.step request).1, (s.step request).2.interpreter.console) ::
        (s.step request).2.trace requests :=
  rfl

end Session

end Beamline.Plain
