import Beamline.Proofs.Interpreter.Operations

/-!
# Sessions

A session is an interpreter together with the handles that it has issued for formulas stored on
request. What is asked of an interpreter is a request, and what it answers is an answer: both are
data, so that a whole run is a list. A request refers to a stored expression by its number in the
order of issue, never by its handle.
-/

namespace Beamline

open Source (Position)
open Diagnostic (Console Terminal)
open Beamline.Expr (Formula NodeId)

/-- What can be asked of an interpreter. -/
inductive Request where
  /-- Apply a statement. -/
  | apply (statement : Statement)
  /-- Apply statements in order, up to the first fatal error. -/
  | run (statements : List Statement)
  /-- Define a constant. -/
  | defineConstant (raw : String) (formula : Formula) (pos : Position)
  /-- Define a variable. -/
  | defineVariable (raw : String) (formula : Formula) (binding : Binding) (pos : Position)
  /-- Define an element. -/
  | defineElement (raw : String) (kind : Element.Kind) (items : List Element.Item)
      (pos : Position)
  /-- Define a line. -/
  | defineLine (raw : String) (body : Line.Body) (pos : Position)
  /-- Open a comment block. -/
  | beginComment
  /-- Close a comment block. -/
  | endComment
  /-- Keep a comment. -/
  | captureComment (text : String) (atEnd : Bool)
  /-- Lay out the body of a line. -/
  | layout (body : Line.Body)
  /-- Store a formula. -/
  | lower (formula : Formula)
  /-- Evaluate a formula stored on request, by its number. -/
  | evaluate (number : Nat)
  /-- The text of a formula stored on request, by its number. -/
  | render (number : Nat)
  /-- The value of a constant. -/
  | constantValue (raw : String)
  /-- The value of a variable. -/
  | variableValue (raw : String)
  /-- The value of an attribute. -/
  | attributeValue (raw key : String)
  /-- The value of an entry of a transfer map. -/
  | entryValue (raw : String) (index : Element.MapIndex)
  /-- The length of an element. -/
  | elementLength (raw : String)
  /-- What an entry of a line refers to. -/
  | resolve (entry : Line.Entry)
  /-- The elements of the given kinds. -/
  | elementsOf (kinds : Element.Kinds)
  /-- The first comment of a line of the input. -/
  | commentAt (line : Nat)
  /-- Print the summary of the diagnostics. -/
  | finish
  /-- Attach a terminal. -/
  | attach (terminal : Terminal)
  /-- Start to read a file. -/
  | enterFile (path : String)
  /-- End the file being read. -/
  | leaveFile
  /-- Go on to the next line of the input. -/
  | nextLine

/-- What an interpreter answers to a request. -/
inductive Answer where
  /-- The request was done, or ended in a fatal error. -/
  | done (outcome : Except FatalError Unit)
  /-- The entries of a line. -/
  | entries (outcome : Except FatalError (List Line.Entry))
  /-- A value; none for what does not exist. -/
  | value (outcome : Except FatalError (Option Value))
  /-- The text of an expression. -/
  | text (outcome : Except FatalError String)
  /-- What a line entry refers to: an element by its kind, a line by its entries, or nothing. -/
  | member (target : Option (Element.Kind ⊕ List Line.Entry))
  /-- The names of elements, in order. -/
  | names (names : List Name)
  /-- A comment, if there is one. -/
  | comment (comment : Option Comment)
  /-- No formula with that number was stored. -/
  | unissued

/-- The fatal error in which a request ended, if it did. -/
def Answer.error? : Answer → Option FatalError
  | .done (.error e) | .entries (.error e) | .value (.error e) | .text (.error e) => some e
  | _ => none

/-- What a request asks of the console alone. -/
def Request.onConsole (c : Console) : Request → Console
  | .finish => c.finish
  | .attach terminal => { c with terminal := some terminal }
  | .enterFile path => { c with cursor := (c.cursor.enter path).2 }
  | .leaveFile => { c with cursor := (c.cursor.leave?.map (·.2)).getD c.cursor }
  | .nextLine => { c with cursor := c.cursor.advance }
  | _ => c

/-- An interpreter and the handles that it has issued on request, in order. -/
structure Session where
  /-- The interpreter. -/
  interpreter : Interpreter
  /-- The handles of the formulas stored on request. -/
  issued : List NodeId

namespace Session

/-- The session before the first request. -/
def ofConfig (config : Config) : Session where
  interpreter := Interpreter.ofConfig config
  issued := []

/-- Runs an operation of the interpreter. -/
def perform {α : Type} (s : Session) (operation : Interpreter.Action α)
    (answer : Except FatalError α → Answer) : Answer × Session :=
  let (outcome, interpreter) := operation.run s.interpreter
  (answer outcome, { s with interpreter })

theorem run_perform {α : Type} (s : Session) (operation : Interpreter.Action α)
    (answer : Except FatalError α → Answer) :
    s.perform operation answer =
      (answer (operation.run s.interpreter).1,
        { s with interpreter := (operation.run s.interpreter).2 }) :=
  rfl

/-- Serves a request. -/
def step (s : Session) (request : Request) : Answer × Session :=
  let deck := s.interpreter.deck
  match request with
  | .apply statement => s.perform (Interpreter.apply statement) .done
  | .run statements => s.perform (Interpreter.run statements) .done
  | .defineConstant raw formula pos =>
    s.perform (Interpreter.defineConstant raw formula pos) .done
  | .defineVariable raw formula binding pos =>
    s.perform (Interpreter.defineVariable raw formula binding pos) .done
  | .defineElement raw kind items pos =>
    s.perform (Interpreter.defineElement raw kind items pos) .done
  | .defineLine raw body pos => s.perform (Interpreter.defineLine raw body pos) .done
  | .beginComment => s.perform Interpreter.beginComment .done
  | .endComment => s.perform Interpreter.endComment .done
  | .captureComment text atEnd => s.perform (Interpreter.captureComment text atEnd) .done
  | .layout body => s.perform (Interpreter.layout body) .entries
  | .lower formula =>
    -- from here on the handle is the caller's, who is never asked to give it back
    match (Interpreter.lower formula).run s.interpreter with
    | (.ok id, interpreter) => (.done (.ok ()), { interpreter, issued := s.issued ++ [id] })
    | (.error e, interpreter) => (.done (.error e), { s with interpreter })
  | .evaluate number =>
    match s.issued[number]? with
    | some id => s.perform (some <$> Interpreter.evaluate id) .value
    | none => (.unissued, s)
  | .render number =>
    match s.issued[number]? with
    | some id => (.text (deck.render id), s)
    | none => (.unissued, s)
  | .constantValue raw => (.value (.ok (deck.constantValue? raw)), s)
  | .variableValue raw => s.perform (Interpreter.variableValue raw) .value
  | .attributeValue raw key => s.perform (Interpreter.attributeValue raw key) .value
  | .entryValue raw index => s.perform (Interpreter.entryValue raw index) .value
  | .elementLength raw => s.perform (Interpreter.elementLength raw) .value
  | .resolve entry =>
    (.member (match deck.resolve entry with
      | .element record => some (.inl record.kind)
      | .line record => some (.inr record.entries)
      | .undefined => none), s)
  | .elementsOf kinds => (.names ((deck.elementsOf kinds).map Element.name), s)
  | .commentAt line => (.comment (deck.commentary.atLine? line), s)
  | request =>
    (.done (.ok ()), { s with
      interpreter := { s.interpreter with
        console := request.onConsole s.interpreter.console } })

/-- The session after requests. -/
def after (s : Session) (requests : List Request) : Session :=
  requests.foldl (fun s request => (s.step request).2) s

/-- What is seen of a session: each answer, and the console after it. -/
def trace (s : Session) : List Request → List (Answer × Console)
  | [] => []
  | request :: requests =>
    let (answer, next) := s.step request
    (answer, next.interpreter.console) :: next.trace requests

theorem trace_cons (s : Session) (request : Request) (requests : List Request) :
    s.trace (request :: requests) =
      ((s.step request).1, (s.step request).2.interpreter.console) ::
        (s.step request).2.trace requests :=
  rfl

/-! ## Requests as actions on the deck

What an operation does is what its action does, whose diagnostics are reported in order. -/

section Actions

variable (s : Session)

theorem step_apply (statement : Statement) :
    s.step (.apply statement) = s.perform (Interpreter.perform (Deck.apply statement)) .done := by
  rw [← Interpreter.apply_eq_perform]
  rfl

theorem step_defineConstant (raw : String) (formula : Formula) (pos : Position) :
    s.step (.defineConstant raw formula pos) =
      s.perform (Interpreter.performAt pos (Deck.defineConstant raw formula)) .done := by
  rw [← Interpreter.defineConstant_eq_perform]
  rfl

theorem step_defineVariable (raw : String) (formula : Formula) (binding : Binding)
    (pos : Position) :
    s.step (.defineVariable raw formula binding pos) =
      s.perform (Interpreter.performAt pos (Deck.defineVariable raw formula binding)) .done := by
  rw [← Interpreter.defineVariable_eq_perform]
  rfl

theorem step_defineElement (raw : String) (kind : Element.Kind) (items : List Element.Item)
    (pos : Position) :
    s.step (.defineElement raw kind items pos) =
      s.perform (Interpreter.performAt pos (Deck.defineElement raw kind items)) .done := by
  rw [← Interpreter.defineElement_eq_perform]
  rfl

theorem step_defineLine (raw : String) (body : Line.Body) (pos : Position) :
    s.step (.defineLine raw body pos) =
      s.perform (Interpreter.performAt pos (Deck.defineLine raw body)) .done := by
  rw [← Interpreter.defineLine_eq_perform]
  rfl

theorem step_beginComment :
    s.step .beginComment = s.perform (Interpreter.perform Deck.beginComment) .done := by
  rw [← Interpreter.beginComment_eq_perform]
  rfl

theorem step_endComment :
    s.step .endComment = s.perform (Interpreter.perform Deck.endComment) .done := by
  rw [← Interpreter.endComment_eq_perform]
  rfl

theorem step_captureComment (text : String) (atEnd : Bool) :
    s.step (.captureComment text atEnd) =
      s.perform (Interpreter.perform (Deck.captureComment text atEnd)) .done := by
  rw [← Interpreter.captureComment_eq_perform]
  rfl

theorem step_layout (body : Line.Body) :
    s.step (.layout body) = s.perform (Interpreter.perform (Deck.layout body)) .entries := by
  rw [← Interpreter.layout_eq_perform]
  rfl

theorem step_lower (formula : Formula) :
    s.step (.lower formula) =
      match (Interpreter.perform (Deck.lower formula)).run s.interpreter with
      | (.ok id, interpreter) => (.done (.ok ()), { interpreter, issued := s.issued ++ [id] })
      | (.error e, interpreter) => (.done (.error e), { s with interpreter }) := by
  rw [← Interpreter.lower_eq_perform]
  rfl

theorem step_evaluate {number : Nat} {id : NodeId} (hid : s.issued[number]? = some id) :
    s.step (.evaluate number) =
      s.perform (Interpreter.perform (some <$> Deck.evaluate id)) .value := by
  unfold step
  dsimp only
  rw [hid, ← Interpreter.map_perform, ← Interpreter.evaluate_eq_perform]

theorem step_variableValue (raw : String) :
    s.step (.variableValue raw) =
      s.perform (Interpreter.perform (Deck.variableValue raw)) .value := by
  rw [← Interpreter.variableValue_eq_perform]
  rfl

theorem step_attributeValue (raw key : String) :
    s.step (.attributeValue raw key) =
      s.perform (Interpreter.perform (Deck.attributeValue raw key)) .value := by
  rw [← Interpreter.attributeValue_eq_perform]
  rfl

theorem step_entryValue (raw : String) (index : Element.MapIndex) :
    s.step (.entryValue raw index) =
      s.perform (Interpreter.perform (Deck.entryValue raw index)) .value := by
  rw [← Interpreter.entryValue_eq_perform]
  rfl

theorem step_elementLength (raw : String) :
    s.step (.elementLength raw) =
      s.perform (Interpreter.perform (Deck.elementLength raw)) .value := by
  rw [← Interpreter.elementLength_eq_perform]
  rfl

end Actions

end Session

end Beamline
