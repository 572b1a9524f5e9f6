import Beamline.Proofs.Session.Failure

/-!
# What requests report

A request other than a run asks the deck for one action, and what that has raised is reported to
the console, followed by the error that has ended it. A run reports what its statements report, up
to the first that fails. The console may drop what is reported to it; what is said here of reports
is said of all of them.

* `Session.step_eq`: a single request by the action that it asks for.
* `Session.console_step`: the console has been told the reports and nothing else.
-/

namespace Beamline

open Diagnostic (Console)
open Beamline.Expr (Formula NodeId)

/-! ## Actions -/

namespace Request

/-- The answer to a request that was done. -/
def done : Answer × List NodeId :=
  (.done (.ok ()), [])

/-- The answer to a request for a value. -/
def valued (value : Option Value) : Answer × List NodeId :=
  (.value (.ok value), [])

/-- What a request other than a run asks of the deck: an action that comes to the answer and to the
handles that are issued with it. What concerns the console alone asks for nothing. -/
def action (issued : List NodeId) : Request → Deck.Action (Answer × List NodeId)
  | .apply statement => (fun _ => done) <$> Deck.apply statement
  | .defineConstant raw formula pos => (fun _ => done) <$> do
    Deck.moveTo pos
    Deck.defineConstant raw formula
  | .defineVariable raw formula binding pos => (fun _ => done) <$> do
    Deck.moveTo pos
    Deck.defineVariable raw formula binding
  | .defineElement raw kind items pos => (fun _ => done) <$> do
    Deck.moveTo pos
    Deck.defineElement raw kind items
  | .defineLine raw body pos => (fun _ => done) <$> do
    Deck.moveTo pos
    Deck.defineLine raw body
  | .beginComment => (fun _ => done) <$> Deck.beginComment
  | .endComment => (fun _ => done) <$> Deck.endComment
  | .captureComment text atEnd => (fun _ => done) <$> Deck.captureComment text atEnd
  | .layout body => (fun entries => (.entries (.ok entries), [])) <$> Deck.layout body
  | .lower formula => (fun id => (.done (.ok ()), [id])) <$> Deck.lower formula
  | .evaluate number =>
    match issued[number]? with
    | some id => (fun value => valued (some value)) <$> Deck.evaluate id
    | none => return (.unissued, [])
  | .render number =>
    match issued[number]? with
    | some id => do return (.text ((← Deck.current).render id), [])
    | none => return (.unissued, [])
  | .constantValue raw => do return valued ((← Deck.current).constantValue? raw)
  | .variableValue raw => valued <$> Deck.variableValue raw
  | .attributeValue raw key => valued <$> Deck.attributeValue raw key
  | .entryValue raw index => valued <$> Deck.entryValue raw index
  | .elementLength raw => valued <$> Deck.elementLength raw
  | .resolve entry => do
    return (.member (match (← Deck.current).resolve entry with
      | .element record => some (.inl record.kind)
      | .line record => some (.inr record.entries)
      | .undefined => none), [])
  | .elementsOf kinds => do
    return (.names (((← Deck.current).elementsOf kinds).map Element.name), [])
  | .commentAt line => do return (.comment ((← Deck.current).commentary.atLine? line), [])
  | .run _ | .finish | .attach _ | .enterFile _ | .leaveFile | .nextLine => return done

/-- The answer to a request that ended in an error. -/
def refusal (e : FatalError) : Request → Answer
  | .layout _ => .entries (.error e)
  | .evaluate _ | .variableValue _ | .attributeValue .. | .entryValue .. | .elementLength _ =>
    .value (.error e)
  | _ => .done (.error e)

theorem error?_refusal (e : FatalError) (request : Request) :
    (request.refusal e).error? = some e := by
  cases request <;> rfl

end Request

namespace Session

variable {s : Session} {request : Request}

/-- The run of the action that a request other than a run asks for. -/
def runAction (s : Session) (request : Request) :
    Except FatalError (Answer × List NodeId) × Deck.Work :=
  (request.action s.issued).run ⟨s.interpreter.deck, #[]⟩

/-! ## Reports -/

/-- What a request other than a run reports: what its action has raised, and the error that has
ended it. -/
def reportsOfSingle (s : Session) (request : Request) : List Diagnostic :=
  (s.runAction request).2.raised.toList ++
    match (s.runAction request).1 with
    | .ok _ => []
    | .error e => [e.diagnostic (s.runAction request).2.deck.pos]

/-- What statements report, up to the first that fails. -/
def reportsOfRun (s : Session) : List Statement → List Diagnostic
  | [] => []
  | statement :: statements =>
    s.reportsOfSingle (.apply statement) ++
      match (s.step (.apply statement)).1.error? with
      | none => (s.step (.apply statement)).2.reportsOfRun statements
      | some _ => []

/-- What a request reports. -/
def reportsOf (s : Session) : Request → List Diagnostic
  | .run statements => s.reportsOfRun statements
  | request => s.reportsOfSingle request

theorem reportsOf_of_isSingle (s : Session) (hsingle : request.IsSingle) :
    s.reportsOf request = s.reportsOfSingle request := by
  cases request with
  | run statements => exact absurd rfl (hsingle statements)
  | _ => rfl

/-- What requests report, in order. -/
def reports (s : Session) : List Request → List Diagnostic
  | [] => []
  | request :: requests => s.reportsOf request ++ (s.step request).2.reports requests

/-! ## Single requests -/

/-- How a request other than a run is served: its action is run, the reports go to the console,
and what is asked of the console alone is done last. -/
def serve (s : Session) (request : Request) : Answer × Session :=
  let interpreter :=
    { deck := (s.runAction request).2.deck
      console := request.onConsole (s.interpreter.console.reportAll (s.reportsOfSingle request)) }
  match (s.runAction request).1 with
  | .ok (answer, handles) => (answer, { interpreter, issued := s.issued ++ handles })
  | .error e => (request.refusal e, { interpreter, issued := s.issued })

/-- An operation is served as the action that it performs. -/
theorem perform_eq_serve {α : Type} (action : Deck.Action α)
    (answer : Except FatalError α → Answer)
    (haction : request.action s.issued = (fun x => (answer (.ok x), [])) <$> action)
    (hrefusal : ∀ e, answer (.error e) = request.refusal e)
    (hconsole : ∀ c, request.onConsole c = c) :
    s.perform (Interpreter.perform action) answer = s.serve request := by
  have hrun := run_map (fun x => (answer (.ok x), ([] : List NodeId))) action
    ⟨s.interpreter.deck, #[]⟩
  rw [← haction, ← runAction] at hrun
  unfold serve reportsOfSingle
  rw [hrun, run_perform, Interpreter.run_perform, hconsole]
  rcases action.run ⟨s.interpreter.deck, #[]⟩ with ⟨e | x, w⟩
  · exact congrArg (·, _) (hrefusal e)
  · -- no handle is issued
    exact congrArg (fun issued => (answer (.ok x), (⟨_, issued⟩ : Session)))
      (List.append_nil s.issued).symm

/-- A request that asks the deck for nothing but an answer leaves it as it is. -/
theorem eq_serve {x : Answer × Session}
    (hx : x.2 = { s with interpreter := { s.interpreter with
      console := request.onConsole s.interpreter.console } })
    (haction : (request.action s.issued).run ⟨s.interpreter.deck, #[]⟩ =
      (.ok (x.1, []), ⟨s.interpreter.deck, #[]⟩)) : x = s.serve request := by
  unfold serve reportsOfSingle runAction
  rw [haction]
  refine Prod.ext rfl (hx.trans ?_)
  exact congrArg (Session.mk _) (List.append_nil s.issued).symm

theorem step_lower_eq (formula : Formula) :
    s.step (.lower formula) = s.serve (.lower formula) := by
  have hrun : s.runAction (.lower formula) =
      (((Deck.lower formula).run ⟨s.interpreter.deck, #[]⟩).1.map
          fun id => (Answer.done (.ok ()), [id]),
        ((Deck.lower formula).run ⟨s.interpreter.deck, #[]⟩).2) :=
    run_map _ _ _
  unfold serve reportsOfSingle
  rw [step_lower, hrun, Interpreter.run_perform]
  rcases (Deck.lower formula).run ⟨s.interpreter.deck, #[]⟩ with ⟨e | id, w⟩
  · rfl
  · rfl

theorem step_evaluate_eq (number : Nat) :
    s.step (.evaluate number) = s.serve (.evaluate number) := by
  cases hid : s.issued[number]? with
  | none =>
    -- no handle was issued under the number, so that the deck is not asked
    unfold step
    dsimp only
    rw [hid]
    refine eq_serve rfl ?_
    rw [Request.action, hid]
    rfl
  | some id =>
    rw [step_evaluate s hid]
    refine perform_eq_serve (some <$> Deck.evaluate id) .value ?_ (fun _ => rfl) fun _ => rfl
    rw [Request.action, hid, Functor.map_map]
    rfl

theorem step_render_eq (number : Nat) : s.step (.render number) = s.serve (.render number) := by
  unfold step
  dsimp only
  cases hid : s.issued[number]? with
  | none =>
    refine eq_serve rfl ?_
    rw [Request.action, hid]
    rfl
  | some id =>
    refine eq_serve rfl ?_
    rw [Request.action, hid]
    rfl

/-- A request other than a run is served by the action that it asks for. -/
theorem step_eq (hsingle : request.IsSingle) : s.step request = s.serve request := by
  have hdone (action : Deck.Action Unit)
      (haction : request.action s.issued = (fun _ => Request.done) <$> action)
      (hrefusal : ∀ e, Answer.done (.error e) = request.refusal e)
      (hconsole : ∀ c, request.onConsole c = c) :
      s.perform (Interpreter.perform action) .done = s.serve request :=
    perform_eq_serve action _ haction hrefusal hconsole
  -- requests for operations by what they perform, those that read the deck as they stand
  cases request with
  | run statements => exact absurd rfl (hsingle statements)
  | apply statement =>
    rw [step_apply]
    exact hdone (Deck.apply statement) rfl (fun _ => rfl) fun _ => rfl
  | defineConstant raw formula pos =>
    rw [step_defineConstant]
    exact hdone _ rfl (fun _ => rfl) fun _ => rfl
  | defineVariable raw formula binding pos =>
    rw [step_defineVariable]
    exact hdone _ rfl (fun _ => rfl) fun _ => rfl
  | defineElement raw kind items pos =>
    rw [step_defineElement]
    exact hdone _ rfl (fun _ => rfl) fun _ => rfl
  | defineLine raw body pos =>
    rw [step_defineLine]
    exact hdone _ rfl (fun _ => rfl) fun _ => rfl
  | beginComment =>
    rw [step_beginComment]
    exact hdone _ rfl (fun _ => rfl) fun _ => rfl
  | endComment =>
    rw [step_endComment]
    exact hdone Deck.endComment rfl (fun _ => rfl) fun _ => rfl
  | captureComment text atEnd =>
    rw [step_captureComment]
    exact hdone _ rfl (fun _ => rfl) fun _ => rfl
  | layout body =>
    rw [step_layout]
    exact perform_eq_serve (Deck.layout body) .entries rfl (fun _ => rfl) fun _ => rfl
  | lower formula => exact step_lower_eq formula
  | evaluate number => exact step_evaluate_eq number
  | render number => exact step_render_eq number
  | variableValue raw =>
    rw [step_variableValue]
    exact perform_eq_serve (Deck.variableValue raw) .value rfl (fun _ => rfl) fun _ => rfl
  | attributeValue raw key =>
    rw [step_attributeValue]
    exact perform_eq_serve (Deck.attributeValue raw key) .value rfl (fun _ => rfl) fun _ => rfl
  | entryValue raw index =>
    rw [step_entryValue]
    exact perform_eq_serve (Deck.entryValue raw index) .value rfl (fun _ => rfl) fun _ => rfl
  | elementLength raw =>
    rw [step_elementLength]
    exact perform_eq_serve (Deck.elementLength raw) .value rfl (fun _ => rfl) fun _ => rfl
  | constantValue | resolve | elementsOf | commentAt | finish | attach | enterFile | leaveFile
  | nextLine => exact eq_serve rfl rfl

/-! ## The console -/

theorem console_serve (s : Session) (request : Request) :
    (s.serve request).2.interpreter.console =
      request.onConsole (s.interpreter.console.reportAll (s.reportsOfSingle request)) := by
  unfold serve
  split <;> rfl

/-- The console has been told what a request reports, and nothing else. -/
theorem console_step (s : Session) (request : Request) :
    (s.step request).2.interpreter.console =
      request.onConsole (s.interpreter.console.reportAll (s.reportsOf request)) := by
  rcases request.isSingle_or_run with hsingle | ⟨statements, rfl⟩
  · rw [step_eq hsingle, console_serve, reportsOf_of_isSingle s hsingle]
  · change _ = s.interpreter.console.reportAll (s.reportsOfRun statements)
    -- statement by statement, up to the first that fails
    induction statements generalizing s with
    | nil => rfl
    | cons statement statements ih =>
      have hfirst : (s.step (.apply statement)).2.interpreter.console =
          s.interpreter.console.reportAll (s.reportsOfSingle (.apply statement)) := by
        rw [step_eq (Request.isSingle_apply statement), console_serve]
        rfl
      rw [reportsOfRun, Console.reportAll_append, ← hfirst]
      cases herror : (s.step (.apply statement)).1.error? with
      | some e =>
        rw [step_run_of_error herror]
        rfl
      | none =>
        rw [step_run_of_ok herror]
        exact ih _

end Session

end Beamline
