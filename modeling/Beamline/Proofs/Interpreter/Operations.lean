import Beamline.Interpreter
import Beamline.Proofs.Interpreter.Formulas

/-!
# Operations do not listen to the console

The operations of an interpreter report in the middle of their work: while a formula is stored or
evaluated, between the members of a line, between the items of an element. An action on the deck
alone keeps a list of what it raises. To perform an action is to run it without a console and to
report the list afterwards, with the error that has ended it. Each operation comes to what its
action comes to when it is performed, so that it is no matter to results, errors and the deck what
the console has kept, counted, printed or answered on the way.

* `Interpreter.apply_eq_perform`, …: the operations one by one.
-/

namespace Beamline

open Source (Position)
open Diagnostic (Condition Console)
open Beamline.Expr (Formula Node NodeId)

/-! ## Actions that raise nothing -/

namespace Deck

variable {α β : Type}

/-- What the action comes to does not depend on what was raised before, and it raises nothing. -/
def IsQuiet (action : Action α) : Prop :=
  ∀ w, action.run w =
    ((action.run ⟨w.deck, #[]⟩).1, ⟨(action.run ⟨w.deck, #[]⟩).2.deck, w.raised⟩)

theorem isQuiet_change {f : Deck → Deck} : IsQuiet (change f) :=
  fun _ => rfl

theorem isQuiet_onForest {step : Expr.Forest → Except Expr.Fault α × Expr.Forest} :
    IsQuiet (onForest step) :=
  fun _ => rfl

theorem isQuiet_onTable [Record α] {get : Symbols → Table α} {set : Table α → Symbols → Symbols}
    {step : Table α → Expr.Forest → Except Expr.Fault β × Table α × Expr.Forest} :
    IsQuiet (onTable get set step) :=
  fun _ => rfl

theorem isQuiet_releaseReplaced (previous : Option NodeId) :
    IsQuiet (releaseReplaced previous) := by
  cases previous with
  | none => exact fun _ => rfl
  | some id => exact fun _ => rfl

end Deck

namespace Interpreter

variable {c : Console} {α : Type}

/-! ## Performing an action -/

/-- Runs an action on the deck and reports what it raised and the error that ended it. -/
def perform (action : Deck.Action α) : Action α :=
  .mk fun it =>
    let (outcome, work) := action.run { deck := it.deck, raised := #[] }
    let fatal := match outcome with
      | .ok _ => []
      | .error e => [e.diagnostic work.deck.pos]
    (outcome, { deck := work.deck, console := it.console.reportAll (work.raised.toList ++ fatal) })

/-- Performs an action of a statement read at `pos`. -/
def performAt (pos : Position) (action : Deck.Action α) : Action α :=
  perform do
    Deck.moveTo pos
    action

theorem run_perform (action : Deck.Action α) (it : Interpreter) :
    (perform action).run it =
      ((action.run ⟨it.deck, #[]⟩).1,
        { deck := (action.run ⟨it.deck, #[]⟩).2.deck
          console := it.console.reportAll ((action.run ⟨it.deck, #[]⟩).2.raised.toList ++
            match (action.run ⟨it.deck, #[]⟩).1 with
            | .ok _ => []
            | .error e => [e.diagnostic (action.run ⟨it.deck, #[]⟩).2.deck.pos]) }) :=
  rfl

/-- A function of the result may be applied before or after the diagnostics are reported. -/
theorem map_perform {β : Type} (f : α → β) (action : Deck.Action α) :
    f <$> perform action = perform (f <$> action) := by
  rw [map_eq_pure_bind, map_eq_pure_bind]
  refine funext fun it => ?_
  change ((perform action >>= fun x => pure (f x)).run it) = (perform _).run it
  rw [run_perform]
  have hperform := run_perform action it
  rcases hrun : action.run ⟨it.deck, #[]⟩ with ⟨x | x, w⟩ <;> rw [hrun] at hperform
  · rw [run_bind_of_error hrun, run_bind_of_error hperform]
  · rw [run_bind_of_ok hrun, run_bind_of_ok hperform]
    rfl

/-! ## Steps -/

/-- The interpreter has the deck of the work, and its console is `c` after it was told what the work
has raised. -/
structure Told (c : Console) (it : Interpreter) (work : Deck.Work) : Prop where
  /-- The deck. -/
  deck : it.deck = work.deck
  /-- What the console was told. -/
  console : it.console = c.reportAll work.raised.toList

theorem agree_current : Agree (Told c) current Deck.current :=
  fun it work h => .inl ⟨it.deck, work.deck, it, work, rfl, rfl, h.deck, h⟩

theorem agree_onDeck {action : Deck.Action α} (h : Deck.IsQuiet action) :
    Agree (Told c) (onDeck action) action := by
  intro it work htold
  -- the action is run with nothing raised, which to a quiet one is the same as on the work
  have hleft : (onDeck action).run it = ((action.run ⟨work.deck, #[]⟩).1,
      { it with deck := (action.run ⟨work.deck, #[]⟩).2.deck }) := by
    rw [← htold.deck]
    rfl
  rw [hleft, h work]
  rcases action.run ⟨work.deck, #[]⟩ with ⟨e | x, work'⟩
  · exact .inr ⟨e, e, _, _, rfl, rfl, rfl, rfl, htold.console⟩
  · exact .inl ⟨x, x, _, _, rfl, rfl, rfl, rfl, htold.console⟩

theorem agree_warn (condition : Condition) :
    Agree (Told c) (warn condition) (Deck.raise condition) := by
  intro it work h
  rw [run_warn, h.deck]
  refine .inl ⟨⟨⟩, ⟨⟩, _, _, rfl, rfl, rfl, rfl, ?_⟩
  exact h.console ▸ (Console.reportAll_push ..).symm

/-- Storing a formula. -/
theorem agree_runLowerer (constantsOnly : Bool) (formula : Formula) :
    Agree (Told c) (runLowerer constantsOnly formula) (Deck.lowerWith constantsOnly formula) := by
  rintro ⟨deck, console⟩ ⟨_, raised⟩ ⟨rfl, hconsole⟩
  -- both sides lower in the scope of the one deck, each into its own state
  let scope : Lowering.Scope := { symbols := deck.symbols, pos := deck.pos, constantsOnly }
  have hleft : (runLowerer constantsOnly formula).run ⟨deck, console⟩ =
      let run := (Lowerer.lower scope formula false).run ⟨deck.forest, console⟩
      (run.1, { deck := { deck with forest := run.2.forest }, console := run.2.console }) := rfl
  have hright : (Deck.lowerWith constantsOnly formula).run ⟨deck, raised⟩ =
      let run := (Lowering.lower scope formula false).run ⟨deck.forest, raised⟩
      (run.1, { deck := { deck with forest := run.2.forest }, raised := run.2.raised }) := rfl
  rw [hleft, hright]
  rcases Lowerer.agree_lower scope formula false ⟨deck.forest, console⟩ ⟨deck.forest, raised⟩
      ⟨rfl, hconsole⟩ with
    ⟨x, y, l, d, ha, hb, hxy, htold⟩ | ⟨x, y, l, d, ha, hb, hxy, htold⟩
  · have hdeck := congrArg (fun forest => { deck with forest }) htold.forest
    rw [ha, hb]
    exact .inl ⟨x, y, _, _, rfl, rfl, hxy, hdeck, htold.console⟩
  · have hdeck := congrArg (fun forest => { deck with forest }) htold.forest
    rw [ha, hb]
    exact .inr ⟨x, y, _, _, rfl, rfl, hxy, hdeck, htold.console⟩

/-- Evaluating a stored expression. -/
theorem agree_runEvaluator (id : NodeId) :
    Agree (Told c) (runEvaluator id) (Deck.evaluate id) := by
  rintro ⟨deck, console⟩ ⟨_, raised⟩ ⟨rfl, hconsole⟩
  let scope : Evaluation.Scope :=
    { forest := deck.forest, symbols := deck.symbols, pos := deck.pos }
  -- an evaluation begins at depth zero, whatever was raised before it
  let start := Evaluation.ofLimit deck.limits.evalDepth
  have hleft : (runEvaluator id).run ⟨deck, console⟩ =
      let run := (Evaluator.evaluate scope id).run
        (Evaluator.ofLimit deck.limits.evalDepth console)
      (run.1, { deck := deck, console := run.2.console }) := rfl
  have hright : (Deck.evaluate id).run ⟨deck, raised⟩ =
      let run := (Evaluation.evaluate scope id).run { start with raised }
      (run.1, { deck := deck, raised := run.2.raised }) := rfl
  rw [hleft, hright]
  rcases Evaluator.agree_evaluate id (Evaluator.ofLimit deck.limits.evalDepth console)
      { start with raised } ⟨rfl, rfl, hconsole⟩ with
    ⟨x, y, e, plain, ha, hb, hxy, htold⟩ | ⟨x, y, e, plain, ha, hb, hxy, htold⟩
  · rw [ha, hb]
    exact .inl ⟨x, y, _, _, rfl, rfl, hxy, rfl, htold.console⟩
  · rw [ha, hb]
    exact .inr ⟨x, y, _, _, rfl, rfl, hxy, rfl, htold.console⟩

/-! ## Lines -/

/-- While a body is laid out the deck stays, and the console is `c` after it was told what was
raised. -/
structure Listens (c : Console) (deck : Deck) (it : Interpreter) (raised : Array Diagnostic) :
    Prop where
  /-- The deck. -/
  deck : it.deck = deck
  /-- What the console was told. -/
  console : it.console = c.reportAll raised.toList

section Lines

variable {deck : Deck} {β : Type}

/-- What is read of the deck is known on the other side. -/
theorem agree_current_left {f : Deck → Action α} {b : Line.Body.Step α}
    (h : Agree (Listens c deck) (f deck) b) : Agree (Listens c deck) (current >>= f) b := by
  intro it raised hl
  have hrun : (current >>= f).run it = (f it.deck).run it := rfl
  rw [hrun, hl.deck]
  exact h it raised hl

theorem agree_warn_listens (condition : Condition) :
    Agree (Listens c deck) (warn condition)
      (modify (·.push (condition.diagnostic deck.pos)) : Line.Body.Step PUnit) := by
  intro it raised h
  rw [run_warn, h.deck]
  refine .inl ⟨⟨⟩, ⟨⟩, _, _, rfl, rfl, rfl, rfl, ?_⟩
  exact h.console ▸ (Console.reportAll_push ..).symm

mutual

theorem agree_flatten_listens (body : Line.Body) :
    Agree (Listens c deck) (flatten body) (body.layout
      { symbols := deck.symbols, pos := deck.pos, limit := deck.limits.lineEntries }) := by
  match body with
  | .member raw =>
    unfold flatten Line.Body.layout
    refine agree_current_left ?_
    exact Agree.ite (Agree.of_pure _) ((agree_warn_listens _).bind fun _ => Agree.of_pure _)
  | .sequence items => exact agree_flattenAll_listens items
  | .repetition count body =>
    -- a body that is too long ends both, after all that its members had to report
    unfold flatten Line.Body.layout
    refine (agree_flatten_listens body).bind fun entries => agree_current_left ?_
    cases Line.repeat? count entries deck.limits.lineEntries with
    | ok entries => exact Agree.of_pure _
    | error overflow => exact Agree.of_throw _
  | .reflection body =>
    unfold flatten Line.Body.layout
    exact (agree_flatten_listens body).bind fun _ => Agree.of_pure _

theorem agree_flattenAll_listens (items : List Line.Body) :
    Agree (Listens c deck) (flattenAll items) (Line.Body.layoutAll
      { symbols := deck.symbols, pos := deck.pos, limit := deck.limits.lineEntries } items) := by
  match items with
  | [] => exact Agree.of_pure _
  | item :: items =>
    unfold flattenAll Line.Body.layoutAll
    refine (agree_flatten_listens item).bind fun _ => ?_
    exact (agree_flattenAll_listens items).bind fun _ => Agree.of_pure _

end

end Lines

/-- Laying out a body. -/
theorem agree_flatten (body : Line.Body) : Agree (Told c) (flatten body) (Deck.layout body) := by
  rintro ⟨deck, console⟩ ⟨_, raised⟩ ⟨rfl, hconsole⟩
  let scope : Line.Body.Scope :=
    { symbols := deck.symbols, pos := deck.pos, limit := deck.limits.lineEntries }
  have hright : (Deck.layout body).run ⟨deck, raised⟩ =
      let run := (body.layout scope).run raised
      (run.1, { deck := deck, raised := run.2 }) := rfl
  rw [hright]
  rcases agree_flatten_listens body ⟨deck, console⟩ raised ⟨rfl, hconsole⟩ with
    ⟨x, y, it, raised', ha, hb, hxy, hl⟩ | ⟨x, y, it, raised', ha, hb, hxy, hl⟩
  · rw [ha, hb]
    exact .inl ⟨x, y, _, _, rfl, rfl, hxy, hl.deck, hl.console⟩
  · rw [ha, hb]
    exact .inr ⟨x, y, _, _, rfl, rfl, hxy, hl.deck, hl.console⟩

/-! ## Definitions -/

theorem agree_enterConstant (raw : String) (formula : Formula) :
    Agree (Told c) (enterConstant raw formula) (Deck.defineConstant raw formula) := by
  unfold enterConstant Deck.defineConstant
  refine agree_current.bind fun deck => Agree.ite (agree_warn _) ?_
  refine (agree_runLowerer true formula).bind fun source => ?_
  refine (agree_runEvaluator source).bind fun value => agree_current.bind fun deck => ?_
  have hinsert (record : Constant) :
      Agree (Told c) (discard (onDeck (Deck.insertConstant record)))
        (discard (Deck.insertConstant record)) :=
    (agree_onDeck Deck.isQuiet_onTable).map _
  exact Agree.ite ((agree_warn _).bind fun _ => hinsert _) (hinsert _)

theorem agree_enterVariable (raw : String) (formula : Formula) (binding : Binding) :
    Agree (Told c) (enterVariable raw formula binding)
      (Deck.defineVariable raw formula binding) := by
  unfold enterVariable Deck.defineVariable
  refine agree_current.bind fun deck => Agree.ite (agree_warn _) ?_
  refine (agree_runLowerer false formula).bind fun lowered => ?_
  let record (expr : NodeId) (deck : Deck) : Variable :=
    { name := Name.ofText raw, expr, pos := deck.pos }
  have hinsert (expr : NodeId) :
      Agree (Told c)
        (do
          let deck ← current
          discard <| onDeck (Deck.insertVariable (record expr deck)))
        (do
          let deck ← Deck.current
          discard <| Deck.insertVariable (record expr deck)) :=
    agree_current.bind fun deck => (agree_onDeck Deck.isQuiet_onTable).map _
  cases binding with
  | deferred => exact hinsert lowered
  | immediate =>
    refine (agree_runEvaluator lowered).bind fun value => ?_
    refine (agree_onDeck Deck.isQuiet_onForest).bind fun _ => ?_
    exact (agree_onDeck Deck.isQuiet_onForest).bind hinsert

theorem agree_settle (element : Element) (id : NodeId)
    (outcome : Except Element.Refusal (Option NodeId × Element)) :
    Agree (Told c) (settle element id outcome) (Deck.settle element id outcome) := by
  match outcome with
  | .ok (previous, changed) =>
    exact (agree_onDeck (Deck.isQuiet_releaseReplaced previous)).bind fun _ => Agree.of_pure _
  | .error refusal =>
    refine (agree_onDeck Deck.isQuiet_onForest).bind fun _ => ?_
    exact (agree_warn _).bind fun _ => Agree.of_pure _

theorem agree_assignItem (element : Element) (key : String) (value : Formula) :
    Agree (Told c) (assignItem element key value) (Deck.assignItem element key value) := by
  unfold assignItem Deck.assignItem
  cases (if Text.normalize key = "TYPE" then Deck.labelOf? value else none) with
  | some label => exact Agree.of_pure _
  | none =>
    refine Agree.ite ?_ ((agree_warn _).bind fun _ => Agree.of_pure _)
    exact (agree_runLowerer false value).bind fun id => agree_settle element id _

theorem agree_flagItem (element : Element) (key : String) :
    Agree (Told c) (flagItem element key) (Deck.flagItem element key) := by
  unfold flagItem Deck.flagItem
  refine agree_current.bind fun deck => ?_
  match element.flag key deck.forest with
  | .ok (previous, changed, forest) =>
    refine (agree_onDeck Deck.isQuiet_change).bind fun _ => ?_
    exact (agree_onDeck (Deck.isQuiet_releaseReplaced previous)).bind fun _ => Agree.of_pure _
  | .error refusal => exact (agree_warn _).bind fun _ => Agree.of_pure _

theorem agree_entryItem (element : Element) (index : Option Element.MapIndex) (written : String)
    (value : Formula) :
    Agree (Told c) (entryItem element index written value)
      (Deck.entryItem element index written value) := by
  unfold entryItem Deck.entryItem
  refine Agree.ite ((agree_warn _).bind fun _ => Agree.of_pure _) ?_
  cases index with
  | none => exact (agree_warn _).bind fun _ => Agree.of_pure _
  | some index => exact (agree_runLowerer false value).bind fun id => agree_settle element id _

theorem agree_enterItem (element : Element) (item : Element.Item) :
    Agree (Told c) (enterItem element item) (Deck.enterItem element item) := by
  cases item with
  | assign key value => exact agree_assignItem element key value
  | flag key => exact agree_flagItem element key
  | label text => exact Agree.of_pure _
  | rm i j value => exact agree_entryItem element _ _ value
  | tm i j k value => exact agree_entryItem element _ _ value

/-- Reports between the items of an element have no influence on the items that follow. -/
theorem agree_enterElement (raw : String) (kind : Element.Kind) (items : List Element.Item) :
    Agree (Told c) (enterElement raw kind items) (Deck.defineElement raw kind items) := by
  unfold enterElement Deck.defineElement
  refine (agree_onDeck Deck.isQuiet_onTable).bind fun removed => ?_
  -- what follows is the same whether or not an element was removed with a warning
  have hrest : Agree (Told c)
      (do
        let element ← items.foldlM enterItem
          (Element.blank (Name.ofText raw) kind (← current).pos)
        discard <| onDeck (Deck.insertElement element))
      (do
        let element ← items.foldlM Deck.enterItem
          (Element.blank (Name.ofText raw) kind (← Deck.current).pos)
        discard <| Deck.insertElement element) :=
    agree_current.bind fun deck => (Agree.foldlM agree_enterItem items _).bind fun element =>
      (agree_onDeck Deck.isQuiet_onTable).map _
  exact Agree.ite ((agree_warn _).bind fun _ => hrest) hrest

theorem agree_enterLine (raw : String) (body : Line.Body) :
    Agree (Told c) (enterLine raw body) (Deck.defineLine raw body) := by
  unfold enterLine Deck.defineLine
  refine (agree_flatten body).bind fun entries => ?_
  refine (agree_onDeck Deck.isQuiet_onTable).bind fun removed => ?_
  have hrest : Agree (Told c)
      (do
        let deck ← current
        discard <| onDeck (Deck.insertLine { name := Name.ofText raw, entries, pos := deck.pos }))
      (do
        let deck ← Deck.current
        discard <| Deck.insertLine { name := Name.ofText raw, entries, pos := deck.pos }) :=
    agree_current.bind fun deck => (agree_onDeck Deck.isQuiet_onTable).map _
  exact Agree.ite ((agree_warn _).bind fun _ => hrest) hrest

theorem agree_beginComment : Agree (Told c) beginComment Deck.beginComment :=
  agree_onDeck Deck.isQuiet_change

theorem agree_captureComment (text : String) (atEnd : Bool) :
    Agree (Told c) (captureComment text atEnd) (Deck.captureComment text atEnd) :=
  agree_onDeck Deck.isQuiet_change

theorem agree_endComment : Agree (Told c) endComment Deck.endComment := by
  unfold endComment Deck.endComment
  refine agree_current.bind fun deck => ?_
  cases deck.commentary.finish with
  | ok commentary => exact agree_onDeck Deck.isQuiet_change
  | error _ => exact agree_warn _

theorem agree_enter (clause : Clause) : Agree (Told c) (enter clause) (Deck.perform clause) := by
  cases clause with
  | constant name value => exact agree_enterConstant name value
  | «variable» name value binding => exact agree_enterVariable name value binding
  | element name kind items => exact agree_enterElement name kind items
  | line name body => exact agree_enterLine name body
  | beginComment => exact agree_beginComment
  | endComment => exact agree_endComment
  | comment text atEnd => exact agree_captureComment text atEnd
  | pragma keyword text => exact Agree.of_pure _

/-! ## Operations -/

theorem run_check_of_ok {steps : Action α} {it it' : Interpreter} {x : α}
    (h : steps.run it = (.ok x, it')) : (check steps).run it = (.ok x, it') := by
  rw [run_check, h]

/-- The error that has ended the steps is reported where the deck is then. -/
theorem run_check_of_error {steps : Action α} {it it' : Interpreter} {e : FatalError}
    (h : steps.run it = (.error e, it')) :
    (check steps).run it = (.error e, { it' with
      console := (it'.console.report (e.diagnostic it'.deck.pos)).2 }) := by
  rw [run_check, h]
  rfl

/-- An operation performs the action that its steps agree with, whatever the console was told
before. -/
theorem check_eq_perform {steps : Action α} {action : Deck.Action α}
    (h : ∀ c, Agree (Told c) steps action) : check steps = perform action := by
  refine funext fun it => ?_
  change (check steps).run it = (perform action).run it
  rw [run_perform]
  -- at first nothing is raised, so that the console is told just what the steps report
  rcases h it.console it ⟨it.deck, #[]⟩ ⟨rfl, rfl⟩ with
    ⟨x, y, ⟨deck, console⟩, work, ha, hb, rfl, hdeck, hconsole⟩ |
      ⟨e, d, ⟨deck, console⟩, work, ha, hb, rfl, hdeck, hconsole⟩
  · rw [run_check_of_ok ha, hb, ← hdeck, List.append_nil, ← hconsole]
  · -- the error comes last on both sides
    rw [run_check_of_error ha, hb, ← hdeck, Console.reportAll_append, ← hconsole]
    rfl

/-- The steps of an operation at a position. -/
theorem checkAt_eq_performAt (pos : Position) {steps : Action α} {action : Deck.Action α}
    (h : ∀ c, Agree (Told c) steps action) : checkAt pos steps = performAt pos action :=
  check_eq_perform fun c => (agree_onDeck Deck.isQuiet_change).bind fun _ => h c

theorem apply_eq_perform (statement : Statement) :
    apply statement = perform (Deck.apply statement) := by
  refine check_eq_perform fun c => ?_
  unfold Deck.apply
  refine (agree_onDeck Deck.isQuiet_change).bind fun _ => agree_current.bind fun deck => ?_
  exact Agree.ite (Agree.of_pure _) (agree_enter _)

theorem defineConstant_eq_perform (raw : String) (formula : Formula) (pos : Position) :
    defineConstant raw formula pos = performAt pos (Deck.defineConstant raw formula) :=
  checkAt_eq_performAt pos fun _ => agree_enterConstant raw formula

theorem defineVariable_eq_perform (raw : String) (formula : Formula) (binding : Binding)
    (pos : Position) :
    defineVariable raw formula binding pos =
      performAt pos (Deck.defineVariable raw formula binding) :=
  checkAt_eq_performAt pos fun _ => agree_enterVariable raw formula binding

theorem defineElement_eq_perform (raw : String) (kind : Element.Kind) (items : List Element.Item)
    (pos : Position) :
    defineElement raw kind items pos = performAt pos (Deck.defineElement raw kind items) :=
  checkAt_eq_performAt pos fun _ => agree_enterElement raw kind items

theorem defineLine_eq_perform (raw : String) (body : Line.Body) (pos : Position) :
    defineLine raw body pos = performAt pos (Deck.defineLine raw body) :=
  checkAt_eq_performAt pos fun _ => agree_enterLine raw body

theorem layout_eq_perform (body : Line.Body) : layout body = perform (Deck.layout body) :=
  check_eq_perform fun _ => agree_flatten body

theorem lower_eq_perform (formula : Formula) : lower formula = perform (Deck.lower formula) :=
  check_eq_perform fun _ => agree_runLowerer false formula

theorem evaluate_eq_perform (id : NodeId) : evaluate id = perform (Deck.evaluate id) :=
  check_eq_perform fun _ => agree_runEvaluator id

/-! ## Comments -/

/-- Steps without an error to report perform the action that they agree with. -/
theorem eq_perform_of_ok {steps : Action α} {action : Deck.Action α}
    (h : ∀ c, Agree (Told c) steps action)
    (hok : ∀ w, ∃ x w', action.run w = (.ok x, w')) : steps = perform action := by
  refine funext fun it => ?_
  change steps.run it = (perform action).run it
  rw [run_perform]
  rcases h it.console it ⟨it.deck, #[]⟩ ⟨rfl, rfl⟩ with
    ⟨x, y, ⟨deck, console⟩, work, ha, hb, rfl, hdeck, hconsole⟩ | ⟨e, d, it', work, ha, hb, -⟩
  · rw [ha, hb, ← hdeck, List.append_nil, ← hconsole]
  · obtain ⟨x, w', hrun⟩ := hok ⟨it.deck, #[]⟩
    cases hrun.symm.trans hb

theorem beginComment_eq_perform : beginComment = perform Deck.beginComment :=
  rfl

theorem captureComment_eq_perform (text : String) (atEnd : Bool) :
    captureComment text atEnd = perform (Deck.captureComment text atEnd) :=
  rfl

/-- A block that is not open is warned about; there is no error to report. -/
theorem endComment_eq_perform : endComment = perform Deck.endComment := by
  refine eq_perform_of_ok (fun _ => agree_endComment) fun w => ?_
  rw [Deck.endComment, run_bind_of_ok (show Deck.current.run w = (.ok w.deck, w) from rfl)]
  cases w.deck.commentary.finish with
  | ok commentary => exact ⟨_, _, rfl⟩
  | error _ => exact ⟨_, _, rfl⟩

/-! ## Queries -/

theorem slotValue_eq_perform (slot : Option (Option NodeId)) :
    slotValue slot = perform (Deck.slotValue slot) := by
  match slot with
  | none => rfl
  | some none => rfl
  | some (some id) => exact (congrArg _ (evaluate_eq_perform id)).trans (map_perform some _)

/-- What is asked of the deck may be looked up before or after the action begins. -/
theorem query_eq_perform (slot : Deck → Option (Option NodeId)) :
    (do slotValue (slot (← current))) = perform (do Deck.slotValue (slot (← Deck.current))) := by
  simp only [slotValue_eq_perform]
  rfl

theorem variableValue_eq_perform (raw : String) :
    variableValue raw = perform (Deck.variableValue raw) :=
  query_eq_perform _

theorem attributeValue_eq_perform (raw key : String) :
    attributeValue raw key = perform (Deck.attributeValue raw key) :=
  query_eq_perform _

theorem entryValue_eq_perform (raw : String) (index : Element.MapIndex) :
    entryValue raw index = perform (Deck.entryValue raw index) :=
  query_eq_perform fun deck =>
    Option.map (fun m : Element.TransferMap => m.get? index)
      ((deck.symbols.elements.lookup? raw).bind Element.map)

theorem elementLength_eq_perform (raw : String) :
    elementLength raw = perform (Deck.elementLength raw) :=
  query_eq_perform _

end Interpreter

end Beamline
