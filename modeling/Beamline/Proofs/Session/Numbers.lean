import Beamline.Proofs.Plain.Numbers
import Beamline.Proofs.Session.Discipline
import Beamline.Proofs.Session.Reading

/-!
# Sessions without texts

In a session that is handed no text, be it in a definition or in a formula on request, all constants
are numbers, and so is every value that is answered. No request fails for a text: what fails is a
repetition that is too long, or, without a limit on the depth of evaluations, the evaluation of what
leads back to itself.

* `Session.numeric_of_textless`: what is answered in a session without texts.
-/

namespace Beamline

open Source (Position)
open Beamline.Expr (Formula Term)

/-- No formula that the request hands over contains a text. -/
def Request.Textless (request : Request) : Prop :=
  ∀ formula ∈ request.formulas, formula.Textless

namespace Plain.Session

/-- A session that has been handed no text obeys. -/
theorem obeys_numeric (config : Config) {history : List Request}
    (hhistory : ∀ request ∈ history, request.IsSingle ∧ request.Textless)
    (bodies : List Line.Body) :
    ((ofConfig config).after history).Obeys (Discipline.numeric bodies) := by
  -- nothing is said of errors here, so any body of the history may be the one that repeats
  let all := history.flatMap Request.bodies
  have hstart : (ofConfig config).Obeys (Discipline.numeric all) :=
    ⟨Deck.obeys_initial config.limits ⟨_, rfl⟩ trivial, nofun⟩
  refine Obeys.mono (hstart.after fun request hmem => ?_) (fun _ => id) fun _ => id
  obtain ⟨hsingle, htextless⟩ := hhistory request hmem
  refine ⟨hsingle, Discipline.numeric_governs htextless fun body hbody => ?_⟩
  exact List.mem_flatMap.2 ⟨request, hmem, hbody⟩

end Plain.Session

namespace Session

/-- Some expression of a record leads to one that leads back to itself. -/
def HasCycle (s : Session) : Prop :=
  ∃ symbols : Plain.Symbols Term, s.interpreter.deck.reading = symbols.map Except.ok ∧
    let scope := symbols.evaluationScope s.interpreter.deck.pos s.interpreter.deck.limits.evalDepth
    ∃ t ∈ symbols.exprs, ¬scope.Grounded t

/-- What is answered is no text. An error is met in a repetition that is too long, or, if there is
no limit on the depth of evaluations, in one that does not come to an end because something leads
back to itself. -/
structure Numeric (limits : Limits) (bodies : List Line.Body) (x : Answer × Session) : Prop where
  /-- A value that is answered is a number. -/
  value : ∀ v, x.1 = .value (.ok (some v)) → ∃ n, v = .number n
  /-- The error is not about a text. -/
  error : ∀ e, x.1.error? = some e →
    (∃ pos, e = .lineTooLong (Line.bound limits.lineEntries) pos ∧
        ∃ body ∈ bodies, body.Repeats) ∨
      limits.evalDepth = 0 ∧ (∃ h, e = .fault (.endless h)) ∧ x.2.HasCycle

variable {limits : Limits} {bodies : List Line.Body} {x : Answer × Session} {stray : Nat}
  {same : Prop} {s : Session} {p : Plain.Session}

theorem Numeric.mono {more : List Line.Body} (h : Numeric limits bodies x)
    (hsub : bodies ⊆ more) : Numeric limits more x where
  value := h.value
  error e he := (h.error e he).imp_left fun ⟨pos, hpos, body, hbody, hrepeats⟩ =>
    ⟨pos, hpos, body, hsub hbody, hrepeats⟩

theorem Alike.hasCycle (hs : Alike limits stray same s p)
    (h : ∃ t ∈ p.interpreter.deck.symbols.exprs, ¬p.interpreter.deck.scope.Grounded t) :
    s.HasCycle := by
  refine ⟨p.interpreter.deck.symbols, hs.reading_eq, ?_⟩
  rw [hs.scope_eq]
  exact h

/-- A session answers numbers if the plain session does. -/
theorem Alike.numeric (hs : Alike limits stray same s p) {request : Request} {lost : Option Name}
    (h : p.Complies (.numeric bodies) lost (p.step request)) :
    Numeric limits bodies (s.step request) := by
  have hno {y : Answer} {e : FatalError} (he : y.error? = some e) {o : Option Value} :
      y ≠ .value (.ok o) := by
    rintro rfl
    cases he
  cases served request hs with
  | done hanswer hnone _ =>
    exact ⟨fun v hv => h.value v (hanswer ▸ hv), fun e he => nomatch hnone.symm.trans he⟩
  | failed hanswer e he hfault more halike =>
    refine ⟨fun v hv => absurd hv (hno he), fun e' he' => .inl ?_⟩
    obtain rfl := Option.some.inj (he.symm.trans he')
    obtain ⟨d, rfl, hd, -⟩ := h.error e (hanswer ▸ he)
    cases d with
    | textInArithmetic => exact hd.elim
    | lineTooLong limit pos =>
      obtain ⟨rfl, hrepeats⟩ := hd
      rw [halike.limits_eq]
      exact ⟨pos, rfl, hrepeats⟩
    | endless => exact absurd rfl (hfault _)
  | endless hzero hanswer k he more halike =>
    refine ⟨fun v hv => absurd hv (hno he), fun e he' => .inr ⟨hzero, ⟨k, ?_⟩, ?_⟩⟩
    · exact Option.some.inj (he'.symm.trans he)
    · obtain ⟨d, hfatal, hd, -⟩ := h.error _ hanswer
      cases d <;> cases hfatal
      exact halike.hasCycle hd.2

/-- A single request to a session without texts. -/
theorem numeric_step (config : Config) {requests : List Request}
    (hrequests : ∀ request ∈ requests, request.Textless) {request : Request}
    (hsingle : request.IsSingle) (htextless : request.Textless) :
    Numeric config.limits request.bodies (((ofConfig config).after requests).step request) := by
  let history := (ofConfig config).unrolled requests
  obtain ⟨_, _, hs, -⟩ := alike_after history (alike_ofConfig config)
  have hhistory : ∀ other ∈ history, other.IsSingle ∧ other.Textless := by
    intro other hother
    obtain ⟨hsingle, origin, hmem, hsub⟩ := isSingle_of_mem_unrolled hother
    exact ⟨hsingle, fun formula hformula => hrequests origin hmem formula (hsub hformula)⟩
  have hp := Plain.Session.obeys_numeric config hhistory request.bodies
  have hgoverns := Plain.Discipline.numeric_governs htextless (List.Subset.refl request.bodies)
  -- without runs the same session is reached, and is alike to one that obeys
  rw [← after_unrolled]
  exact hs.numeric (Plain.Session.complies_step hp hsingle (hgoverns _))

/-- A run in a session without texts. -/
theorem numeric_run (config : Config) {requests : List Request}
    (hrequests : ∀ request ∈ requests, request.Textless) {statements : List Statement}
    (htextless : (Request.run statements).Textless) :
    Numeric config.limits (Request.run statements).bodies
      (((ofConfig config).after requests).step (.run statements)) := by
  have hstatement {statement : Statement} (hmem : statement ∈ statements) :
      (Request.apply statement).Textless := fun formula hformula =>
    htextless formula (List.mem_flatMap.2 ⟨statement, hmem, hformula⟩)
  rcases run_cases ((ofConfig config).after requests) statements with
    hrun | ⟨applied, statement, rest, e, rfl, -, -, hrun⟩
  · rw [hrun]
    exact ⟨nofun, nofun⟩
  · -- the failing statement is a request to the session that the statements before it leave
    have hbefore : ∀ request ∈ requests ++ applied.map .apply, request.Textless := by
      intro request hrequest
      rcases List.mem_append.1 hrequest with hrequest | hrequest
      · exact hrequests request hrequest
      · obtain ⟨other, hother, rfl⟩ := List.mem_map.1 hrequest
        exact hstatement (List.mem_append_left _ hother)
    have hmem : statement ∈ applied ++ statement :: rest :=
      List.mem_append_right _ List.mem_cons_self
    have hstep := numeric_step config hbefore (Request.isSingle_apply statement) (hstatement hmem)
    rw [after_append] at hstep
    rw [hrun]
    exact hstep.mono fun body hbody => List.mem_flatMap.2 ⟨statement, hmem, hbody⟩

/-- In a session that has been handed no text all constants are numbers. A further request that
hands over no text is answered with a number, if with a value at all. It can fail only in a
repetition that is too long, or in an evaluation without a limit, which does not come to an end if
something leads back to itself. -/
theorem numeric_of_textless (config : Config) (requests : List Request)
    (hrequests : ∀ request ∈ requests, request.Textless) :
    let s := (ofConfig config).after requests
    (∀ raw v, s.interpreter.deck.constantValue? raw = some v → ∃ n, v = .number n) ∧
      ∀ request, request.Textless → Numeric config.limits request.bodies (s.step request) := by
  intro s
  constructor
  · intro raw v hv
    have hsingle : (Request.constantValue raw).IsSingle := nofun
    have htextless : (Request.constantValue raw).Textless := nofun
    have hquery := numeric_step config hrequests hsingle htextless
    exact hquery.value v (congrArg (fun o => Answer.value (.ok o)) hv)
  · intro request htextless
    cases request with
    | run statements => exact numeric_run config hrequests htextless
    | _ => exact numeric_step config hrequests nofun htextless

/-- Two variables that refer to each other are evaluated up to the limit on the depth, and what
comes out is stored; the type of an element is a label, not a text. A line is too long. -/
theorem numeric_of_textless_of_cycle :
    let pos := Position.unread
    let config : Config := { limits := { evalDepth := 5, lineEntries := 3 } }
    let requests : List Request :=
      [.defineVariable "A" (.binary .add (.name "B") (.number 1.0)) .deferred pos,
        .defineVariable "B" (.name "A") .deferred pos,
        .defineElement "Q" .quadrupole
          [.assign "TYPE" (.text "MAIN"), .assign "L" (.signed .minus (.name "A"))] pos,
        .defineVariable "C" (.lengthOf "Q") .immediate pos]
    let s := (ofConfig config).after requests
    let request : Request := .layout (.reflection (.repetition "4" (.member "Q")))
    (∃ v, (s.step (.variableValue "C")).1 = .value (.ok (some v)) ∧ ∃ n, v = .number n) ∧
      ∃ pos, (s.step request).1.error? = some (.lineTooLong 3 pos) := by
  intro pos config requests s request
  have hlabel : Text.normalize "TYPE" = "TYPE" := by decide +kernel
  have hrequests : ∀ request ∈ requests, request.Textless := by
    simp [requests, Request.Textless, Request.formulas, Element.Item.formulas, Formula.Textless,
      Formula.leaves, Deck.labelOf?, hlabel]
  obtain ⟨-, hnumeric⟩ := numeric_of_textless config requests hrequests
  constructor
  · have hanswer (s : Session) : (s.step (.variableValue "C")).1 =
        .value ((Interpreter.variableValue "C").run s.interpreter).1 := rfl
    have hsome : ((Interpreter.variableValue "C").run
        s.interpreter).1.toOption.join.isSome = true := by decide +kernel
    have hquery := (hnumeric (.variableValue "C") (List.forall_mem_nil _)).value
    rw [hanswer] at hquery ⊢
    generalize ((Interpreter.variableValue "C").run s.interpreter).1 = outcome at hsome hquery
    rcases outcome with e | _ | v
    · cases hsome
    · cases hsome
    · exact ⟨v, rfl, hquery v rfl⟩
  · have hfails : (s.step request).1.error?.isSome = true := by decide +kernel
    obtain ⟨e, he⟩ := Option.isSome_iff_exists.1 hfails
    rcases (hnumeric request (List.forall_mem_nil _)).error e he with ⟨pos, rfl, -⟩ | ⟨hzero, -⟩
    · exact ⟨pos, he⟩
    · cases hzero

end Session

end Beamline
