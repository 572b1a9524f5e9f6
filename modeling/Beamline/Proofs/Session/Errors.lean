import Beamline.Proofs.Deck.Warnings
import Beamline.Proofs.Ledger
import Beamline.Proofs.Session.Reports

/-!
# Errors are reported once

A request that ends in an error has told the console so, once and last, after whatever it had to
warn about. A request that is done has told warnings only. The ledger drops some warnings but never
the error, so that it tells from the count of fatal diagnostics which requests have failed.

The text of an expression is asked for without a report, as nothing is evaluated for it.

* `Session.gains_step`: what the ledger gains by one request.
* `Session.fatals_step`: the same, said of what is kept and counted.
-/

namespace Beamline

open Source (Position)
open Diagnostic (Condition Console Ledger)
open Beamline.Expr (NodeId)

/-! ## Actions -/

namespace Request

/-- Where the deck is when a request is served that found it at a position: there, or where the
statement was read that the request asks for. -/
def posFrom (pos : Position) (request : Request) : Position :=
  (request.statement?.map Statement.pos).getD pos

/-- The request asks for the text of an expression. -/
def AsksText (request : Request) : Prop :=
  ∃ number, request = .render number

theorem not_asksText_apply (statement : Statement) : ¬(apply statement).AsksText :=
  fun ⟨_, h⟩ => nomatch h

end Request

namespace Deck

variable {I : Array Diagnostic → Prop} {deck : Deck} {request : Request}

/-- The action of a request warns about one position, and fails there. -/
theorem warns_action (issued : List NodeId) (hI : LastingAt (request.posFrom deck.pos) I)
    (hrefusal : ∀ statement, request.statement? = some statement →
      request.isSkipped deck.commentary = false →
        OutlastsRefusal I statement.pos deck statement.clause) :
    Ensures (fun w : Work => w.deck = deck ∧ I w.raised) (request.action issued)
      (fun _ w => w.deck.pos = request.posFrom deck.pos ∧ I w.raised)
      fun e w => (w.deck.pos = request.posFrom deck.pos ∧ I w.raised) ∧
        e.IsAt (request.posFrom deck.pos) := by
  have hhere {α : Type} {a : Action α} (h : Warns deck.pos I a) :
      Ensures (fun w : Work => w.deck = deck ∧ I w.raised) a
        (fun _ w => w.deck.pos = deck.pos ∧ I w.raised)
        fun e w => (w.deck.pos = deck.pos ∧ I w.raised) ∧ e.IsAt deck.pos :=
    h.on
  have hread {α : Type} (f : Deck → α) : Warns deck.pos I
      (do
        let deck ← current
        return f deck) :=
    ensures_current fun _ => warns_pure _
  -- definitions first, which move to where they were read
  cases request with
  | apply statement => exact (warns_apply hI (hrefusal statement rfl)).map
  | defineConstant raw formula pos =>
    exact (WarnsOn.at (warnsOn_defineConstant hI (hrefusal _ rfl rfl))).map
  | defineVariable raw formula binding pos =>
    exact (WarnsOn.at (warnsOn_defineVariable hI (hrefusal _ rfl rfl))).map
  | defineElement raw kind items pos =>
    exact (WarnsOn.at (warns_defineElement hI raw kind items).on).map
  | defineLine raw body pos => exact (WarnsOn.at (warns_defineLine hI raw body).on).map
  | beginComment => exact (hhere warns_beginComment).map
  | endComment => exact (hhere (warns_endComment hI)).map
  | captureComment text atEnd => exact (hhere (warns_captureComment text atEnd)).map
  | layout body => exact (hhere (warns_layout hI body)).map
  | lower formula => exact (hhere (warns_lowerWith hI false formula)).map
  | evaluate number =>
    rw [Request.action]
    cases issued[number]? with
    | none => exact hhere (warns_pure _)
    | some id => exact (hhere (warns_evaluate hI id)).map
  | render number =>
    rw [Request.action]
    cases issued[number]? with
    | none => exact hhere (warns_pure _)
    | some id => exact hhere (hread _)
  | variableValue | attributeValue | entryValue | elementLength =>
    exact Ensures.map (hhere (ensures_current fun _ => warns_slotValue hI _))
  | constantValue | resolve | elementsOf | commentAt => exact hhere (hread _)
  | _ => exact hhere (warns_pure _)

/-- The action of a request fails, or the answer is no error, unless it is the text of an
expression. -/
theorem error?_of_action (issued : List NodeId) (h : ¬request.AsksText) :
    Ensures (fun _ => True) (request.action issued) (fun x _ => x.1.error? = none)
      fun _ _ => True := by
  have hanswer {α : Type} (a : Action α) {f : α → Answer × List NodeId}
      (hf : ∀ x, (f x).1.error? = none) :
      Ensures (fun _ => True) (f <$> a) (fun x _ => x.1.error? = none) fun _ _ => True :=
    ((Ensures.of_true _ a).imp (fun _ => id) (fun x _ _ => hf x) fun _ _ => id).map
  have hread {f : Deck → Answer × List NodeId} (hf : ∀ deck, (f deck).1.error? = none) :
      Ensures (fun _ => True)
        (do
          let deck ← current
          return f deck)
        (fun x _ => x.1.error? = none) fun _ _ => True :=
    ensures_current fun deck => Ensures.of_pure fun _ _ => hf deck
  cases request with
  | render number => exact absurd ⟨number, rfl⟩ h
  | evaluate number =>
    rw [Request.action]
    cases issued[number]? with
    | none => exact Ensures.of_pure fun _ _ => rfl
    | some id => exact hanswer _ fun _ => rfl
  | apply | defineConstant | defineVariable | defineElement | defineLine =>
    exact hanswer _ fun _ => rfl
  | beginComment | endComment | captureComment => exact hanswer _ fun _ => rfl
  | layout | lower | variableValue | attributeValue | entryValue | elementLength =>
    exact hanswer _ fun _ => rfl
  | constantValue | resolve | elementsOf | commentAt => exact hread fun _ => rfl
  | _ => exact Ensures.of_pure fun _ _ => rfl

end Deck

/-! ## Requests -/

/-- What a request asks of the console alone is no matter of the ledger. -/
theorem Request.ledger_onConsole (request : Request) (c : Console) :
    (request.onConsole c).ledger = c.ledger := by
  cases request <;> rfl

namespace Session

variable {s : Session} {request : Request}

/-- The ledger of a session. -/
def ledger (s : Session) : Ledger :=
  s.interpreter.console.ledger

/-- The diagnostic of an error in which a request has ended, at the position of the deck. -/
def fatal? (x : Answer × Session) : Option Diagnostic :=
  x.1.error?.map fun e => e.diagnostic x.2.interpreter.deck.pos

theorem ledger_step (s : Session) (request : Request) :
    (s.step request).2.ledger = s.ledger.addAll (s.reportsOf request) := by
  rw [ledger, console_step, Request.ledger_onConsole, Console.ledger_reportAll]
  rfl

/-- What a single request reports: warnings, and the error in which it has ended. All of it is about
one position. -/
theorem reportsOfSingle_eq (hsingle : request.IsSingle) (htext : ¬request.AsksText) :
    ∃ warnings : List Diagnostic,
      s.reportsOfSingle request = warnings ++ (fatal? (s.step request)).toList ∧
        (∀ d ∈ warnings, d.isFatal = false) ∧
        ∀ d ∈ s.reportsOfSingle request, d.pos = request.posFrom s.interpreter.deck.pos := by
  let pos := request.posFrom s.interpreter.deck.pos
  let I (raised : Array Diagnostic) : Prop := ∀ d ∈ raised, d.isFatal = false ∧ d.pos = pos
  have hpush {raised : Array Diagnostic} {condition : Condition}
      (hcondition : condition.code.isFatal = false) (h : I raised) :
      I (raised.push (condition.diagnostic pos)) := by
    intro d hd
    rcases Array.mem_push.1 hd with hd | rfl
    · exact h d hd
    · exact ⟨(condition.isFatal_diagnostic pos).trans hcondition, rfl⟩
  have hI : LastingAt pos I := fun _ _ hcondition => hpush hcondition.1
  have hrefusal (statement : Statement) (hstatement : request.statement? = some statement)
      (_ : request.isSkipped s.interpreter.deck.commentary = false) :
      Deck.OutlastsRefusal I statement.pos s.interpreter.deck statement.clause := by
    have hpos : pos = statement.pos := by
      simp only [pos, Request.posFrom, hstatement, Option.map_some, Option.getD_some]
    rw [← hpos]
    exact fun _ condition hcondition _ => hpush (Clause.isFatal_code_of_refusal? hcondition)
  -- all that is raised on the way is such a warning; the error is told last
  have hstart : I #[] := fun d hd => absurd hd (Array.not_mem_empty d)
  have haction := Deck.warns_action s.issued hI hrefusal ⟨s.interpreter.deck, #[]⟩ ⟨rfl, hstart⟩
  have hanswer := Deck.error?_of_action s.issued htext ⟨s.interpreter.deck, #[]⟩ trivial
  rw [step_eq hsingle]
  unfold reportsOfSingle serve fatal? runAction
  rcases haction with ⟨x, w, hrun, -, hraised⟩ | ⟨e, w, hrun, ⟨hpos, hraised⟩, he⟩
  · rw [hrun] at hanswer ⊢
    obtain ⟨_, _, hx, hnone⟩ | ⟨_, _, hx, -⟩ := hanswer
    · cases hx
      refine ⟨w.raised.toList, ?_, fun d hd => (hraised d (by simpa using hd)).1, fun d hd => ?_⟩
      · simp [hnone]
      · exact (hraised d (by simpa using hd)).2
    · cases hx
  · rw [hrun]
    refine ⟨w.raised.toList, ?_, fun d hd => (hraised d (by simpa using hd)).1, fun d hd => ?_⟩
    · simp [Request.error?_refusal]
    · rcases List.mem_append.1 hd with hd | hd
      · exact (hraised d (by simpa using hd)).2
      · rw [List.mem_singleton.1 hd, hpos]
        exact he

theorem isFatal_of_mem_fatal? {x : Answer × Session} {d : Diagnostic} (h : d ∈ fatal? x) :
    d.isFatal = true := by
  obtain ⟨e, -, rfl⟩ := Option.map_eq_some_iff.1 h
  exact e.isFatal_diagnostic _

/-- By a single request the ledger gains warnings, and the error in which it has ended. -/
theorem gains_step_single (hsingle : request.IsSingle) (htext : ¬request.AsksText) :
    ∃ warnings : List Diagnostic,
      s.ledger.Gains (s.step request).2.ledger warnings (fatal? (s.step request)) ∧
        ∀ d ∈ warnings ++ (fatal? (s.step request)).toList,
          d.pos = request.posFrom s.interpreter.deck.pos := by
  obtain ⟨reported, hreports, hwarnings, hpos⟩ := reportsOfSingle_eq (s := s) hsingle htext
  obtain ⟨warnings, hsub, hgains⟩ :=
    Ledger.exists_gains hwarnings (fun _ => isFatal_of_mem_fatal?) s.ledger
  rw [← hreports, ← reportsOf_of_isSingle s hsingle, ← ledger_step] at hgains
  refine ⟨warnings, hgains, fun d hd => hpos d ?_⟩
  rw [hreports]
  exact (hsub.append_right _).subset hd

/-- By a run of statements the ledger gains warnings, and the error that has ended the run. -/
theorem gains_step_run (s : Session) (statements : List Statement) :
    ∃ warnings : List Diagnostic,
      s.ledger.Gains (s.step (.run statements)).2.ledger warnings
        (fatal? (s.step (.run statements))) := by
  -- the statements before the last have gained warnings only, or the run would have ended there
  induction statements generalizing s with
  | nil => exact ⟨[], (List.append_nil _).symm, rfl, List.forall_mem_nil _⟩
  | cons statement statements ih =>
    obtain ⟨warnings, hfirst, -⟩ :=
      gains_step_single (s := s) (Request.isSingle_apply statement)
        (Request.not_asksText_apply statement)
    cases herror : (s.step (.apply statement)).1.error? with
    | some e =>
      rw [step_run_of_error herror]
      exact ⟨warnings, hfirst⟩
    | none =>
      rw [step_run_of_ok herror]
      obtain ⟨more, hrest⟩ := ih (s.step (.apply statement)).2
      rw [fatal?, herror] at hfirst
      exact ⟨warnings ++ more, hfirst.trans hrest⟩

/-- By a request the ledger gains warnings, and the error in which it has ended. -/
theorem gains_step (s : Session) (htext : ¬request.AsksText) :
    ∃ warnings : List Diagnostic,
      s.ledger.Gains (s.step request).2.ledger warnings (fatal? (s.step request)) ∧
        ∀ statement, request = .apply statement →
          ∀ d ∈ warnings ++ (fatal? (s.step request)).toList, d.pos = statement.pos := by
  rcases request.isSingle_or_run with hsingle | ⟨statements, rfl⟩
  · obtain ⟨warnings, hgains, hpos⟩ := gains_step_single (s := s) hsingle htext
    refine ⟨warnings, hgains, ?_⟩
    rintro statement rfl
    exact hpos
  · obtain ⟨warnings, hgains⟩ := gains_step_run s statements
    exact ⟨warnings, hgains, nofun⟩

/-! ## What is kept and counted -/

/-- Whatever has happened before, and whichever warnings the ledger drops: a request ends in an
error exactly if the count of fatal diagnostics has grown, and then by one, and what is kept last is
the diagnostic of that error. All else that is kept in addition are warnings. What the ledger keeps
of a statement is about the position of the statement. The handles of a session may be any, so
that this includes the evaluation of what is no longer stored. -/
theorem fatals_step (s : Session) (request : Request) (htext : ¬request.AsksText) :
    let x := s.step request
    let pos := x.2.interpreter.deck.pos
    (x.1.error?.isSome = true ↔ s.ledger.fatals < x.2.ledger.fatals) ∧
      ∃ kept : List Diagnostic, x.2.ledger.kept.toList = s.ledger.kept.toList ++ kept ∧
        (x.1.error? = none →
          x.2.ledger.fatals = s.ledger.fatals ∧ ∀ d ∈ kept, d.isWarning = true) ∧
        (∀ e, x.1.error? = some e → x.2.ledger.fatals = s.ledger.fatals + 1 ∧
          ∃ warnings last, kept = warnings ++ [last] ∧ (∀ d ∈ warnings, d.isWarning = true) ∧
            last = e.diagnostic pos ∧ last.isFatal = true ∧ last.message = e.message ∧
            last.pos = e.pos?.getD pos) ∧
        ∀ statement, request = .apply statement → ∀ d ∈ kept, d.pos = statement.pos := by
  intro x pos
  obtain ⟨warnings, hgains, hpos⟩ := gains_step s htext
  have hiff : x.1.error?.isSome = (fatal? x).isSome := (Option.isSome_map ..).symm
  refine ⟨hiff ▸ hgains.fatals_lt_iff.symm, warnings ++ (fatal? x).toList, hgains.kept,
    fun hnone => ?_, fun e he => ?_, hpos⟩
  · have hfatal : fatal? x = none := congrArg _ hnone
    have hfatals : x.2.ledger.fatals = s.ledger.fatals + (fatal? x).toList.length := hgains.fatals
    rw [hfatal] at hfatals ⊢
    refine ⟨hfatals, fun d hd => hgains.isWarning d ?_⟩
    simpa using hd
  · have hfatal : fatal? x = some (e.diagnostic pos) := congrArg _ he
    have hfatals : x.2.ledger.fatals = s.ledger.fatals + (fatal? x).toList.length := hgains.fatals
    rw [hfatal] at hfatals ⊢
    exact ⟨hfatals, warnings, e.diagnostic pos, rfl, hgains.isWarning, rfl,
      e.isFatal_diagnostic pos, rfl, rfl⟩

/-- A statement raises two warnings, of which the second is dropped as only one may be kept, and
then fails: the ledger keeps the first warning and the error, both on the line of the statement. -/
theorem fatals_step_of_limit :
    let items : List Element.Item :=
      [.assign "K1" (.number 1.0), .assign "L" (.binary .add (.name "B") (.text "x"))]
    let statement : Statement := ⟨.element "Q" .drift items, Position.inBuffer 7⟩
    let s := (ofConfig { policy := { limit := 1 } }).after
      [.defineVariable "A" (.number 1.0) .deferred (Position.inBuffer 3)]
    let x := s.step (.apply statement)
    s.ledger.fatals = 0 ∧ s.ledger.size = 0 ∧ x.1.error?.isSome = true ∧ x.2.ledger.size = 2 ∧
      x.2.ledger.refused = 1 ∧ s.ledger.fatals < x.2.ledger.fatals ∧
      ∀ d ∈ x.2.ledger.kept, d.pos = statement.pos := by
  intro items statement s x
  have hfatals : s.ledger.fatals = 0 := by decide +kernel
  have hempty : s.ledger.kept = #[] := by decide +kernel
  have herror : x.1.error?.isSome = true := by decide +kernel
  have hsize : x.2.ledger.size = 2 := by decide +kernel
  have hrefused : x.2.ledger.refused = 1 := by decide +kernel
  obtain ⟨hiff, kept, hkept, -, -, hpos⟩ :=
    fatals_step s (.apply statement) (Request.not_asksText_apply statement)
  refine ⟨hfatals, congrArg Array.size hempty, herror, hsize, hrefused, hiff.1 herror, ?_⟩
  intro d hd
  have hmem : d ∈ s.ledger.kept.toList ++ kept := hkept ▸ Array.mem_toList_iff.2 hd
  rw [hempty] at hmem
  exact hpos statement rfl d hmem

end Session

end Beamline
