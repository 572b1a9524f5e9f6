import Beamline.Proofs.Session.Errors

/-!
# Sessions under different policies

Which warnings are kept, what has been kept before and whether a terminal is attached is no matter
of what a session answers and defines. Two sessions that differ in nothing else report the same to
their consoles, and of what is reported the consoles keep all that is fatal.

Lowering, evaluation, layout and the items of a definition all report while they run, to a console
that is part of their state, and are told whether the report was kept. That none of them goes by the
console is shown step by step in `Beamline.Proofs.Interpreter`: with whatever console it begins, an
operation does what its action on the deck alone does (`Interpreter.check_eq_perform`). By this a
request is served as `Session.serve` does it, and two sessions are compared by what is served.

* `Session.Twin.step`: twins answer and report the same and stay twins.
* `Session.agrees_of_twin`: so they do under all requests, and keep the same fatal diagnostics.
-/

namespace Beamline

open Source (Position)
open Diagnostic (Console Ledger Terminal)

/-! ## Consoles -/

/-- Where the input is being read does not depend on what has been reported. -/
@[simp]
theorem Diagnostic.Console.cursor_reportAll (ds : List Diagnostic) (c : Console) :
    (c.reportAll ds).cursor = c.cursor := by
  induction ds generalizing c with
  | nil => rfl
  | cons d ds ih => exact ih (c.report d).2

/-- A request moves on in the input alike, whatever has been kept and printed. -/
theorem Request.cursor_onConsole (request : Request) {c d : Console} (h : c.cursor = d.cursor) :
    (request.onConsole c).cursor = (request.onConsole d).cursor := by
  cases request with
  | enterFile path => exact congrArg (fun cursor => (cursor.enter path).2) h
  | leaveFile => exact congrArg (fun cursor => (cursor.leave?.map (·.2)).getD cursor) h
  | nextLine => exact congrArg Source.Cursor.advance h
  | _ => exact h

namespace Session

/-- All that is kept and printed under the reports of requests. -/
theorem ledger_after (s : Session) (requests : List Request) :
    (s.after requests).ledger = s.ledger.addAll (s.reports requests) := by
  induction requests generalizing s with
  | nil => rfl
  | cons request requests ih =>
    rw [reports, Ledger.addAll_append, ← ledger_step]
    exact ih (s.step request).2

/-! ## Twins -/

/-- The sessions differ at most in which warnings they keep, in what they have kept and counted, and
in the terminal. -/
structure Twin (s t : Session) : Prop where
  /-- The decks are the same: the stored expressions with their handles, the records, the comments
  and the position. -/
  deck : s.interpreter.deck = t.interpreter.deck
  /-- The same handles have been issued. -/
  issued : s.issued = t.issued
  /-- The input is read at the same place. -/
  cursor : s.interpreter.console.cursor = t.interpreter.console.cursor

namespace Twin

variable {s t : Session}

theorem runAction_eq (h : s.Twin t) (request : Request) :
    s.runAction request = t.runAction request := by
  rw [runAction, runAction, h.issued, h.deck]

theorem reportsOfSingle_eq (h : s.Twin t) (request : Request) :
    s.reportsOfSingle request = t.reportsOfSingle request := by
  rw [reportsOfSingle, reportsOfSingle, h.runAction_eq]

theorem serve (h : s.Twin t) (request : Request) :
    (s.serve request).1 = (t.serve request).1 ∧ (s.serve request).2.Twin (t.serve request).2 := by
  have hcursor := request.cursor_onConsole
    (c := s.interpreter.console.reportAll (s.reportsOfSingle request))
    (d := t.interpreter.console.reportAll (t.reportsOfSingle request))
    (by simpa using h.cursor)
  unfold Session.serve
  rw [h.runAction_eq]
  rcases (t.runAction request).1 with e | ⟨answer, handles⟩
  · exact ⟨rfl, rfl, h.issued, hcursor⟩
  · exact ⟨rfl, rfl, congrArg (· ++ handles) h.issued, hcursor⟩

theorem step_run (h : s.Twin t) (statements : List Statement) :
    (s.step (.run statements)).1 = (t.step (.run statements)).1 ∧
      (s.step (.run statements)).2.Twin (t.step (.run statements)).2 ∧
      s.reportsOfRun statements = t.reportsOfRun statements := by
  induction statements generalizing s t with
  | nil => exact ⟨rfl, h, rfl⟩
  | cons statement statements ih =>
    -- the first statement ends in an error on both sides or on none
    have hfirst := h.serve (.apply statement)
    rw [← step_eq (Request.isSingle_apply _), ← step_eq (Request.isSingle_apply _)] at hfirst
    have hreports := h.reportsOfSingle_eq (.apply statement)
    rw [step_run_cons, step_run_cons, reportsOfRun, reportsOfRun, hreports, hfirst.1]
    cases (t.step (.apply statement)).1.error? with
    | some e => exact ⟨hfirst.1, hfirst.2, rfl⟩
    | none =>
      obtain ⟨hanswer, htwin, hrest⟩ := ih hfirst.2
      exact ⟨hanswer, htwin, congrArg _ hrest⟩

/-- Twins answer and report the same and stay twins. -/
theorem step (h : s.Twin t) (request : Request) :
    (s.step request).1 = (t.step request).1 ∧ (s.step request).2.Twin (t.step request).2 ∧
      s.reportsOf request = t.reportsOf request := by
  rcases request.isSingle_or_run with hsingle | ⟨statements, rfl⟩
  · rw [step_eq hsingle, step_eq hsingle, reportsOf_of_isSingle s hsingle,
      reportsOf_of_isSingle t hsingle]
    obtain ⟨hanswer, htwin⟩ := h.serve request
    exact ⟨hanswer, htwin, h.reportsOfSingle_eq request⟩
  · exact h.step_run statements

theorem answers_eq (h : s.Twin t) (requests : List Request) :
    (s.trace requests).map Prod.fst = (t.trace requests).map Prod.fst := by
  induction requests generalizing s t with
  | nil => rfl
  | cons request requests ih =>
    obtain ⟨hanswer, htwin, -⟩ := h.step request
    rw [trace_cons, trace_cons, List.map_cons, List.map_cons, hanswer, ih htwin]

theorem reports_eq (h : s.Twin t) (requests : List Request) :
    s.reports requests = t.reports requests := by
  induction requests generalizing s t with
  | nil => rfl
  | cons request requests ih =>
    obtain ⟨-, htwin, hreports⟩ := h.step request
    rw [reports, reports, hreports, ih htwin]

theorem after (h : s.Twin t) (requests : List Request) :
    (s.after requests).Twin (t.after requests) := by
  induction requests generalizing s t with
  | nil => exact h
  | cons request requests ih => exact ih (h.step request).2.1

end Twin

/-! ## Requests -/

/-- What is done with diagnostics has no influence on anything else. Let two sessions differ in
nothing but their policies, what their ledgers have kept and counted, and the terminals. Then under
all requests they answer the same at every step, and the stored expressions, the records, the
comments and the position stay the same. They keep the same fatal diagnostics in the same order:
those that are reported, of which none is dropped. Of the warnings that are reported each may keep
others. -/
theorem agrees_of_twin {s t : Session} (h : s.Twin t) (requests : List Request) :
    (s.trace requests).map Prod.fst = (t.trace requests).map Prod.fst ∧
      (∀ n, (s.after (requests.take n)).Twin (t.after (requests.take n))) ∧
      ∃ added others : List Diagnostic,
        (s.after requests).ledger.kept.toList = s.ledger.kept.toList ++ added ∧
        (t.after requests).ledger.kept.toList = t.ledger.kept.toList ++ others ∧
        added.filter Diagnostic.isFatal = (s.reports requests).filter Diagnostic.isFatal ∧
        others.filter Diagnostic.isFatal = (s.reports requests).filter Diagnostic.isFatal ∧
        added.Sublist (s.reports requests) ∧ others.Sublist (s.reports requests) ∧
        (s.after requests).ledger.fatals =
          s.ledger.fatals + (added.filter Diagnostic.isFatal).length ∧
        (t.after requests).ledger.fatals =
          t.ledger.fatals + (others.filter Diagnostic.isFatal).length := by
  refine ⟨h.answers_eq requests, fun n => h.after (requests.take n), ?_⟩
  -- both ledgers are told the same and filter it, each by its own policy
  obtain ⟨added, hkept, hsub, hfatal, hcount⟩ :=
    Ledger.exists_added_addAll (s.reports requests) s.ledger
  obtain ⟨others, hkept', hsub', hfatal', hcount'⟩ :=
    Ledger.exists_added_addAll (s.reports requests) t.ledger
  rw [← ledger_after, ← hfatal] at hcount
  rw [← hfatal', h.reports_eq, ← ledger_after] at hcount'
  rw [← ledger_after] at hkept
  rw [h.reports_eq, ← ledger_after] at hkept'
  exact ⟨added, others, hkept, hkept', hfatal, hfatal', hsub, hsub', hcount, hcount'⟩

/-- One of the sessions keeps a single warning, which it has been told already, and prints what it
keeps; the other keeps everything. Then an element is given an attribute that it does not have, and
a constant a value that is none: the first keeps the error only, the second the warning as well. -/
theorem agrees_of_twin_of_limit :
    let s := (ofConfig { policy := { limit := 1 } }).after
      [.attach (Terminal.ofColors false), .endComment]
    let t := ofConfig { policy := Diagnostic.Policy.keepAll }
    let requests : List Request :=
      [.apply ⟨.element "D" .drift [.assign "K1" (.number 1.0)], Position.inBuffer 1⟩,
        .apply ⟨.constant "C" (.binary .add (.number 1.0) (.text "x")), Position.inBuffer 2⟩,
        .elementLength "D"]
    s.Twin t ∧ s.ledger.kept.toList.map Diagnostic.isFatal = [false] ∧ t.ledger.kept.toList = [] ∧
      (s.after requests).ledger.kept.toList.map Diagnostic.isFatal = [false, true] ∧
      (t.after requests).ledger.kept.toList.map Diagnostic.isFatal = [false, true] ∧
      (s.after requests).ledger.kept ≠ (t.after requests).ledger.kept ∧
      (s.trace requests).map Prod.fst = (t.trace requests).map Prod.fst ∧
      (s.after requests).ledger.kept.toList.filter Diagnostic.isFatal =
        (t.after requests).ledger.kept.toList.filter Diagnostic.isFatal := by
  intro s t requests
  have htwin : s.Twin t := ⟨rfl, rfl, rfl⟩
  have hs : s.ledger.kept.toList.filter Diagnostic.isFatal = [] := by decide +kernel
  have ht : t.ledger.kept.toList = [] := by decide +kernel
  obtain ⟨hanswers, -, added, others, hkept, hkept', hfatal, hfatal', -⟩ :=
    agrees_of_twin htwin requests
  refine ⟨htwin, by decide +kernel, ht, by decide +kernel, by decide +kernel, by decide +kernel,
    hanswers, ?_⟩
  rw [hkept, hkept', List.filter_append, List.filter_append, hs, ht, hfatal, hfatal']
  rfl

end Session

end Beamline
