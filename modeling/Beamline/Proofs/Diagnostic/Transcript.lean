import Mathlib.Data.List.DropRight
import Beamline.Diagnostic.Condition
import Beamline.Proofs.Ledger

/-!
# One filter, three observers

A console is told diagnostics, gives up those that it keeps, and follows the input as it is read.
One rule decides which diagnostics are accepted. The transcript of a run is written by that rule
alone; what the console answers, keeps, counts and prints is read off the transcript.

* `Policy.accepts`: the rule.
* `Policy.transcript`: what the rule says of a run.
* `accounts_after`: a console with a terminal does as the transcript says.
-/

namespace Beamline.Diagnostic

open Source (Cursor)

/-! ## Transcripts -/

/-- What happens to a console. -/
inductive Event where
  /-- A diagnostic is reported. -/
  | report (d : Diagnostic)
  /-- The diagnostics kept are taken out. -/
  | flush
  /-- The input is read up to `cursor`. -/
  | read (cursor : Cursor)

/-- Whether a diagnostic is reported. -/
def Event.isReport : Event → Bool
  | .report _ => true
  | .flush | .read _ => false

/-- An entry of a transcript. -/
inductive Entry where
  /-- The diagnostic was reported while the input was read at `cursor`, and accepted or refused. -/
  | told (d : Diagnostic) (cursor : Cursor) (accepted : Bool)
  /-- The diagnostics kept were taken out. -/
  | flushed

namespace Entry

/-- Whether a report was accepted. -/
def verdict? : Entry → Option Bool
  | .told _ _ accepted => some accepted
  | .flushed => none

/-- The diagnostic of an accepted report. -/
def accepted? : Entry → Option (Diagnostic × Cursor)
  | .told d cursor true => some (d, cursor)
  | .told _ _ false | .flushed => none

/-- Whether the diagnostics kept were taken out. -/
def isFlush : Entry → Bool
  | .flushed => true
  | .told .. => false

end Entry

/-- What has happened to a console, the first first. -/
abbrev Transcript := List Entry

namespace Transcript

/-- The diagnostics accepted, each with where the input was read. -/
def accepted (t : Transcript) : List (Diagnostic × Cursor) :=
  t.filterMap Entry.accepted?

/-- What has happened since the diagnostics kept were last taken out. -/
def sinceFlush (t : Transcript) : Transcript :=
  t.rtakeWhile (!·.isFlush)

/-- How many reports were refused. -/
def refused (t : Transcript) : Nat :=
  (t.filterMap Entry.verdict?).count false

end Transcript

/-- Whether a diagnostic is accepted after what has happened. A fatal one is. A warning is not if
it says on the same line what the last diagnostic says that was accepted since the last flush, and
such are refused, or if as many warnings as are allowed have been accepted before. -/
def Policy.accepts (policy : Policy) (past : Transcript) (d : Diagnostic) : Bool :=
  let repeats := past.sinceFlush.accepted.getLast?.any fun (last, _) =>
    last.pos.line = d.pos.line ∧ last.code = d.code ∧ last.message = d.message
  let full := 0 < policy.limit ∧ policy.limit ≤ past.accepted.countP (·.1.isWarning)
  d.isFatal || !(policy.deduplicate && repeats) && !full

/-- The transcript of a run that goes on after `past`, from where the input is read. -/
def Policy.extend (policy : Policy) (past : Transcript) (cursor : Cursor) :
    List Event → Transcript
  | [] => past
  | .report d :: events =>
    policy.extend (past ++ [.told d cursor (policy.accepts past d)]) cursor events
  | .flush :: events => policy.extend (past ++ [.flushed]) cursor events
  | .read cursor :: events => policy.extend past cursor events

/-- The transcript of a run. -/
def Policy.transcript (policy : Policy) (events : List Event) : Transcript :=
  policy.extend [] Cursor.start events

/-! ## Consoles -/

namespace Console

/-- A console to which a terminal without colours is attached. -/
def plain (policy : Policy) : Console :=
  { ofPolicy policy with terminal := some (Terminal.ofColors false) }

/-- What an event does to a console. A report is answered. -/
def serve (event : Event) (c : Console) : Option Bool × Console :=
  match event with
  | .report d => ((c.report d).1, (c.report d).2)
  | .flush => (none, { c with ledger := c.ledger.flush.2 })
  | .read cursor => (none, { c with cursor })

/-- The console after events. -/
def after (events : List Event) (c : Console) : Console :=
  events.foldl (fun c event => (c.serve event).2) c

/-- The answers to reports, in order. -/
def answers (c : Console) : List Event → List Bool
  | [] => []
  | event :: events => (c.serve event).1.toList ++ (c.serve event).2.answers events

@[simp]
theorem after_cons (event : Event) (events : List Event) (c : Console) :
    c.after (event :: events) = (c.serve event).2.after events :=
  rfl

end Console

/-- The printed form of a diagnostic: its line, and a line for each note. -/
def plainLayout (d : Diagnostic) (cursor : Cursor) : String :=
  d.line cursor ++ "\n" ++ String.join (d.notes.map fun note => "  note: " ++ note ++ "\n")

/-- The console has kept, counted and printed what the transcript says. -/
structure Console.Accounts (c : Console) (t : Transcript) : Prop where
  /-- What is kept is what was accepted since the last flush. -/
  kept : c.ledger.kept.toList = t.sinceFlush.accepted.map Prod.fst
  /-- All warnings accepted are counted. -/
  warnings : c.ledger.warnings = t.accepted.countP (·.1.isWarning)
  /-- All fatal diagnostics accepted are counted. -/
  fatals : c.ledger.fatals = t.accepted.countP (·.1.isFatal)
  /-- All reports refused are counted. -/
  refused : c.ledger.refused = t.refused
  /-- What is printed is what was accepted, each as the input was read when it was reported. -/
  terminal : c.terminal = some {
    colors := false
    printed := String.join (t.accepted.map fun (d, cursor) => plainLayout d cursor) }

/-! ## One event -/

namespace Transcript

theorem accepted_concat (t : Transcript) (entry : Entry) :
    accepted (t ++ [entry]) = t.accepted ++ entry.accepted?.toList := by
  cases h : entry.accepted? <;> simp [accepted, h]

theorem sinceFlush_concat_told (t : Transcript) (d : Diagnostic) (cursor : Cursor)
    (verdict : Bool) :
    sinceFlush (t ++ [.told d cursor verdict]) = t.sinceFlush ++ [.told d cursor verdict] :=
  List.rtakeWhile_concat_pos _ _ _ (by simp [Entry.isFlush])

theorem sinceFlush_concat_flushed (t : Transcript) : sinceFlush (t ++ [.flushed]) = [] :=
  List.rtakeWhile_concat_neg _ _ _ (by simp [Entry.isFlush])

theorem refused_concat (t : Transcript) (entry : Entry) :
    refused (t ++ [entry]) = t.refused + entry.verdict?.toList.count false := by
  cases h : entry.verdict? <;> simp [refused, h]

end Transcript

/-- A terminal without colours prints a diagnostic plainly. -/
theorem layout_plain (cursor : Cursor) (d : Diagnostic) :
    Terminal.layout false cursor d = plainLayout d cursor := by
  simp [Terminal.layout, Terminal.paint, plainLayout]

namespace Console

/-- The console stands where the transcript of a run ends. -/
structure Follows (c : Console) (policy : Policy) (t : Transcript) (cursor : Cursor) : Prop
    extends c.Accounts t where
  /-- The policy. -/
  policy : c.ledger.policy = policy
  /-- Where the input is read. -/
  cursor : c.cursor = cursor

variable {c : Console} {policy : Policy} {t : Transcript} {cursor : Cursor}

theorem follows_plain (policy : Policy) : (plain policy).Follows policy [] Cursor.start where
  kept := by simp [plain, ofPolicy, Ledger.ofPolicy, Transcript.sinceFlush, Transcript.accepted]
  warnings := by simp [plain, ofPolicy, Ledger.ofPolicy, Transcript.accepted]
  fatals := by simp [plain, ofPolicy, Ledger.ofPolicy, Transcript.accepted]
  refused := by simp [plain, ofPolicy, Ledger.ofPolicy, Transcript.refused]
  terminal := by simp [plain, Terminal.ofColors, Transcript.accepted]
  policy := by simp [plain, ofPolicy, Ledger.ofPolicy]
  cursor := by simp [plain, ofPolicy]

/-- The ledger decides by the rule. -/
theorem Follows.accepts (h : c.Follows policy t cursor) (d : Diagnostic) :
    c.ledger.accepts d = policy.accepts t d := by
  have hlast : c.ledger.kept.back? = t.sinceFlush.accepted.getLast?.map Prod.fst := by
    rw [← Array.getLast?_toList, h.kept, List.getLast?_map]
  simp [Ledger.accepts, Ledger.repeatsLast, Ledger.sameText, Ledger.limitReached, Policy.accepts,
    h.policy, h.warnings, hlast, Option.any_map, Bool.and_assoc,
    Bool.beq_eq_decide_eq]

/-- What is accepted is kept, counted and printed. -/
theorem Follows.report_of_accepts (h : c.Follows policy t cursor) {d : Diagnostic}
    (hd : policy.accepts t d = true) :
    (c.report d).2.Follows policy (t ++ [.told d cursor true]) cursor := by
  have hreport : c.report d = (true, { c with
      ledger := { c.ledger with
        kept := c.ledger.kept.push d
        warnings := if d.isFatal then c.ledger.warnings else c.ledger.warnings + 1
        fatals := if d.isFatal then c.ledger.fatals + 1 else c.ledger.fatals }
      terminal := c.terminal.map (·.emit c.cursor d) }) := by
    have haccepts : c.ledger.accepts d = true := (h.accepts d).trans hd
    rw [Console.report_of_accepts haccepts, Ledger.add, if_pos haccepts]
  have haccepted : Transcript.accepted (t ++ [.told d cursor true]) = t.accepted ++ [(d, cursor)] :=
    t.accepted_concat _
  rw [hreport]
  exact {
    kept := by
      rw [Transcript.sinceFlush_concat_told, Transcript.accepted_concat]
      simp [h.kept, Entry.accepted?]
    warnings := by
      cases hfatal : d.isFatal <;> simp [haccepted, h.warnings, hfatal, isWarning_eq_true_iff]
    fatals := by
      cases hfatal : d.isFatal <;> simp [haccepted, h.fatals, hfatal]
    refused := by simp [Transcript.refused_concat, h.refused, Entry.verdict?]
    terminal := by simp [haccepted, h.terminal, h.cursor, Terminal.emit, layout_plain]
    policy := h.policy
    cursor := h.cursor }

/-- What is refused is counted. -/
theorem Follows.report_of_not_accepts (h : c.Follows policy t cursor) {d : Diagnostic}
    (hd : policy.accepts t d = false) :
    (c.report d).2.Follows policy (t ++ [.told d cursor false]) cursor := by
  have hreport : c.report d =
      (false, { c with ledger := { c.ledger with refused := c.ledger.refused + 1 } }) := by
    simp [report, Ledger.add, h.accepts, hd]
  have haccepted : Transcript.accepted (t ++ [.told d cursor false]) = t.accepted :=
    (t.accepted_concat _).trans (List.append_nil _)
  rw [hreport]
  exact {
    kept := by
      rw [Transcript.sinceFlush_concat_told, Transcript.accepted_concat]
      simp [h.kept, Entry.accepted?]
    warnings := by rw [haccepted, h.warnings]
    fatals := by rw [haccepted, h.fatals]
    refused := by simp [Transcript.refused_concat, h.refused, Entry.verdict?]
    terminal := by rw [haccepted, h.terminal]
    policy := h.policy
    cursor := h.cursor }

theorem Follows.report (h : c.Follows policy t cursor) (d : Diagnostic) :
    (c.report d).2.Follows policy (t ++ [.told d cursor (policy.accepts t d)]) cursor := by
  cases hd : policy.accepts t d with
  | true => exact h.report_of_accepts hd
  | false => exact h.report_of_not_accepts hd

/-- After a flush nothing is kept, and all counts stay. -/
theorem Follows.flush (h : c.Follows policy t cursor) :
    (c.serve .flush).2.Follows policy (t ++ [.flushed]) cursor := by
  have hserve : (c.serve .flush).2 = { c with ledger := { c.ledger with kept := #[] } } := rfl
  have haccepted : Transcript.accepted (t ++ [.flushed]) = t.accepted :=
    (t.accepted_concat _).trans (List.append_nil _)
  rw [hserve]
  exact {
    kept := by simp [Transcript.sinceFlush_concat_flushed, Transcript.accepted]
    warnings := by rw [haccepted, h.warnings]
    fatals := by rw [haccepted, h.fatals]
    refused := by simp [Transcript.refused_concat, h.refused, Entry.verdict?]
    terminal := by rw [haccepted, h.terminal]
    policy := h.policy
    cursor := h.cursor }

/-- Reading on changes nothing else. -/
theorem Follows.read (h : c.Follows policy t cursor) (next : Cursor) :
    (c.serve (.read next)).2.Follows policy t next :=
  { h with cursor := rfl }

/-! ## A run -/

/-- The console answers and stands as the transcript says, wherever the run goes on. -/
theorem Follows.after (h : c.Follows policy t cursor) (events : List Event) :
    (policy.extend t cursor events).filterMap Entry.verdict? =
        t.filterMap Entry.verdict? ++ c.answers events ∧
      ∃ last, (c.after events).Follows policy (policy.extend t cursor events) last := by
  induction events generalizing c t cursor with
  | nil => exact ⟨by simp [Policy.extend, answers], cursor, h⟩
  | cons event events ih =>
    match event with
    | .report d =>
      obtain ⟨hanswers, hlast⟩ := ih (h.report d)
      refine ⟨?_, hlast⟩
      simp [Policy.extend, answers, serve, hanswers, Entry.verdict?, Console.report, h.accepts]
    | .flush =>
      obtain ⟨hanswers, hlast⟩ := ih h.flush
      refine ⟨?_, hlast⟩
      have hnone : (c.serve .flush).1 = none := rfl
      simp [Policy.extend, answers, hanswers, Entry.verdict?, hnone]
    | .read next =>
      obtain ⟨hanswers, hlast⟩ := ih (h.read next)
      refine ⟨?_, hlast⟩
      have hnone : (c.serve (.read next)).1 = none := rfl
      simp [Policy.extend, answers, hanswers, hnone]

/-- Each report is counted once. -/
theorem total_after (events : List Event) (c : Console) :
    (c.after events).ledger.total = c.ledger.total + events.countP Event.isReport := by
  induction events generalizing c with
  | nil => simp [after]
  | cons event events ih =>
    rw [after_cons, ih, List.countP_cons]
    match event with
    | .report d =>
      simp [serve, Ledger.total_add, Event.isReport]
      omega
    | .flush => simp [serve, Ledger.flush, Ledger.total, Event.isReport]
    | .read cursor => simp [serve, Event.isReport]

/-- Whatever is reported to a console with a terminal, and whenever its ledger is flushed: it
answers each report by the rule, and keeps, counts and prints exactly what the rule accepts. -/
theorem accounts_after (policy : Policy) (events : List Event) :
    let c := (plain policy).after events
    (plain policy).answers events = (policy.transcript events).filterMap Entry.verdict? ∧
      c.Accounts (policy.transcript events) ∧
      c.ledger.warnings + c.ledger.fatals + c.ledger.refused = events.countP Event.isReport := by
  intro c
  obtain ⟨hanswers, last, hlast⟩ := (follows_plain policy).after events
  refine ⟨?_, hlast.toAccounts, ?_⟩
  · simpa [Policy.transcript] using hanswers.symm
  · calc
      c.ledger.warnings + c.ledger.fatals + c.ledger.refused = c.ledger.total := by
        simp [Ledger.total]
      _ = (plain policy).ledger.total + events.countP Event.isReport := total_after events _
      _ = events.countP Event.isReport := by
        simp [plain, ofPolicy, Ledger.ofPolicy, Ledger.total]

/-- A warning about the second line of a file is printed with the name of the file and with its
note, and is not repeated. -/
example :
    let cursor := (Cursor.start.enter "ring.lat").2.advance
    let d := (Condition.nestingTooDeep 8).diagnostic cursor.position
    ((plain {}).after [.read cursor, .report d, .report d]).terminal.map Terminal.printed =
      some ("ring.lat:2: expression nesting exceeds 8 levels\n" ++
        "  note: a variable probably refers to itself; using 0\n") := by
  decide +kernel

end Console

end Beamline.Diagnostic
