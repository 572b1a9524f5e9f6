import Beamline.Proofs.Deck.Members
import Beamline.Proofs.Session.Limits

/-!
# What the entries of lines resolve to

As long as no request ends in a fatal error, each entry of each line resolves to an element, or
there has been a warning that nothing has its name. So where there has been no such warning, the
entries resolve to elements for good.

* `Session.accounted_step`: what one request preserves.
* `Session.resolve_of_done`: what a whole run preserves.
-/

namespace Beamline

open Source (Position)
open Diagnostic (Condition)
open Beamline.Expr (NodeId)

/-! ## Actions -/

namespace Deck

variable {past : List Diagnostic} {names : Name → Prop} {lost : Option Name}
  {pending : List Line.Entry} {w : Work}

/-- What was raised is in the past once it has been reported. -/
theorem Accounted.told (h : Accounted past names lost pending w) {told : List Diagnostic}
    (hpast : past ⊆ told) (hraised : w.raised.toList ⊆ told) :
    Accounted told names lost pending ⟨w.deck, #[]⟩ := by
  have hvouches {name : Name} (hname : w.Vouches past lost name) :
      Work.Vouches told lost ⟨w.deck, #[]⟩ name := by
    refine hname.imp_right fun ⟨pos, hwarned⟩ => ⟨pos, .inl ?_⟩
    rcases hwarned with hpast' | hraised'
    · exact hpast hpast'
    · exact hraised (Array.mem_toList_iff.2 hraised')
  exact ⟨h.names, fun line hline entry hentry => hvouches (h.entries line hline entry hentry),
    fun entry hentry => hvouches (h.pending entry hentry)⟩

/-- What is asked of a slot changes no record. -/
theorem maintains_query (slot : Deck → Option (Option NodeId)) :
    Maintains (Accounted past names lost pending) (do slotValue (slot (← current))) := by
  refine ensures_current fun deck => ?_
  cases slot deck with
  | none => exact Ensures.of_pure fun _ => id
  | some held =>
    cases held with
    | none => exact Ensures.of_pure fun _ => id
    | some id => exact (maintains_evaluate id).map _

/-- The action of a request keeps all entries accounted for if it is done. -/
theorem maintains_action (issued : List NodeId) (request : Request) :
    Maintains (Accounted past names none []) (request.action issued) := by
  have hread {α : Type} (f : Deck → α) : Maintains (Accounted past names none [])
      (do
        let deck ← current
        return f deck) :=
    ensures_current fun _ => Ensures.of_pure fun _ => id
  cases request with
  | apply statement => exact (accounted_apply statement).map _
  | defineConstant raw formula pos => exact (maintains_at (maintains_defineConstant _ _) pos).map _
  | defineVariable raw formula binding pos =>
    exact (maintains_at (maintains_defineVariable _ _ _) pos).map _
  | defineElement raw kind items pos =>
    exact (maintains_at (maintains_defineElement _ _ _) pos).map _
  | defineLine raw body pos => exact (maintains_at (maintains_defineLine _ _) pos).map _
  | beginComment => exact maintains_beginComment.map _
  | endComment => exact maintains_endComment.map _
  | captureComment text atEnd => exact (maintains_captureComment text atEnd).map _
  | layout body =>
    exact (maintains_of_keepsRecords (P := fun _ => True) (fun _ => keepsRecords_layout body)
      (indifferent_layout body)).map _
  | lower formula => exact (maintains_lowerWith false formula).map _
  | evaluate number =>
    rw [Request.action]
    cases issued[number]? with
    | none => exact Ensures.of_pure fun _ => id
    | some id => exact (maintains_evaluate id).map _
  | render number =>
    rw [Request.action]
    cases issued[number]? with
    | none => exact Ensures.of_pure fun _ => id
    | some id => exact hread _
  | variableValue | attributeValue | entryValue | elementLength => exact (maintains_query _).map _
  | constantValue | resolve | elementsOf | commentAt => exact hread _
  | _ => exact Ensures.of_pure fun _ => id

end Deck

/-! ## Requests -/

namespace Session

variable {past : List Diagnostic} {names : Name → Prop} {s : Session} {request : Request}

/-- All entries of lines are accounted for by what has been reported in the past. The given names
are names of elements. -/
def Accounted (past : List Diagnostic) (names : Name → Prop) (s : Session) : Prop :=
  Deck.Accounted past names none [] ⟨s.interpreter.deck, #[]⟩

/-- A single request that is done keeps all entries accounted for. -/
theorem accounted_step_single (h : s.Accounted past names) (hsingle : request.IsSingle)
    (hdone : (s.step request).1.error? = none) :
    (s.step request).2.Accounted (past ++ s.reportsOfSingle request) names := by
  rw [step_eq hsingle, serve] at hdone ⊢
  unfold reportsOfSingle runAction at *
  rcases Deck.maintains_action s.issued request _ h with ⟨x, w, hrun, hw⟩ | ⟨e, w, hrun, -⟩
  · rw [hrun]
    refine hw.told (List.subset_append_left _ _) ?_
    exact List.Subset.trans (List.subset_append_left _ _) (List.subset_append_right _ _)
  · -- a request that is done has not ended in an error
    rw [hrun, Request.error?_refusal] at hdone
    cases hdone

/-- A run of statements that is done keeps all entries accounted for. -/
theorem accounted_step_run (statements : List Statement) (h : s.Accounted past names)
    (hdone : (s.step (.run statements)).1.error? = none) :
    (s.step (.run statements)).2.Accounted (past ++ s.reportsOfRun statements) names := by
  induction statements generalizing s past with
  | nil =>
    rw [reportsOfRun, List.append_nil]
    exact h
  | cons statement statements ih =>
    cases herror : (s.step (.apply statement)).1.error? with
    | some e =>
      -- the run would have ended in the error of the statement
      rw [step_run_of_error herror, herror] at hdone
      cases hdone
    | none =>
      rw [step_run_of_ok herror] at hdone ⊢
      rw [reportsOfRun, herror, ← List.append_assoc]
      exact ih (accounted_step_single h (Request.isSingle_apply statement) herror) hdone

/-- A request that is done keeps all entries accounted for. -/
theorem accounted_step (h : s.Accounted past names)
    (hdone : (s.step request).1.error? = none) :
    (s.step request).2.Accounted (past ++ s.reportsOf request) names := by
  cases request with
  | run statements => exact accounted_step_run statements h hdone
  | _ => exact accounted_step_single h nofun hdone

/-! ## Runs -/

/-- Requests that are done keep all entries accounted for. -/
theorem accounted_after (requests : List Request) (h : s.Accounted past names)
    (hdone : ∀ entry ∈ s.trace requests, entry.1.error? = none) :
    (s.after requests).Accounted (past ++ s.reports requests) names := by
  induction requests generalizing s past with
  | nil =>
    rw [reports, List.append_nil]
    exact h
  | cons request requests ih =>
    rw [trace_cons] at hdone
    obtain ⟨hfirst, hrest⟩ := List.forall_mem_cons.1 hdone
    rw [reports, ← List.append_assoc]
    exact ih (accounted_step h hfirst) hrest

/-- There are no lines at the start. -/
theorem accounted_ofConfig (config : Config) : (ofConfig config).Accounted [] fun _ => False := by
  refine ⟨fun _ => False.elim, fun line hline => ?_, List.forall_mem_nil _⟩
  cases hline

theorem trace_append (s : Session) (requests more : List Request) :
    s.trace (requests ++ more) = s.trace requests ++ (s.after requests).trace more := by
  induction requests generalizing s with
  | nil => rfl
  | cons request requests ih =>
    rw [List.cons_append, trace_cons, trace_cons, ih]
    rfl

/-- A name of an element resolves to an element, also if it is the name of a line. -/
theorem exists_resolve_of_hasElement {deck : Deck} {entry : Line.Entry}
    (h : deck.symbols.HasElement none entry.name) :
    ∃ record, deck.resolve entry = .element record := by
  obtain ⟨e, he, hname⟩ := h.resolve_right nofun
  have hsome : (deck.symbols.elements.get? entry.name).isSome := by
    rw [Table.get?_eq_find?, List.find?_isSome]
    exact ⟨e, he, decide_eq_true hname⟩
  obtain ⟨record, hrecord⟩ := Option.isSome_iff_exists.1 hsome
  refine ⟨record, ?_⟩
  unfold Deck.resolve Symbols.resolve
  rw [hrecord]

/-- After requests of which none has ended in a fatal error, each entry of each line resolves to an
element, or a warning has been reported that nothing has its name. What the lines are made of that
were there before any such warning resolves to elements ever after. -/
theorem resolve_of_done (config : Config) (earlier later : List Request)
    (hdone : ∀ entry ∈ (ofConfig config).trace (earlier ++ later), entry.1.error? = none) :
    let start := ofConfig config
    let deck := (start.after (earlier ++ later)).interpreter.deck
    (∀ line ∈ deck.symbols.lines.toList, ∀ entry ∈ line.entries,
        (∃ record, deck.resolve entry = .element record) ∨
          ∃ pos, (Condition.memberUndefined entry.name).diagnostic pos ∈
            start.reports (earlier ++ later)) ∧
      ((∀ d ∈ start.reports earlier, d.code ≠ .memberUndefined) →
        ∀ line ∈ (start.after earlier).interpreter.deck.symbols.lines.toList,
          ∀ entry ∈ line.entries, ∃ record, deck.resolve entry = .element record) := by
  intro start deck
  have hstart : start.Accounted [] fun _ => False := accounted_ofConfig config
  refine ⟨fun line hline entry hentry => ?_, fun hnone line hline entry hentry => ?_⟩
  · have hall := accounted_after (earlier ++ later) hstart hdone
    rcases hall.entries line hline entry hentry with helement | ⟨pos, hwarned⟩
    · exact .inl (exists_resolve_of_hasElement helement)
    · exact .inr ⟨pos, hwarned.resolve_right nofun⟩
  · rw [trace_append] at hdone
    obtain ⟨hearlier, hlater⟩ := List.forall_mem_append.1 hdone
    -- without a warning the names of all entries are names of elements
    have hmiddle := accounted_after earlier hstart hearlier
    let names (name : Name) : Prop :=
      ∃ line ∈ (start.after earlier).interpreter.deck.symbols.lines.toList,
        ∃ entry ∈ line.entries, entry.name = name
    have hnames : (start.after earlier).Accounted ([] ++ start.reports earlier) names := by
      refine ⟨?_, hmiddle.entries, hmiddle.pending⟩
      rintro _ ⟨line, hline, entry, hentry, rfl⟩
      rcases hmiddle.entries line hline entry hentry with helement | ⟨pos, hwarned⟩
      · exact helement
      · exact absurd rfl (hnone _ (hwarned.resolve_right nofun))
    -- and they stay so while elements are defined anew
    have hafter := accounted_after later hnames hlater
    rw [← after_append] at hafter
    exact exists_resolve_of_hasElement (hafter.names _ ⟨line, hline, entry, hentry, rfl⟩)

/-- A line is made of elements and of another line, an element takes the name of that line, and
both are defined anew; only then a line has a member that is not defined. -/
theorem resolve_of_done_of_shared :
    let pos := Position.unread
    let earlier : List Request :=
      [.defineElement "Q" .drift [] pos, .defineLine "P" (.member "Q") pos,
        .run
          [⟨.line "S" (.repetition "2" (.sequence [.member "P", .reflection (.member "Q")])), pos⟩,
            ⟨.element "P" .drift [], pos⟩]]
    let later : List Request :=
      [.defineElement "Q" .matrix [] pos, .defineLine "P" (.member "R") pos,
        .defineLine "T" (.reflection (.sequence [.member "P", .member "S", .member "R"])) pos]
    let start := ofConfig {}
    let deck := (start.after (earlier ++ later)).interpreter.deck
    (∀ line ∈ deck.symbols.lines.toList, ∀ entry ∈ line.entries,
        (∃ record, deck.resolve entry = .element record) ∨
          ∃ pos, (Condition.memberUndefined entry.name).diagnostic pos ∈
            start.reports (earlier ++ later)) ∧
      ∀ line ∈ (start.after earlier).interpreter.deck.symbols.lines.toList,
        ∀ entry ∈ line.entries, ∃ record, deck.resolve entry = .element record := by
  intro pos earlier later
  have hdone : ∀ entry ∈ (ofConfig {}).trace (earlier ++ later),
      entry.1.error?.isNone = true := by
    decide +kernel
  have hnone : ∀ d ∈ (ofConfig {}).reports earlier, d.code ≠ .memberUndefined := by
    decide +kernel
  obtain ⟨hresolve, hlasts⟩ := resolve_of_done {} earlier later fun entry hentry =>
    Option.isNone_iff_eq_none.1 (hdone entry hentry)
  exact ⟨hresolve, hlasts hnone⟩

end Session

end Beamline
