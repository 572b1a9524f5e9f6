import Beamline.Proofs.Deck.Failure
import Beamline.Proofs.Session.Discipline
import Beamline.Proofs.Session.Reading

/-!
# What a failed request leaves behind

A request that ends in a fatal error has recorded nothing. All records are there as before, and so
is every expression that a record or the caller owns; only an element that was about to be defined
anew is gone, as it is removed before the items of its definition are entered. A run that fails has
applied the statements before the failing one.

* `Session.keepsBut_of_error`: what is left of a session.
-/

namespace Beamline

open Source (Position)
open Beamline.Expr (Fault Forest Formula NodeId Term Tree)

/-! ## Operations that fail -/

namespace Session

variable {s : Session} {e : FatalError} {α β : Type} {lost : Option Name}

/-- What a failed operation leaves, unless it failed at a stale handle. -/
def Left (s : Session) (lost : Option Name) (e : FatalError) (after : Session) : Prop :=
  e.IsStale ∨
    (s.interpreter.deck.KeepsBut lost after.interpreter.deck ∧ after.issued = s.issued)

/-- An operation that fails leaves the deck that its action leaves. -/
theorem left_of_perform {action : Deck.Action α} {answer : Except FatalError α → Answer}
    (hok : ∀ x, (answer (.ok x)).error? = none) (herror : ∀ d, (answer (.error d)).error? = some d)
    (h : s.interpreter.deck.Spares lost action)
    (he : (s.perform (Interpreter.perform action) answer).1.error? = some e) :
    s.Left lost e (s.perform (Interpreter.perform action) answer).2 := by
  rw [run_perform, Interpreter.run_perform] at he ⊢
  rcases hrun : action.run ⟨s.interpreter.deck, #[]⟩ with ⟨x | x, w⟩
  · rw [hrun] at he
    obtain rfl := Option.some.inj ((herror x).symm.trans he)
    exact (h.of_run_error (.refl _) hrun).imp id fun hkeeps => ⟨hkeeps, rfl⟩
  · rw [hrun, hok] at he
    cases he

theorem left_of_done {action : Deck.Action Unit} (h : s.interpreter.deck.Spares lost action)
    (he : (s.perform (Interpreter.perform action) .done).1.error? = some e) :
    s.Left lost e (s.perform (Interpreter.perform action) .done).2 :=
  left_of_perform (fun _ => rfl) (fun _ => rfl) h he

/-- A value that is asked for changes no record. -/
theorem left_of_value {action : Deck.Action (Option Value)}
    (h : s.interpreter.deck.KeepsRecords none action)
    (he : (s.perform (Interpreter.perform action) .value).1.error? = some e) :
    s.Left none e (s.perform (Interpreter.perform action) .value).2 :=
  left_of_perform (fun _ => rfl) (fun _ => rfl) h.spares he

theorem left_of_lower {formula : Formula} (he : (s.step (.lower formula)).1.error? = some e) :
    s.Left none e (s.step (.lower formula)).2 := by
  rw [step_lower, Interpreter.run_perform] at he ⊢
  rcases hrun : (Deck.lower formula).run ⟨s.interpreter.deck, #[]⟩ with ⟨x | x, w⟩
  · rw [hrun] at he
    obtain rfl : x = e := Option.some.inj he
    have hspares : s.interpreter.deck.Spares none (Deck.lower formula) :=
      (Deck.keepsRecords_lowerWith false formula).spares
    exact (hspares.of_run_error (.refl _) hrun).imp id fun hkeeps => ⟨hkeeps, rfl⟩
  · rw [hrun] at he
    cases he

/-- A single request that fails keeps all records but the element that it defines. -/
theorem left_of_error {request : Request} (hsingle : request.IsSingle)
    (he : (s.step request).1.error? = some e) :
    s.Left request.element? e (s.step request).2 := by
  cases request with
  | apply statement =>
    rw [step_apply] at he ⊢
    exact left_of_done (Deck.spares_apply statement) he
  | run statements => exact absurd rfl (hsingle statements)
  | defineConstant raw formula pos =>
    rw [step_defineConstant] at he ⊢
    exact left_of_done ((Deck.spares_defineConstant raw formula).at pos) he
  | defineVariable raw formula binding pos =>
    rw [step_defineVariable] at he ⊢
    exact left_of_done ((Deck.spares_defineVariable raw formula binding).at pos) he
  | defineElement raw kind items pos =>
    rw [step_defineElement] at he ⊢
    exact left_of_done ((Deck.spares_defineElement raw kind items).at pos) he
  | defineLine raw body pos =>
    rw [step_defineLine] at he ⊢
    exact left_of_done ((Deck.spares_defineLine raw body).at pos) he
  | beginComment =>
    rw [step_beginComment] at he ⊢
    exact left_of_done (Deck.spares_perform .beginComment) he
  | endComment =>
    rw [step_endComment] at he ⊢
    exact left_of_done Deck.spares_endComment he
  | captureComment text atEnd =>
    rw [step_captureComment] at he ⊢
    exact left_of_done (Deck.spares_perform (.comment text atEnd)) he
  | layout body =>
    rw [step_layout] at he ⊢
    exact left_of_perform (fun _ => rfl) (fun _ => rfl) (Deck.keepsRecords_layout body).spares he
  | lower formula => exact left_of_lower he
  | evaluate number =>
    cases hid : s.issued[number]? with
    | none =>
      unfold step at he
      dsimp only at he
      rw [hid] at he
      cases he
    | some id =>
      rw [step_evaluate s hid] at he ⊢
      exact left_of_value (Deck.keepsRecords_evaluate id).map he
  | variableValue raw =>
    rw [step_variableValue] at he ⊢
    exact left_of_value (Deck.KeepsRecords.of_current fun d => Deck.keepsRecords_slotValue _) he
  | attributeValue raw key =>
    rw [step_attributeValue] at he ⊢
    exact left_of_value (Deck.KeepsRecords.of_current fun d => Deck.keepsRecords_slotValue _) he
  | entryValue raw index =>
    rw [step_entryValue] at he ⊢
    exact left_of_value (Deck.KeepsRecords.of_current fun d => Deck.keepsRecords_slotValue _) he
  | elementLength raw =>
    rw [step_elementLength] at he ⊢
    exact left_of_value (Deck.KeepsRecords.of_current fun d => Deck.keepsRecords_slotValue _) he
  | render number =>
    -- the text of an expression is asked of the session as it is
    unfold step at he ⊢
    dsimp only at he ⊢
    cases s.issued[number]? with
    | none => exact .inr ⟨.refl _, rfl⟩
    | some id => exact .inr ⟨.refl _, rfl⟩
  | _ => cases he

end Session

/-! ## Plain operations that fail -/

namespace Plain

/-- The discipline that allows everything. -/
def Discipline.lax : Discipline where
  term _ := True
  value _ := True
  error _ _ := True

theorem Discipline.lax_governs (consts : Table (Constant Term)) (formulas : List Formula)
    (bodies : List Line.Body) : Discipline.lax.Governs consts formulas bodies :=
  governs_of_lower (fun _ => trivial) (fun _ _ => trivial) (fun _ => trivial)
    fun _ _ _ _ _ => tracks_of_run (fun _ => rfl) (fun _ => trivial) fun _ => trivial

/-- A single request that fails keeps all symbols but the element that it defines. -/
theorem Session.left_of_error {p : Session} {request : Request} (hsingle : request.IsSingle)
    {e : FatalError} (he : (p.step request).1.error? = some e) :
    p.Left request.element? (p.step request).2 := by
  have hp : p.Obeys Discipline.lax :=
    ⟨⟨fun _ _ => ⟨trivial, trivial⟩, fun _ _ => trivial, fun _ _ _ _ => trivial⟩,
      fun _ _ => trivial⟩
  obtain ⟨d, -, -, hleft⟩ := (complies_step hp hsingle (Discipline.lax_governs _ _ _)).error e he
  exact hleft

end Plain

/-! ## What is left -/

/-- The records that are left, with their expressions left as handles. -/
theorem Deck.KeepsBut.view_eq {deck other : Deck} {lost : Option Name}
    (h : deck.KeepsBut lost other) : other.symbols.view = deck.symbols.view.but lost := by
  unfold Symbols.view Plain.Symbols.but
  rw [h.consts, h.vars, h.lines, h.elements, List.filter_map]
  rfl

namespace Session

variable {limits : Limits} {stray : Nat} {same : Prop} {s after : Session}
  {p plainAfter : Plain.Session} {lost : Option Name}

/-- All records are kept, except for the element of the name that is lost, if one is, and so are
the issued handles. Behind every root that is left there is the term that was there before. -/
structure KeepsBut (lost : Option Name) (s after : Session) : Prop where
  /-- The records, the limits and the commentary are kept. -/
  deck : s.interpreter.deck.KeepsBut lost after.interpreter.deck
  /-- The issued handles are kept. -/
  issued : after.issued = s.issued
  /-- The expressions are kept. -/
  read : ∀ id ∈ after.roots, ∃ t, s.interpreter.deck.forest.read id = .ok t ∧
    after.interpreter.deck.forest.read id = .ok t

/-- The same terms lie behind the roots that are left if the plain session has kept its
symbols. -/
theorem keepsBut_of_left (hs : Alike limits stray same s p) {more : Nat} {same' : Prop}
    (hs' : Alike limits more same' after plainAfter)
    (hdeck : s.interpreter.deck.KeepsBut lost after.interpreter.deck)
    (hissued : after.issued = s.issued) (hplain : p.Left lost plainAfter) :
    s.KeepsBut lost after := by
  let read := s.interpreter.deck.forest.read
  let readAfter := after.interpreter.deck.forest.read
  -- both sides read the records that the plain session has kept
  have hview : after.interpreter.deck.symbols.view.map readAfter =
      after.interpreter.deck.symbols.view.map read := by
    calc after.interpreter.deck.symbols.view.map readAfter
        = plainAfter.interpreter.deck.symbols.map .ok := hs'.reading_eq
      _ = (p.interpreter.deck.symbols.map .ok).but lost := by
          rw [hplain.1, Plain.Symbols.map_but]
      _ = (s.interpreter.deck.symbols.view.map read).but lost :=
          congrArg (Plain.Symbols.but lost) hs.reading_eq.symm
      _ = after.interpreter.deck.symbols.view.map read := by
          rw [← Plain.Symbols.map_but, hdeck.view_eq]
  have hroots : after.roots.map readAfter = after.roots.map read := by
    rw [roots, List.map_append, List.map_append, Deck.roots_eq_exprs_view,
      ← Plain.Symbols.exprs_map, ← Plain.Symbols.exprs_map, hview]
    congr 1
    rw [hs'.map_read_issued, hplain.2, hissued, hs.map_read_issued]
  refine ⟨hdeck, hissued, fun id hid => ?_⟩
  obtain ⟨t, -, ht⟩ := hs'.exists_read hid
  have hsame : readAfter id = read id := List.map_inj_left.1 hroots id hid
  exact ⟨t, hsame.symm.trans ht, ht⟩

/-- A single request that ends in an error keeps everything but the element that it defines. -/
theorem keepsBut_of_single (hs : Alike limits stray same s p) {request : Request}
    (hsingle : request.IsSingle) (herror : (s.step request).1.error? ≠ none) :
    s.KeepsBut request.element? (s.step request).2 := by
  obtain ⟨e, he⟩ := Option.ne_none_iff_exists'.1 herror
  -- the plain session fails as well, and no handle is found stale
  obtain ⟨d, more, same', hd, hstale, hs'⟩ : ∃ d more same',
      (p.step request).1.error? = some d ∧ ¬e.IsStale ∧
        Alike limits more same' (s.step request).2 (p.step request).2 := by
    cases served request hs with
    | done _ hnone _ => exact absurd hnone herror
    | failed hanswer e' he' hfault more halike =>
      obtain rfl := Option.some.inj (he'.symm.trans he)
      exact ⟨e', more, same, hanswer ▸ he, fun ⟨h, hh⟩ => hfault _ hh, halike⟩
    | endless _ hanswer h he' more halike =>
      obtain rfl := Option.some.inj (he'.symm.trans he)
      exact ⟨_, more, False, hanswer, (fun ⟨_, hh⟩ => nomatch hh), halike⟩
  obtain ⟨hdeck, hissued⟩ := (left_of_error hsingle he).resolve_left hstale
  exact keepsBut_of_left hs hs' hdeck hissued (Plain.Session.left_of_error hsingle hd)

/-- A request that ends in a fatal error leaves all records as they were, save for an element that
it was to define anew, and every expression that is left has kept its content. A run leaves what the
statements before the failing one have made, and of that what the failing statement keeps. -/
theorem keepsBut_of_error (config : Config) (requests : List Request) :
    let s := (ofConfig config).after requests
    (∀ request, request.IsSingle → (s.step request).1.error? ≠ none →
        s.KeepsBut request.element? (s.step request).2) ∧
      ∀ statements, (s.step (.run statements)).1.error? ≠ none →
        ∃ applied statement rest, statements = applied ++ statement :: rest ∧
          (∀ entry ∈ s.trace (applied.map .apply), entry.1.error? = none) ∧
          (s.after (applied.map .apply)).KeepsBut statement.clause.element?
            (s.step (.run statements)).2 := by
  intro s
  obtain ⟨stray, same, hs, -⟩ := alike_after requests (alike_ofConfig config)
  refine ⟨fun request hsingle herror => keepsBut_of_single hs hsingle herror, ?_⟩
  intro statements herror
  rcases run_cases s statements with
    hrun | ⟨applied, statement, rest, e, hsplit, hnone, hfails, hrun⟩
  · rw [hrun] at herror
    exact absurd rfl herror
  · obtain ⟨stray', same', hs', -⟩ := alike_after (applied.map .apply) hs
    refine ⟨applied, statement, rest, hsplit, hnone, ?_⟩
    rw [hrun]
    exact keepsBut_of_single hs' (Request.isSingle_apply statement)
      (hfails ▸ Option.some_ne_none e)

/-- An element is defined anew, and the second definition fails at its last item, after an item
that was entered; a formula that refers to the element is held by the caller. As a run, the same
leaves the variable that came before the failing statement. -/
theorem keepsBut_of_error_of_redefinition :
    let pos := Position.unread
    let requests : List Request :=
      [.defineElement "M" .matrix [.assign "L" (.number 1.0)] pos,
        .lower (.parens (.lengthOf "M"))]
    let items : List Element.Item :=
      [.assign "L" (.number 2.0), .assign "L" (.signed .minus (.text "x"))]
    let statements : List Statement :=
      [⟨.variable "A" (.number 3.0) .deferred, pos⟩, ⟨.element "M" .drift items, pos⟩,
        ⟨.variable "B" (.number 4.0) .deferred, pos⟩]
    let s := (ofConfig {}).after requests
    let request : Request := .defineElement "M" .drift items pos
    (s.step request).1.error?.isSome = true ∧
      s.KeepsBut (some (Name.ofText "M")) (s.step request).2 ∧
      ∃ applied statement rest, statements = applied ++ statement :: rest ∧
        (∀ entry ∈ s.trace (applied.map .apply), entry.1.error? = none) ∧
        (s.after (applied.map .apply)).KeepsBut statement.clause.element?
          (s.step (.run statements)).2 := by
  intro pos requests items statements s request
  have hrequest : (s.step request).1.error?.isSome = true := by
    decide +kernel
  have hstatements : (s.step (.run statements)).1.error?.isSome = true := by
    decide +kernel
  obtain ⟨hsingle, hrun⟩ := keepsBut_of_error {} requests
  exact ⟨hrequest, hsingle request nofun (Option.isSome_iff_ne_none.1 hrequest),
    hrun statements (Option.isSome_iff_ne_none.1 hstatements)⟩

end Session

end Beamline
