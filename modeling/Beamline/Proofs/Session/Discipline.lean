import Beamline.Proofs.Plain.Discipline
import Beamline.Proofs.Session.Plain
import Beamline.Proofs.Session.Steps

/-!
# Disciplines of sessions

What a single request makes of a plain session that obeys a discipline: the session still obeys, the
values that are answered obey, and so does the error in which the request ends, if it fails.

* `Plain.Session.complies_step`: any single request.
-/

namespace Beamline.Plain

open Beamline.Expr (Formula Term)

theorem Interpreter.map_perform {α β : Type} (f : α → β) (action : Deck.Action α) :
    f <$> perform action = perform (f <$> action) := by
  rw [map_eq_pure_bind, map_eq_pure_bind]
  refine funext fun it => ?_
  change ((perform action >>= fun x => pure (f x)).run it) = (perform _).run it
  rw [run_perform]
  have hperform := run_perform action it
  rcases hrun : action.run ⟨it.deck, #[]⟩ with ⟨x | x, w⟩ <;> rw [hrun] at hperform
  · rw [run_bind_of_error hrun, run_bind_of_error hperform]
    rfl
  · rw [run_bind_of_ok hrun, run_bind_of_ok hperform]
    rfl

namespace Session

variable {D : Discipline} {p : Session} {lost : Option Name} {α : Type}
  {formulas : List Formula} {bodies : List Line.Body}

/-- The deck obeys, and so do the terms that are kept on request. -/
structure Obeys (p : Session) (D : Discipline) : Prop where
  /-- The deck obeys. -/
  deck : p.interpreter.deck.Obeys D
  /-- The terms kept on request obey. -/
  issued : ∀ t ∈ p.issued, D.term t

theorem Obeys.term_of_mem (h : p.Obeys D) {t : Term}
    (ht : t ∈ p.interpreter.deck.symbols.exprs ++ p.issued) : D.term t :=
  (List.mem_append.1 ht).elim h.deck.term_of_mem (h.issued t)

theorem Obeys.mono (h : p.Obeys D) {D' : Discipline} (hterm : ∀ t, D.term t → D'.term t)
    (hvalue : ∀ v, D.value v → D'.value v) : p.Obeys D' :=
  ⟨h.deck.mono hterm hvalue, fun t ht => hterm t (h.issued t ht)⟩

/-- What a failed request leaves. -/
def Left (p : Session) (lost : Option Name) (after : Session) : Prop :=
  after.interpreter.deck.symbols = p.interpreter.deck.symbols.but lost ∧ after.issued = p.issued

/-- The answer and the session after it obey. -/
structure Complies (p : Session) (D : Discipline) (lost : Option Name) (x : Answer × Session) :
    Prop where
  /-- The session obeys. -/
  obeys : x.2.Obeys D
  /-- A value that is answered obeys. -/
  value : ∀ v, x.1 = .value (.ok (some v)) → D.value v
  /-- An error that is answered obeys, and all symbols are kept but the element that is lost. -/
  error : ∀ e, x.1.error? = some e →
    ∃ d : Error, e = d.fatal ∧ D.error x.2.interpreter.deck d ∧ p.Left lost x.2

/-- The session stays as it is, and the answer is no value. -/
theorem complies_of_unchanged (hp : p.Obeys D) {x : Answer × Session}
    (hsymbols : x.2.interpreter.deck = p.interpreter.deck) (hissued : x.2.issued = p.issued)
    (hvalue : ∀ o, x.1 ≠ .value (.ok (some o))) (herror : x.1.error? = none) :
    p.Complies D lost x where
  obeys := ⟨hsymbols ▸ hp.deck, hissued ▸ hp.issued⟩
  value v hv := absurd hv (hvalue v)
  error _ he := nomatch herror.symm.trans he

theorem complies_perform (hp : p.Obeys D) {action : Deck.Action α}
    {answer : Except FatalError α → Answer} (hok : ∀ x, (answer (.ok x)).error? = none)
    (herror : ∀ e, (answer (.error e)).error? = some e)
    (h : Ensures (fun w : Deck.Work => w.deck = p.interpreter.deck) action
      (fun x w => w.deck.Obeys D ∧ ∀ v, answer (.ok x) = .value (.ok (some v)) → D.value v)
      fun e w => D.error w.deck e ∧ w.deck.symbols = p.interpreter.deck.symbols.but lost) :
    p.Complies D lost (p.perform (Interpreter.perform action) answer) := by
  rw [run_perform, Interpreter.run_perform]
  rcases h ⟨p.interpreter.deck, #[]⟩ rfl with ⟨x, w, hrun, hdeck, hvalue⟩ | ⟨d, w, hrun, hd, hleft⟩
  · rw [hrun]
    exact ⟨⟨hdeck, hp.issued⟩, hvalue, fun e he => nomatch (hok x).symm.trans he⟩
  · rw [hrun]
    refine ⟨⟨?_, hp.issued⟩, fun v hv => ?_, fun e he => ?_⟩
    · have hbut := hp.deck.but lost
      exact hbut.of_symbols (congrArg Symbols.consts hleft) (congrArg Symbols.vars hleft)
        (congrArg Symbols.elements hleft)
    · -- an answer that is an error is no value
      have hanswer := herror d.fatal
      change answer (.error d.fatal) = _ at hv
      rw [hv] at hanswer
      cases hanswer
    · obtain rfl := Option.some.inj ((herror d.fatal).symm.trans he)
      exact ⟨d, rfl, hd, hleft, rfl⟩

/-- A definition or another change. -/
theorem complies_done (hp : p.Obeys D) {action : Deck.Action Unit} {left : Deck Term}
    (hleft : left.symbols = p.interpreter.deck.symbols.but lost)
    (h : Ensures (fun w : Deck.Work => w.deck = p.interpreter.deck) action
      (fun _ w => w.deck.Obeys D) fun e w => D.error w.deck e ∧ w.deck = left) :
    p.Complies D lost (p.perform (Interpreter.perform action) .done) := by
  refine complies_perform hp (fun _ => rfl) (fun _ => rfl) (h.imp (fun _ => id) ?_ ?_)
  · exact fun _ w hw => ⟨hw, nofun⟩
  · rintro e w ⟨he, rfl⟩
    exact ⟨he, hleft⟩

/-- A value that is asked for. -/
theorem complies_value (hp : p.Obeys D) {action : Deck.Action (Option Value)}
    (h : D.Tracks p.interpreter.deck action fun o => ∀ v, o = some v → D.value v) :
    p.Complies D none (p.perform (Interpreter.perform action) .value) := by
  refine complies_perform hp (fun _ => rfl) (fun _ => rfl) (h.imp (fun _ => id) ?_ ?_)
  · rintro o w ⟨ho, hw⟩
    exact ⟨hw ▸ hp.deck, fun v hv => ho v (Except.ok.inj (Answer.value.inj hv))⟩
  · rintro e w ⟨he, hw⟩
    rw [hw]
    exact ⟨he, (Symbols.but_none _).symm⟩

theorem complies_layout (hp : p.Obeys D) (body : Line.Body)
    (h : D.Covers p.interpreter.deck formulas [body]) :
    p.Complies D none (p.step (.layout body)) := by
  have hlayout := h.layout body List.mem_cons_self
  refine complies_perform hp (fun _ => rfl) (fun _ => rfl) (hlayout.imp (fun _ => id) ?_ ?_)
  · rintro x w ⟨-, hw⟩
    exact ⟨hw ▸ hp.deck, nofun⟩
  · rintro e w ⟨he, hw⟩
    rw [hw]
    exact ⟨he, (Symbols.but_none _).symm⟩

theorem complies_lower (hp : p.Obeys D) {formula : Formula}
    (h : D.Covers p.interpreter.deck [formula] bodies) :
    p.Complies D none (p.step (.lower formula)) := by
  rw [step_lower, Interpreter.run_perform]
  rcases h.lower formula List.mem_cons_self false ⟨p.interpreter.deck, #[]⟩ rfl with
    ⟨t, ⟨deck, raised⟩, hrun, ht, rfl⟩ | ⟨d, ⟨deck, raised⟩, hrun, hd, rfl⟩
  · rw [Deck.lower, hrun]
    refine ⟨⟨hp.deck, fun u hu => ?_⟩, nofun, nofun⟩
    rcases List.mem_append.1 hu with hu | hu
    · exact hp.issued u hu
    · rw [List.mem_singleton.1 hu]
      exact ht
  · rw [Deck.lower, hrun]
    refine ⟨⟨hp.deck, hp.issued⟩, nofun, fun e he => ?_⟩
    obtain rfl : d.fatal = e := Option.some.inj he
    exact ⟨d, rfl, hd, (Symbols.but_none _).symm, rfl⟩

/-- A single request to a session that obeys is answered as the discipline says, and leaves a
session that obeys, if the formulas that it hands over are governed. -/
theorem complies_step (hp : p.Obeys D) {request : Request} (hsingle : request.IsSingle)
    (h : D.Governs p.interpreter.deck.symbols.consts request.formulas request.bodies) :
    p.Complies D request.element? (p.step request) := by
  let d := p.interpreter.deck
  have hcovers : D.Covers d request.formulas request.bodies := h d rfl hp.deck
  -- definitions are made on the deck that has moved to their position
  have hmoved (pos : Source.Position) : Deck.Obeys { d with pos } D :=
    hp.deck.of_symbols rfl rfl rfl
  have hgoverned (pos : Source.Position) := h { d with pos } rfl (hmoved pos)
  cases request with
  | apply statement => exact complies_done hp rfl (Discipline.settles_apply hp.deck h)
  | run statements => exact absurd rfl (hsingle statements)
  | defineConstant raw formula pos =>
    exact complies_done hp rfl (Discipline.settles_at
      (Discipline.settles_defineConstant (hmoved pos) raw (hgoverned pos)))
  | defineVariable raw formula binding pos =>
    exact complies_done hp rfl (Discipline.settles_at
      (Discipline.settles_defineVariable (hmoved pos) raw binding (hgoverned pos)))
  | defineElement raw kind items pos =>
    have hleft := h ({ d with pos }.but (some (Name.ofText raw))) rfl ((hmoved pos).but _)
    exact complies_done hp rfl (Discipline.settles_at
      (Discipline.settles_defineElement (hmoved pos) raw kind hleft))
  | defineLine raw body pos =>
    exact complies_done hp rfl (Discipline.settles_at
      (Discipline.settles_defineLine (hmoved pos) raw body (hgoverned pos)))
  | beginComment =>
    have hbegin : D.Settles d none Deck.beginComment :=
      Discipline.settles_of_commentary hp.deck d.commentary.begin fun _ => rfl
    have hcomplies := complies_done hp rfl hbegin
    exact hcomplies
  | endComment =>
    have hcomplies := complies_done hp rfl (Discipline.settles_endComment hp.deck)
    exact hcomplies
  | captureComment text atEnd =>
    have hcomplies := complies_done hp rfl (Discipline.settles_captureComment hp.deck text atEnd)
    exact hcomplies
  | layout body => exact complies_layout hp body hcovers
  | lower formula => exact complies_lower hp hcovers
  | evaluate number =>
    unfold step
    dsimp only
    cases hterm : p.issued[number]? with
    | none => exact complies_of_unchanged hp rfl rfl nofun rfl
    | some t =>
      dsimp only
      rw [Interpreter.map_perform]
      refine complies_value hp ((hcovers.evaluate t ?_).map ?_)
      · exact hp.issued t (List.mem_of_getElem? hterm)
      · exact fun x hx v hv => Option.some.inj hv ▸ hx
  | render number =>
    unfold step
    dsimp only
    cases p.issued[number]? <;> exact complies_of_unchanged hp rfl rfl nofun rfl
  | constantValue raw =>
    refine ⟨hp, fun v hv => ?_, nofun⟩
    obtain ⟨c, hc, rfl⟩ := Option.map_eq_some_iff.1 (Except.ok.inj (Answer.value.inj hv))
    exact (hp.deck.consts c (Table.mem_of_get? hc)).1
  | variableValue raw =>
    have hquery := Discipline.tracks_variableValue hp.deck hcovers raw
    have hcomplies := complies_value hp hquery
    exact hcomplies
  | attributeValue raw key =>
    have hquery := Discipline.tracks_attributeValue hp.deck hcovers raw key
    have hcomplies := complies_value hp hquery
    exact hcomplies
  | entryValue raw index =>
    have hquery := Discipline.tracks_entryValue hp.deck hcovers raw index
    have hcomplies := complies_value hp hquery
    exact hcomplies
  | elementLength raw =>
    have hquery := Discipline.tracks_elementLength hp.deck hcovers raw
    have hcomplies := complies_value hp hquery
    exact hcomplies
  | resolve | elementsOf | commentAt | finish | attach | enterFile | leaveFile | nextLine =>
    exact complies_of_unchanged hp rfl rfl nofun rfl

/-- Requests whose formulas are governed, whatever the constants are, leave a session that
obeys. -/
theorem Obeys.after (hp : p.Obeys D) {requests : List Request}
    (h : ∀ request ∈ requests, request.IsSingle ∧
      ∀ consts, D.Governs consts request.formulas request.bodies) : (p.after requests).Obeys D := by
  induction requests generalizing p with
  | nil => exact hp
  | cons request requests ih =>
    obtain ⟨⟨hsingle, hgoverns⟩, h⟩ := List.forall_mem_cons.1 h
    exact ih (complies_step hp hsingle (hgoverns _)).obeys h

end Session

end Beamline.Plain
