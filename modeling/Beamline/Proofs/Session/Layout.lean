import Beamline.Proofs.Line.Expansion
import Beamline.Proofs.Session.Limits

/-!
# Laying out bodies on request

In every state that requests lead to, a body is laid out as the entries that it stands for, unless
a repetition in it is longer than the bound. A reflection may be moved to the members of the body
before it is laid out.

* `Session.step_layout_eq`: what a layout on request comes to.
* `Session.layout_exact`: the same from the symbols alone, for every session.
* `Session.layout_mirror`: the reflection of a body and its mirror image.
-/

namespace Beamline

open Diagnostic (Condition)
open Line (Body)

namespace Session

theorem answer_layout (s : Session) (body : Body) :
    (s.step (.layout body)).1 =
      .entries ((body.layout s.interpreter.deck.lineScope).run #[]).1 := by
  rw [step_layout]
  rfl

/-- A layout that comes to entries reports what it has raised, and changes nothing but the
console. -/
theorem step_layout_of_ok {s : Session} {body : Body} {entries : List Line.Entry}
    {raised : Array Diagnostic}
    (hrun : (body.layout s.interpreter.deck.lineScope).run #[] = (.ok entries, raised)) :
    s.reportsOf (.layout body) = raised.toList ∧
      (s.step (.layout body)).2.interpreter =
        { s.interpreter with console := s.interpreter.console.reportAll raised.toList } := by
  have hsingle : (Request.layout body).IsSingle := fun _ => nofun
  have haction : s.runAction (.layout body) =
      (.ok (.entries (.ok entries), []), ⟨s.interpreter.deck, raised⟩) := by
    refine (run_map _ _ _).trans ?_
    rw [Deck.run_layout, hrun]
    rfl
  have hreports : s.reportsOf (.layout body) = raised.toList := by
    rw [reportsOf_of_isSingle s hsingle, reportsOfSingle, haction]
    exact List.append_nil _
  refine ⟨hreports, ?_⟩
  rw [step_eq hsingle, serve, ← reportsOf_of_isSingle s hsingle, hreports, haction]
  rfl

/-- A layout on request comes to the entries that the body stands for, unless a repetition is
beyond the bound. -/
theorem step_layout_eq (s : Session) (body : Body) :
    (s.step (.layout body)).1 =
      .entries (if body.Fits s.interpreter.deck.symbols s.interpreter.deck.limits.lineEntries
        then .ok (body.expansion s.interpreter.deck.symbols)
        else .error s.interpreter.deck.lineScope.overflow) := by
  rw [answer_layout]
  exact congrArg Answer.entries (Body.layout_outcome s.interpreter.deck.lineScope body #[])

/-- The limits of a session are those it was started with. -/
theorem limits_after_ofConfig (config : Config) (requests : List Request) :
    ((ofConfig config).after requests).interpreter.deck.limits = config.limits := by
  obtain ⟨stray, same, hs, -⟩ := alike_after requests (alike_ofConfig config)
  exact hs.deck_limits_eq

/-- In every session a body is laid out as the entries that it stands for if each repetition in it
is within the bound, with one warning for each member that stands for nothing, from left to right;
otherwise the layout fails and names the bound. -/
theorem layout_exact (config : Config) (requests : List Request) (body : Body) :
    let s := (ofConfig config).after requests
    let symbols := s.interpreter.deck.symbols
    let pos := s.interpreter.deck.pos
    let bound := Line.bound config.limits.lineEntries
    let warnings := (body.references.filter fun name => !symbols.defines name).map fun name =>
      (Condition.memberUndefined name).diagnostic pos
    (s.step (.layout body)).1 =
        .entries (if ∀ part ∈ body.repetitions, (part.expansion symbols).length ≤ bound
          then .ok (body.expansion symbols)
          else .error (.lineTooLong bound pos)) ∧
      ((∀ part ∈ body.repetitions, (part.expansion symbols).length ≤ bound) →
        s.reportsOf (.layout body) = warnings ∧
          (s.step (.layout body)).2.interpreter =
            { s.interpreter with console := s.interpreter.console.reportAll warnings }) := by
  intro s symbols pos bound warnings
  have hlimits : s.interpreter.deck.limits = config.limits := limits_after_ofConfig config requests
  have hbound : Line.bound s.interpreter.deck.lineScope.limit = bound := by
    show Line.bound s.interpreter.deck.limits.lineEntries = bound
    rw [hlimits]
  constructor
  · rw [step_layout_eq, hlimits]
    unfold Body.Scope.overflow
    rw [hbound]
    rfl
  · intro hfits
    have hfits : body.Fits s.interpreter.deck.lineScope.symbols
        s.interpreter.deck.lineScope.limit := by
      unfold Body.Fits
      rw [hbound]
      exact hfits
    obtain ⟨hreports, hstep⟩ := step_layout_of_ok (Body.run_layout_of_fits hfits #[])
    have hraised : (#[] ++ s.interpreter.deck.lineScope.warnings
        (body.undefined s.interpreter.deck.lineScope.symbols)).toList = warnings := by
      simp [Body.Scope.warnings, Body.undefined, warnings, Deck.lineScope, symbols, pos]
    rw [hraised] at hreports hstep
    exact ⟨hreports, hstep⟩

/-- A reflection turns the order round and changes each sign, also that of a member that is
reflected already. -/
example :
    ((ofConfig {}).step
      (.layout (.reflection (.sequence [.member "A", .reflection (.member "B")])))).1 =
        .entries (.ok [⟨Name.ofText "B", .forward⟩, ⟨Name.ofText "A", .backward⟩]) := by
  rfl

/-- The reflection of a body is laid out as its mirror image, and a body reflected twice as the
body: to the same entries or to the same error of a repetition that is too long. -/
theorem layout_mirror (config : Config) (requests : List Request) (body : Body) :
    let s := (ofConfig config).after requests
    (s.step (.layout (.reflection body))).1 = (s.step (.layout body.mirror)).1 ∧
      (s.step (.layout (.reflection (.reflection body)))).1 = (s.step (.layout body)).1 ∧
      ((∃ entries, (s.step (.layout (.reflection body))).1 = .entries (.ok entries)) ∨
        (s.step (.layout (.reflection body))).1 =
          .entries (.error (.lineTooLong (Line.bound config.limits.lineEntries)
            s.interpreter.deck.pos))) := by
  intro s
  have hlimits : s.interpreter.deck.limits = config.limits := limits_after_ofConfig config requests
  refine ⟨?_, ?_, ?_⟩
  · rw [step_layout_eq, step_layout_eq]
    simp only [Body.fits_reflection, Body.fits_mirror_iff, Body.expansion_mirror, Body.expansion]
  · rw [step_layout_eq, step_layout_eq]
    simp only [Body.fits_reflection, Body.expansion, Line.reflect_reflect]
  · rw [step_layout_eq]
    split
    · exact .inl ⟨_, rfl⟩
    · right
      unfold Body.Scope.overflow Deck.lineScope
      rw [hlimits]

end Session

end Beamline
