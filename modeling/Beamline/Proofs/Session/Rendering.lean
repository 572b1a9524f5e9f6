import Beamline.Proofs.Expr.Reader
import Beamline.Proofs.Plain.Items
import Beamline.Proofs.Session.Reading

/-!
# The texts of stored formulas

A formula that is stored on request is written as it was read, in every later state and whatever its
names stood for when it was stored. So from its text alone a well-bracketed formula is known up to
the spelling of its names, also if another session has stored it.

* `Session.render_after_lower`: the text of a formula that was stored.
* `Session.render_unambiguous`: formulas with the same text.
-/

namespace Beamline

open Source (Position)
open Beamline.Expr (Formula Term)

namespace Plain.Session

variable {p : Session}

/-- What has been issued stays issued under its number. -/
theorem issued_prefix_step (p : Session) (request : Request) :
    p.issued <+: (p.step request).2.issued := by
  cases request with
  | lower formula =>
    rw [step_lower]
    split
    · exact List.prefix_append _ _
    · exact List.prefix_rfl
  | evaluate number =>
    unfold step
    dsimp only
    split <;> exact List.prefix_rfl
  | render number =>
    unfold step
    dsimp only
    split <;> exact List.prefix_rfl
  | _ => exact List.prefix_rfl

theorem issued_prefix_after (p : Session) (requests : List Request) :
    p.issued <+: (p.after requests).issued := by
  induction requests generalizing p with
  | nil => exact List.prefix_rfl
  | cons request requests ih => exact (issued_prefix_step p request).trans (ih _)

/-- A formula that is stored is kept as its term over some constants. -/
theorem exists_issued_of_lower {formula : Formula}
    (h : (p.step (.lower formula)).1.error? = none) :
    ∃ constant? : Name → Option Value,
      (p.step (.lower formula)).2.issued = p.issued ++ [formula.term constant?] := by
  rw [step_lower, Interpreter.run_perform] at h ⊢
  rcases hrun : (Deck.lower formula).run ⟨p.interpreter.deck, #[]⟩ with ⟨e | t, w⟩
  · rw [hrun] at h
    cases h
  · obtain ⟨rfl, -, -⟩ := Deck.run_lower_of_ok hrun
    exact ⟨_, rfl⟩

theorem answer_render {number : Nat} {t : Term} (h : p.issued[number]? = some t) :
    (p.step (.render number)).1 = .text (.ok t.render) := by
  unfold step
  dsimp only
  rw [h]

end Plain.Session

namespace Session

variable {limits : Limits} {stray : Nat} {same : Prop} {s : Session} {p : Plain.Session}

/-- A formula that was stored is written as it was read, whatever was requested before and since. -/
theorem Alike.render_after_lower (hs : Alike limits stray same s p) {formula : Formula}
    (h : (s.step (.lower formula)).1.error? = none) (later : List Request) :
    (((s.step (.lower formula)).2.after later).step (.render s.issued.length)).1 =
      .text (.ok (String.ofList formula.written)) := by
  obtain ⟨hplain, more, same', hstored⟩ : (p.step (.lower formula)).1.error? = none ∧
      ∃ more same', Alike limits more same' (s.step (.lower formula)).2
        (p.step (.lower formula)).2 := by
    cases served_lower formula hs with
    | done hanswer herror halike => exact ⟨hanswer ▸ herror, _, _, halike⟩
    | failed _ e herror =>
      rw [h] at herror
      cases herror
    | endless _ _ e herror =>
      rw [h] at herror
      cases herror
  obtain ⟨constant?, hissued⟩ := Plain.Session.exists_issued_of_lower hplain
  -- the number is that of the term, from then on
  have hlength : s.issued.length = p.issued.length := by
    have hread := congrArg List.length hs.map_read_issued
    rwa [List.length_map, List.length_map] at hread
  have hnumber : ((p.step (.lower formula)).2.after later).issued[s.issued.length]? =
      some (formula.term constant?) := by
    obtain ⟨rest, hrest⟩ :=
      Plain.Session.issued_prefix_after (p.step (.lower formula)).2 later
    rw [← hrest, hissued, hlength]
    simp
  have hrender : (((p.step (.lower formula)).2.after later).step (.render s.issued.length)).1 =
      .text (.ok (String.ofList formula.written)) := by
    rw [Plain.Session.answer_render hnumber, formula.render_term constant?]
  obtain ⟨_, _, hlater, -⟩ := alike_after later hstored
  have hrenderEnd : (((p.step (.lower formula)).2.after later).step
      (.render s.issued.length)).1.error? ≠ some Plain.Error.endless.fatal := by
    rw [hrender]
    nofun
  exact (hlater.answer_eq hrenderEnd).1.trans hrender

/-- A formula that was stored has the text that is written for it, in each later state of any
session and whatever was defined when it was stored. Well-bracketed formulas with the same text,
also of different sessions, are the same up to the spelling of their names. -/
theorem render_unambiguous (config other : Config) (requests others later afterwards : List Request)
    (formula twin : Formula)
    (h : (((ofConfig config).after requests).step (.lower formula)).1.error? = none)
    (htwin : (((ofConfig other).after others).step (.lower twin)).1.error? = none) :
    let s := (ofConfig config).after requests
    let t := (ofConfig other).after others
    let answer := (((s.step (.lower formula)).2.after later).step (.render s.issued.length)).1
    let twinAnswer := (((t.step (.lower twin)).2.after afterwards).step (.render t.issued.length)).1
    answer = .text (.ok (String.ofList formula.written)) ∧
      twinAnswer = .text (.ok (String.ofList twin.written)) ∧
      (formula.isWellBracketed = true → twin.isWellBracketed = true → answer = twinAnswer →
        formula.normalized = twin.normalized) := by
  intro s t answer twinAnswer
  obtain ⟨_, _, hs, -⟩ := alike_after requests (alike_ofConfig config)
  obtain ⟨_, _, ht, -⟩ := alike_after others (alike_ofConfig other)
  have hanswer := hs.render_after_lower h later
  have htwinAnswer := ht.render_after_lower htwin afterwards
  refine ⟨hanswer, htwinAnswer, fun hwell hwell' heq => ?_⟩
  refine Formula.normalized_eq_of_written_eq hwell hwell' ?_
  have htext : Answer.text (.ok (String.ofList formula.written)) =
      .text (.ok (String.ofList twin.written)) := hanswer.symm.trans (heq.trans htwinAnswer)
  simpa using congrArg String.toList (Except.ok.inj (Answer.text.inj htext))

/-- A name is a constant in one session and stands for nothing in the other, and is spelled in two
ways. -/
theorem render_unambiguous_of_spellings :
    let pos := Position.unread
    let requests : List Request := [.defineConstant "A" (.number 1.0) pos]
    let later : List Request := [.defineConstant "A" (.text "x") pos, .lower (.number 2.0)]
    let operand : Formula :=
      .parens (.signed .minus (.call .sqrt (.binary .max (.lengthOf "q1") (.number 0.5))))
    let formula : Formula := .binary .sub (.name " a") operand
    let twin : Formula := .binary .sub (.name "A") operand
    let s := (ofConfig {}).after requests
    let t := (ofConfig {}).after []
    let answer := (((s.step (.lower formula)).2.after later).step (.render s.issued.length)).1
    let twinAnswer := (((t.step (.lower twin)).2.after []).step (.render t.issued.length)).1
    (answer = .text (.ok "A-(-SQRT(MAX(Q1[L],0.5)))") ∧
        twinAnswer = .text (.ok "A-(-SQRT(MAX(Q1[L],0.5)))")) ∧
      formula.normalized = twin.normalized := by
  intro pos requests later operand formula twin s t answer twinAnswer
  have hdone : (s.step (.lower formula)).1.error?.isNone = true := by decide +kernel
  have htwinDone : (t.step (.lower twin)).1.error?.isNone = true := by decide +kernel
  have htext : String.ofList formula.written = "A-(-SQRT(MAX(Q1[L],0.5)))" := by decide +kernel
  have htwinText : String.ofList twin.written = "A-(-SQRT(MAX(Q1[L],0.5)))" := by decide +kernel
  obtain ⟨hanswer, htwinAnswer, hunambiguous⟩ :=
    render_unambiguous {} {} requests [] later [] formula twin (Option.isNone_iff_eq_none.1 hdone)
      (Option.isNone_iff_eq_none.1 htwinDone)
  rw [htext] at hanswer
  rw [htwinText] at htwinAnswer
  exact ⟨⟨hanswer, htwinAnswer⟩, hunambiguous (by decide +kernel) (by decide +kernel)
    (hanswer.trans htwinAnswer.symm)⟩

end Session

end Beamline
