import Beamline.Proofs.Portrait.Meaning
import Beamline.Proofs.Portrait.Reading
import Beamline.Proofs.Session.Lockstep

/-!
# Storing and evaluating is interpreting

To store a formula and then to evaluate it is to read the formula as it stands: two passes, of
which the first looks for texts among the operands of operators and the second for everything else,
come to the value that the direct interpretation has, and to an error where it has none.

* `Session.lowerEvaluate_iff_denotes`: both passes together, in every session.
-/

namespace Beamline

open Source (Position)
open Beamline.Expr (Formula NodeId Term Tree)

namespace Interpreter

/-- Stores a formula and evaluates what was stored. -/
def lowerEvaluate (formula : Formula) : Action Value := do
  evaluate (← lower formula)

/-- The evaluation of a formula does not come to the limit on the depth. Where there is no limit,
nothing that the formula refers to leads back to itself. -/
def StaysWithin (it : Interpreter) (scope : Plain.EvaluationScope) (formula : Formula) : Prop :=
  if it.deck.limits.evalDepth = 0 then ∀ t ∈ scope.references formula, scope.Grounded t
  else ∀ id it', (lower formula).run it = (.ok id, it') → ¬it'.deck.ReachesLimit id

variable {it : Interpreter} {formula : Formula}

theorem exists_run_lower {outcome : Except FatalError NodeId} {w : Deck.Work}
    (h : (Deck.lower formula).run ⟨it.deck, #[]⟩ = (outcome, w)) :
    ∃ it', (lower formula).run it = (outcome, it') ∧ it'.deck = w.deck := by
  rw [lower_eq_perform, run_perform, h]
  exact ⟨_, rfl, rfl⟩

theorem run_lowerEvaluate {id : NodeId} {it' : Interpreter}
    (h : (lower formula).run it = (.ok id, it')) :
    ((lowerEvaluate formula).run it).1 = ((Deck.evaluate id).run ⟨it'.deck, #[]⟩).1 := by
  rw [lowerEvaluate, run_bind_of_ok h, evaluate_eq_perform, run_perform]

section Depicts

variable {limits : Limits} {g : Plain.Deck Tree} {held : List Tree} {stray : Nat}
  (hd : it.deck.Depicts limits g held stray)
include hd

/-- A formula that is stored, and whose evaluation does not come to the limit, has one meaning, to
which it is evaluated. -/
theorem exists_denotes_of_stored (hstays : it.StaysWithin (g.map Tree.term).scope formula)
    {t : Tree} {w : Deck.Work} {g' : Plain.Deck Tree}
    (hrun : (Deck.lower formula).run ⟨it.deck, #[]⟩ = (.ok t.root, w))
    (hd' : w.deck.Depicts limits g' (t :: held) stray) (hmap : g'.map Tree.term = g.map Tree.term)
    (hmeans : ∀ o, (g.map Tree.term).scope.Means t.term o ↔
      (g.map Tree.term).scope.Denotes formula o) :
    ∃ o, (∀ o', (g.map Tree.term).scope.Denotes formula o' ↔ o' = o) ∧
      CameTo ((lowerEvaluate formula).run it).1 o := by
  obtain ⟨it', hlower, hdeck⟩ := exists_run_lower hrun
  have ht : t ∈ g'.symbols.exprs ++ t :: held := List.mem_append_right _ List.mem_cons_self
  have hlimit : (g.map Tree.term).limits.evalDepth = it.deck.limits.evalDepth :=
    congrArg Limits.evalDepth (hd.plain_limits_eq.trans hd.limits_eq.symm)
  -- both ways of staying within the limit come to an evaluation that does not give up
  have hgivesUp : ¬(g'.map Tree.term).GivesUp t.term := by
    unfold StaysWithin at hstays
    split at hstays
    · rename_i hzero
      obtain ⟨o, hdenotes⟩ := Plain.Deck.exists_denotes_of_grounded hstays
      rw [hmap]
      exact Plain.Deck.not_givesUp_of_means (hlimit.trans hzero) ((hmeans o).2 hdenotes)
    · rename_i hne
      refine hd'.not_givesUp_of_not_reachesLimit ht ?_ ?_
      · rwa [← hd.limits_eq]
      · rw [← hdeck]
        exact hstays _ _ hlower
  obtain ⟨o, ho, heval⟩ := hd'.exists_means_of_evaluate ht hgivesUp
  rw [hmap] at ho
  refine ⟨o, fun o' => ?_, ?_⟩
  · rw [← hmeans o']
    exact ⟨fun h => h.unique ho, fun h => h ▸ ho⟩
  · rw [run_lowerEvaluate hlower, hdeck]
    exact heval

end Depicts

end Interpreter

namespace Session

open Interpreter

/-- Storing a formula blames the first text that stands where a number is needed, and succeeds if
there is none. Unless the evaluation comes to the limit on the depth, to evaluate what was stored
gives the value of the direct interpretation, and fails where that has none. -/
theorem lowerEvaluate_iff_denotes (config : Config) (requests : List Request)
    (formula : Formula) :
    let it := ((ofConfig config).after requests).interpreter
    ∃ symbols : Plain.Symbols Term, it.deck.reading = symbols.map Except.ok ∧
      let scope := symbols.evaluationScope it.deck.pos it.deck.limits.evalDepth
      let texts := formula.textOperands scope.constant? false
      (texts = [] → ∃ id it', (lower formula).run it = (.ok id, it')) ∧
        (∀ symbol rest, texts = symbol :: rest →
          ∃ it', (lower formula).run it = (.error (.textInArithmetic symbol it.deck.pos), it')) ∧
        (it.StaysWithin scope formula →
          (∀ v, ((lowerEvaluate formula).run it).1 = .ok v ↔ scope.Denotes formula (some v)) ∧
            (texts = [] →
              ((∃ e, ((lowerEvaluate formula).run it).1 = .error e) ↔
                scope.Denotes formula none))) := by
  intro it
  obtain ⟨stray, same, ⟨trees, ⟨⟨g, hd, -⟩, -⟩, -⟩, -⟩ :=
    alike_after requests (alike_ofConfig config)
  let plain := g.map Tree.term
  have hscope : plain.symbols.evaluationScope it.deck.pos it.deck.limits.evalDepth =
      plain.scope := by
    rw [show it.deck.pos = plain.pos from hd.pos,
      show it.deck.limits = plain.limits from hd.limits_eq.trans hd.plain_limits_eq.symm]
    rfl
  refine ⟨plain.symbols, hd.reading_eq, ?_⟩
  rw [hscope]
  intro scope texts
  -- the formula is stored, or it is refused for the first of its texts
  rcases hd.lower_cases formula with
    ⟨hnil, t, w, hrun, ⟨g', hd', hmap⟩, hmeans⟩ | ⟨symbol, rest, w, hcons, hrun⟩
  · obtain ⟨it', hlower, -⟩ := exists_run_lower hrun
    refine ⟨fun _ => ⟨t.root, it', hlower⟩, ?_, fun hstays => ?_⟩
    · intro symbol rest hcons
      cases hnil.symm.trans hcons
    · obtain ⟨o, ho, heval⟩ := exists_denotes_of_stored hd hstays hrun hd' hmap hmeans
      refine ⟨fun v => ?_, fun _ => ?_⟩
      · rw [ho, heval.eq_ok_iff, eq_comm]
      · rw [ho, heval.exists_eq_error_iff, eq_comm]
  · obtain ⟨it', hlower, -⟩ := exists_run_lower hrun
    refine ⟨fun hnil => ?_, ?_, fun _ => ⟨fun v => ?_, fun hnil => ?_⟩⟩
    · cases hnil.symm.trans hcons
    · intro other others hother
      obtain ⟨rfl, -⟩ := List.cons.inj (hcons.symm.trans hother)
      exact ⟨it', hlower⟩
    · -- a formula with a value has no text among its operands
      rw [lowerEvaluate, run_bind_of_error hlower]
      refine ⟨nofun, fun hdenotes => ?_⟩
      have hnil := @Plain.EvaluationScope.Denotes.textOperands_eq_nil _ _ _ hdenotes false nofun
      cases hnil.symm.trans hcons
    · cases hnil.symm.trans hcons

/-- A sign before a variable whose definition came before that of the variable it names, with a
limit that is not reached, and a sum without a limit. -/
theorem lowerEvaluate_iff_denotes_of_forward_reference :
    let requests : List Request :=
      [.defineVariable "A" (.parens (.name "B")) .deferred Position.unread,
        .defineVariable "B" (.number 2.0) .deferred Position.unread]
    let it := ((ofConfig {}).after requests).interpreter
    let unlimited := (ofConfig { limits := { evalDepth := 0 } }).interpreter
    (∃ symbols : Plain.Symbols Term, it.deck.reading = symbols.map Except.ok ∧
        (symbols.evaluationScope it.deck.pos it.deck.limits.evalDepth).Denotes
          (.signed .minus (.name "a")) (some (.number (-2.0)))) ∧
      ∃ symbols : Plain.Symbols Term, unlimited.deck.reading = symbols.map Except.ok ∧
        (symbols.evaluationScope unlimited.deck.pos unlimited.deck.limits.evalDepth).Denotes
          (.binary .add (.number 1.0) (.number 2.0)) (some (.number (1.0 + 2.0))) := by
  intro requests it unlimited
  obtain ⟨symbols, hreading, -, -, h⟩ :=
    lowerEvaluate_iff_denotes {} requests (.signed .minus (.name "a"))
  obtain ⟨symbols', hreading', -, -, h'⟩ :=
    lowerEvaluate_iff_denotes { limits := { evalDepth := 0 } } []
      (.binary .add (.number 1.0) (.number 2.0))
  -- the run raises nothing at all, so that no warning can be about the depth
  have hstays : it.StaysWithin (symbols.evaluationScope it.deck.pos it.deck.limits.evalDepth)
      (.signed .minus (.name "a")) := by
    rintro id it' hrun ⟨d, hd, -⟩
    cases hrun
    exact Array.not_mem_empty d hd
  refine ⟨⟨symbols, hreading, ((h hstays).1 _).1 rfl⟩, symbols', hreading', ?_⟩
  exact ((h' nofun).1 _).1 rfl

end Session

end Beamline
