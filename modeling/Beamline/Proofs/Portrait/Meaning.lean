import Beamline.Proofs.Plain.Interpretation
import Beamline.Proofs.Portrait.Actions

/-!
# What decks make of formulas

A deck that stands for a plain deck stores a formula as a tree that means what the formula means,
and evaluates a tree to its meaning unless the evaluation gives up.

* `Deck.Depicts.lower_cases`: storing a formula.
* `Deck.Depicts.exists_means_of_evaluate`: evaluating a stored expression.
-/

namespace Beamline

open Beamline.Expr (Formula NodeId Term Tree)

namespace Plain

/-- The evaluation of the term comes to the limit on the depth, or to no end where there is none. -/
def Deck.GivesUp (deck : Deck Term) (t : Term) : Prop :=
  ¬EvaluationScope.Complete ((deck.scope.visit (deck.levels t) t).run ⟨false, #[]⟩)

/-- Without a limit, a term with a meaning is evaluated without giving up. -/
theorem Deck.not_givesUp_of_means {deck : Deck Term} (hlimit : deck.limits.evalDepth = 0)
    {t : Term} {o : Option Value} (h : deck.scope.Means t o) : ¬deck.GivesUp t :=
  fun hgivesUp => hgivesUp (finishes_of_means hlimit h _ rfl)

/-- What a formula refers to is held by the records. -/
theorem Deck.mem_exprs_of_references {deck : Deck Term} {formula : Formula} {t : Term}
    (h : t ∈ deck.scope.references formula) : t ∈ deck.symbols.exprs := by
  induction formula with
  | number | text => cases h
  | name raw =>
    unfold EvaluationScope.references at h
    cases hconstant : deck.scope.constant? (Name.ofText raw) with
    | some value =>
      rw [hconstant] at h
      cases h
    | none =>
      rw [hconstant] at h
      exact mem_exprs_of_expr? (Option.mem_toList.1 h)
  | lengthOf raw => exact mem_exprs_of_length? (Option.mem_toList.1 h)
  | parens _ ih | signed _ _ ih | call _ _ ih => exact ih h
  | binary _ _ _ ihl ihr => exact (List.mem_append.1 h).elim ihl ihr

/-- If nothing that a formula refers to leads back to itself, the formula has a meaning. -/
theorem Deck.exists_denotes_of_grounded {deck : Deck Term} {formula : Formula}
    (h : ∀ t ∈ deck.scope.references formula, deck.scope.Grounded t) :
    ∃ o, deck.scope.Denotes formula o := by
  refine EvaluationScope.exists_denotes fun t ht => ?_
  have hpool : t ∈ deck.pool [] := mem_pool (List.mem_append_left _ (mem_exprs_of_references ht))
  exact (h t ht).exists_means (deck.closed_pool []) hpool

end Plain

/-- The outcome is the given value, or an error if none is given. -/
def CameTo (outcome : Except FatalError Value) (o : Option Value) : Prop :=
  match o with
  | some v => outcome = .ok v
  | none => ∃ e, outcome = .error e

namespace CameTo

variable {outcome : Except FatalError Value} {o : Option Value} (h : CameTo outcome o)
include h

theorem eq_ok_iff (v : Value) : outcome = .ok v ↔ o = some v := by
  cases o with
  | some x =>
    obtain rfl : outcome = .ok x := h
    exact ⟨fun heq => congrArg some (Except.ok.inj heq),
      fun heq => congrArg Except.ok (Option.some.inj heq)⟩
  | none =>
    obtain ⟨e, rfl⟩ := h
    exact ⟨nofun, nofun⟩

theorem exists_eq_error_iff : (∃ e, outcome = .error e) ↔ o = none := by
  cases o with
  | some x =>
    obtain rfl : outcome = .ok x := h
    exact ⟨nofun, nofun⟩
  | none => exact ⟨fun _ => rfl, fun _ => h⟩

end CameTo

namespace Deck

/-- The evaluation of a stored expression comes to the limit on the depth. -/
def ReachesLimit (deck : Deck) (id : NodeId) : Prop :=
  ∃ d ∈ ((evaluate id).run ⟨deck, #[]⟩).2.raised, d.code = .nestingTooDeep

namespace Depicts

variable {deck : Deck} {limits : Limits} {g : Plain.Deck Tree} {held : List Tree} {stray : Nat}
  (hd : deck.Depicts limits g held stray)
include hd

/-- Storing a formula adds a tree that means what the formula means, and changes nothing else. It
fails exactly if there is a text among the operands, and blames the first. -/
theorem lower_cases (formula : Formula) :
    (formula.textOperands (g.map Tree.term).scope.constant? false = [] ∧
        ∃ t : Tree, ∃ w : Work, (lower formula).run ⟨deck, #[]⟩ = (.ok t.root, w) ∧
          (∃ g' : Plain.Deck Tree, w.deck.Depicts limits g' (t :: held) stray ∧
            g'.map Tree.term = g.map Tree.term) ∧
          ∀ o, (g.map Tree.term).scope.Means t.term o ↔
            (g.map Tree.term).scope.Denotes formula o) ∨
      ∃ symbol rest, ∃ w : Work,
        formula.textOperands (g.map Tree.term).scope.constant? false = symbol :: rest ∧
          (lower formula).run ⟨deck, #[]⟩ = (.error (.textInArithmetic symbol deck.pos), w) := by
  let plain := g.map Tree.term
  let lowering := plain.symbols.loweringScope plain.pos false
  have hlowers := lowering.lowers rfl formula false #[]
  have hplain : (Plain.Deck.lower formula).run ⟨plain, #[]⟩ =
      (((lowering.lower formula false).run #[]).1,
        ⟨plain, ((lowering.lower formula false).run #[]).2⟩) := by
    rw [Plain.Deck.lower, Plain.Deck.lowerWith, Plain.Deck.run_observe]
  -- the deck does what the plain deck does, and that is settled by the formula
  rcases mirrors_lowerWith false formula ⟨deck, #[]⟩ ⟨plain, #[]⟩ ⟨rfl, g, hd, rfl⟩ with
    ⟨id, term, w, q, ha, hb, t, rfl, rfl, -, g', hd', hmap⟩ | ⟨e, d, w, q, ha, hb, hfailed⟩
  · have hb := hplain.symm.trans hb
    have hterm := congrArg Prod.fst hb
    have hdeck : plain = q.deck := congrArg (fun run => run.2.deck) hb
    rcases hlowers with ⟨hnil, u, hu, hmeans⟩ | ⟨symbol, rest, -, herror⟩
    · obtain rfl : u = t.term := Except.ok.inj (hu.symm.trans hterm)
      exact .inl ⟨hnil, t, w, ha, ⟨g', hd', hmap.trans hdeck.symm⟩, hmeans plain.scope rfl⟩
    · cases herror.symm.trans hterm
  · have hterm := congrArg Prod.fst (hplain.symm.trans hb)
    rcases hlowers with ⟨-, u, hu, -⟩ | ⟨symbol, rest, hcons, herror⟩
    · cases hu.symm.trans hterm
    · obtain rfl : _ = d := Except.error.inj (herror.symm.trans hterm)
      refine .inr ⟨symbol, rest, w, hcons, ?_⟩
      rcases hfailed.2.1 with ⟨rfl, -⟩ | ⟨-, hend, -⟩
      · rw [hd.pos]
        exact ha
      · cases hend

/-- Evaluating a stored expression comes to the meaning of its term unless it gives up. -/
theorem exists_means_of_evaluate {t : Tree} (ht : t ∈ g.symbols.exprs ++ held)
    (h : ¬(g.map Tree.term).GivesUp t.term) :
    ∃ o, (g.map Tree.term).scope.Means t.term o ∧
      CameTo ((evaluate t.root).run ⟨deck, #[]⟩).1 o := by
  let plain := g.map Tree.term
  obtain ⟨o, hmeans, hgives⟩ :=
    Plain.EvaluationScope.exists_means_of_complete rfl (Classical.not_not.1 h)
  refine ⟨o, hmeans, ?_⟩
  have hplain : ((Plain.Deck.evaluate t.term).run ⟨plain, #[]⟩).1 =
      ((plain.scope.visit (plain.levels t.term) t.term).run ⟨false, #[]⟩).1 :=
    congrArg Prod.fst (Plain.Deck.run_evaluate t.term ⟨plain, #[]⟩)
  generalize (plain.scope.visit (plain.levels t.term) t.term).run ⟨false, #[]⟩ = run
    at hgives hplain
  rcases mirrors_evaluate t ⟨deck, #[]⟩ ⟨plain, #[]⟩ ⟨rfl, g, hd, rfl, ht⟩ with
    ⟨x, y, w, q, ha, hb, rfl, -⟩ | ⟨e, d, w, q, ha, hb, -⟩
  · rw [hb] at hplain
    rw [ha]
    cases hgives with
    | result v _ => exact congrArg Except.ok (Except.ok.inj hplain)
    | refusal => cases hplain
  · rw [hb] at hplain
    rw [ha]
    cases hgives with
    | result => cases hplain
    | refusal => exact ⟨e, rfl⟩

/-- With a limit, an evaluation that does not come to it does not give up. -/
theorem not_givesUp_of_not_reachesLimit {t : Tree} (ht : t ∈ g.symbols.exprs ++ held)
    (hlimit : limits.evalDepth ≠ 0) (h : ¬deck.ReachesLimit t.root) :
    ¬(g.map Tree.term).GivesUp t.term := by
  let plain := g.map Tree.term
  have hplain : ((Plain.Deck.evaluate t.term).run ⟨plain, #[]⟩).2.raised =
      ((plain.scope.visit (plain.levels t.term) t.term).run ⟨false, #[]⟩).2.raised :=
    congrArg (fun run => run.2.raised) (Plain.Deck.run_evaluate t.term ⟨plain, #[]⟩)
  -- both sides raise the same, as no evaluation is endless where there is a limit
  have hraised : ((evaluate t.root).run ⟨deck, #[]⟩).2.raised =
      ((Plain.Deck.evaluate t.term).run ⟨plain, #[]⟩).2.raised := by
    rcases mirrors_evaluate t ⟨deck, #[]⟩ ⟨plain, #[]⟩ ⟨rfl, g, hd, rfl, ht⟩ with
      ⟨x, y, w, q, ha, hb, -, hraised, -⟩ | ⟨e, d, w, q, ha, hb, -, herror, hraised⟩
    · rw [ha, hb]
      exact hraised
    · rw [ha, hb]
      refine hraised ?_
      rcases herror with ⟨-, hend⟩ | ⟨hzero, -⟩
      · exact hend
      · exact absurd hzero hlimit
  rw [ReachesLimit, hraised, hplain] at h
  have hscope : plain.scope.limit = limits.evalDepth :=
    congrArg Limits.evalDepth hd.plain_limits_eq
  refine Classical.not_not.2 (Plain.EvaluationScope.complete_of_not_warned ?_ rfl ?_)
  · rw [hscope]
    exact hlimit
  · exact fun d hmem hcode => h ⟨d, hmem, hcode⟩

end Depicts

end Deck

end Beamline
