import Beamline.Proofs.Plain.Levels

/-!
# Limits that leave more room

An evaluation that does not come to the limit on the depth does the same under a limit that leaves
more room, or under none. Under none it is left as many levels as there are terms to come to, which
can be fewer than the limit was; they are enough all the same, as an evaluation that comes to its
end with any number of levels does so with these.

* `Plain.Deck.run_evaluate_relimit`: the evaluation of a term.
-/

namespace Beamline

/-- A limit leaves as much room as another or more. Zero is no limit. -/
def Limits.Allows (limit more : Nat) : Prop :=
  more = 0 ∨ (limit ≠ 0 ∧ limit ≤ more)

/-- Other limits leave as much room or more. -/
structure Limits.Within (limits more : Limits) : Prop where
  /-- The depth of an evaluation. -/
  evalDepth : Allows limits.evalDepth more.evalDepth
  /-- The entries of a repetition. -/
  lineEntries : Allows limits.lineEntries more.lineEntries

theorem Limits.Allows.eq_zero {limit more : Nat} (h : Allows limit more) (hlimit : limit = 0) :
    more = 0 :=
  h.elim id fun hne => absurd hlimit hne.1

namespace Plain

open Beamline.Expr (Term)

namespace EvaluationScope

variable {scope : EvaluationScope}

/-- Two evaluations without a limit that both come to an end are the same. -/
theorem Finishes.run_eq {levels more : Nat} {t : Term} (h : scope.Finishes levels t)
    (hmore : scope.Finishes more t) {p : Progress} (hp : p.tripped = false) :
    (scope.visit levels t).run p = (scope.visit more t).run p := by
  -- both do what is done with the larger number of levels
  have hle := (visit_below (Nat.le_max_left levels more) scope.limit t).run_eq p hp (h p hp)
  have hle' := (visit_below (Nat.le_max_right levels more) scope.limit t).run_eq p hp (hmore p hp)
  exact hle.symm.trans hle'

end EvaluationScope

namespace Deck

/-- The deck with other limits. -/
def relimit {ε : Type} (more : Limits) (deck : Deck ε) : Deck ε :=
  { deck with limits := more }

variable {deck : Deck Term} {more : Limits}

/-- An evaluation that does not give up does the same with limits that leave more room. -/
theorem run_visit_relimit (hdepth : Limits.Allows deck.limits.evalDepth more.evalDepth)
    (hlimit : deck.limits.evalDepth ≠ 0) {t : Term} {p : Progress} (hp : p.tripped = false)
    (h : EvaluationScope.Complete ((deck.scope.visit (deck.levels t) t).run p)) :
    ((deck.relimit more).scope.visit ((deck.relimit more).levels t) t).run p =
      (deck.scope.visit (deck.levels t) t).run p := by
  have hlevels : deck.levels t = deck.limits.evalDepth := if_neg hlimit
  rw [hlevels] at h ⊢
  -- the other scope differs in the limit only
  have hsame (levels : Nat) (hle : deck.limits.evalDepth ≤ levels) :
      ((deck.relimit more).scope.visit levels t).run p =
        (deck.scope.visit deck.limits.evalDepth t).run p :=
    (EvaluationScope.visit_below hle more.evalDepth t).run_eq p hp h
  rcases hdepth with hzero | ⟨-, hle⟩
  · have hends : (deck.relimit more).scope.Finishes deck.limits.evalDepth t := by
      refine EvaluationScope.finishes_of_complete hp ?_
      rw [hsame _ (Nat.le_refl _)]
      exact h
    have hmem : t ∈ (deck.relimit more).pool [t] :=
      mem_pool (List.mem_append_right _ List.mem_cons_self)
    have hpool : ((deck.relimit more).pool [t]).length = (deck.relimit more).levels t := by
      rw [length_pool, List.map_singleton, List.sum_singleton]
      exact (if_pos hzero).symm
    have hall := hends.of_closed ((deck.relimit more).closed_pool [t]) hmem
    rw [hpool] at hall
    rw [hall.run_eq hends hp]
    exact hsame _ (Nat.le_refl _)
  · have hmore : more.evalDepth ≠ 0 := by omega
    rw [show (deck.relimit more).levels t = more.evalDepth from if_neg hmore]
    exact hsame _ hle

/-- An evaluation that raises no warning about its depth does the same with limits that leave more
room. -/
theorem run_evaluate_relimit (hdepth : Limits.Allows deck.limits.evalDepth more.evalDepth)
    (hlimit : deck.limits.evalDepth ≠ 0) (t : Term) (raised : Array Diagnostic)
    (h : ∀ d ∈ ((evaluate t).run ⟨deck, raised⟩).2.raised, d.code ≠ .nestingTooDeep) :
    ((evaluate t).run ⟨deck.relimit more, raised⟩).1 = ((evaluate t).run ⟨deck, raised⟩).1 ∧
      ((evaluate t).run ⟨deck.relimit more, raised⟩).2.raised =
        ((evaluate t).run ⟨deck, raised⟩).2.raised := by
  rw [run_evaluate] at h
  have hcomplete := EvaluationScope.complete_of_not_warned hlimit rfl h
  rw [run_evaluate, run_evaluate]
  dsimp only
  rw [run_visit_relimit hdepth hlimit rfl hcomplete]
  exact ⟨rfl, rfl⟩

end Deck

end Plain

end Beamline
