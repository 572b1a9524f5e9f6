import Beamline.Proofs.Plain.Levels

/-!
# What an evaluation looks up

The names under which an evaluation looks for variables, in the terms that it comes to: not those
in the right operand of an operator whose left operand is no number, and none once the evaluation
was cut short. An evaluation that does not look up a name does the same whatever the variable of
that name is, and whether there is one; also if it is cut short.

* `EvaluationScope.lookups`: the names that are looked up.
* `EvaluationScope.mirrors_visit_sameBut`: the variables that are not looked up do not matter.
-/

namespace Beamline.Plain

open Source (Position)
open Diagnostic (Condition)
open Beamline.Expr (Term)

namespace EvaluationScope

/-- The names that the evaluation of a term looks up. `visit` evaluates what the term needs, and
`below` tells the names that are looked up there. -/
def nodeLookups (scope : EvaluationScope) (visit : Term → Step Value)
    (below : Term → Progress → List Name) (p : Progress) : Term → List Name
  | .number _ | .text _ | .numberConstant _ | .textConstant _ => []
  | .variable name =>
    name :: match scope.expr? name with
      | some t => below t p
      | none => []
  | .lengthOf name =>
    match scope.length? name with
    | some (some t) => below t p
    | _ => []
  | .parens inner => below inner p
  | .signed _ operand => below operand p
  | .binary _ left right =>
    -- the right operand is looked at only if the left one is a number
    below left p ++ match (scope.number visit left).run p with
      | (.ok _, q) => below right q
      | (.error _, _) => []
  | .call _ argument => below argument p

/-- The names that the evaluation of a term looks up when `levels` levels are left. -/
def lookups (scope : EvaluationScope) : (levels : Nat) → Term → Progress → List Name
  | 0, _, _ => []
  | levels + 1, t, p =>
    if p.tripped then []
    else scope.nodeLookups (scope.visit levels) (lookups scope levels) p t

/-- Both scopes look up the same, except for the variable of one name. -/
structure SameBut (name : Name) (scope other : EvaluationScope) : Prop where
  /-- The constants are the same. -/
  constant? : scope.constant? = other.constant?
  /-- All other variables are the same. -/
  expr? : ∀ n, n ≠ name → scope.expr? n = other.expr? n
  /-- The lengths are the same. -/
  length? : scope.length? = other.length?
  /-- The position is the same. -/
  pos : scope.pos = other.pos
  /-- The limit is the same. -/
  limit : scope.limit = other.limit

theorem SameBut.refl (name : Name) (scope : EvaluationScope) : scope.SameBut name scope :=
  ⟨rfl, fun _ _ => rfl, rfl, rfl, rfl⟩

/-- Both evaluations were cut short or neither was. -/
def SameTripped (p q : Progress) : Prop :=
  p.tripped = q.tripped

/-- Both evaluations came to the same result. -/
def SameResult {α : Type} (x y : α) (p q : Progress) : Prop :=
  x = y ∧ SameTripped p q

/-- Both evaluations ended in the same error. -/
def SameError (e d : Error) (p q : Progress) : Prop :=
  e = d ∧ SameTripped p q

/-- Both evaluations start alike, and the first does not look up the name. -/
def Avoids (name : Name) (lookups : Progress → List Name) (p q : Progress) : Prop :=
  SameTripped p q ∧ name ∉ lookups p

/-! ## Variables that are not looked up -/

variable {scope other : EvaluationScope} {name : Name}

theorem mirrors_return {α : Type} (x : α) :
    Mirrors SameTripped (pure x : Step α) (pure x) SameResult SameError :=
  Mirrors.of_pure fun _ _ h => ⟨rfl, h⟩

theorem mirrors_raise (condition : Condition) :
    Mirrors SameTripped (scope.raise condition) (other.raise condition)
      (fun _ _ => SameTripped) SameError :=
  Mirrors.of_modify fun _ _ h => h

section SameBut

variable (hsame : scope.SameBut name other)
include hsame

theorem mirrors_textInArithmetic {α : Type} (symbol : String) :
    Mirrors SameTripped (throw (.textInArithmetic symbol scope.pos) : Step α)
      (throw (.textInArithmetic symbol other.pos)) SameResult SameError :=
  Mirrors.of_throw fun _ _ h => ⟨congrArg _ hsame.pos, h⟩

theorem mirrors_constant (constant : Name) :
    Mirrors SameTripped (scope.constant constant) (other.constant constant) SameResult
      SameError := by
  unfold EvaluationScope.constant
  rw [hsame.constant?]
  cases other.constant? constant with
  | some value => exact mirrors_return value
  | none => exact (mirrors_raise _).bind fun _ _ => mirrors_return Value.zero

theorem mirrors_number {P : Progress → Progress → Prop} {v w : Term → Step Value} {t : Term}
    (h : Mirrors P (v t) (w t) SameResult SameError) :
    Mirrors P (scope.number v t) (other.number w t) SameResult SameError := by
  refine h.bind_eq fun x => ?_
  cases x with
  | number x => exact mirrors_return x
  | text content => exact mirrors_textInArithmetic hsame _

/-- A term comes to the same if the terms that it needs do, and the name is not looked up. -/
theorem mirrors_node {v w : Term → Step Value} {below : Term → Progress → List Name}
    (h : ∀ t, Mirrors (Avoids name (below t)) (v t) (w t) SameResult SameError) (t : Term) :
    Mirrors (Avoids name fun p => scope.nodeLookups v below p t) (scope.node v t) (other.node w t)
      SameResult SameError := by
  cases t with
  | number x => exact (mirrors_return (Value.number x)).imp_before fun _ _ => And.left
  | text content => exact (mirrors_return (Value.text content)).imp_before fun _ _ => And.left
  | numberConstant constant =>
    have hconstant : Mirrors SameTripped (scope.node v (.numberConstant constant))
        (other.node w (.numberConstant constant)) SameResult SameError := by
      refine (mirrors_constant hsame constant).bind_eq fun x => ?_
      cases x with
      | number x => exact mirrors_return (Value.number x)
      | text content => exact mirrors_textInArithmetic hsame constant.text
    exact hconstant.imp_before fun _ _ => And.left
  | textConstant constant => exact (mirrors_constant hsame constant).imp_before fun _ _ => And.left
  | «variable» n =>
    rintro p q ⟨htripped, hnot⟩
    -- the variable is another one, which both scopes look up alike
    dsimp only [nodeLookups] at hnot
    obtain ⟨hne, hbelow⟩ := not_or.1 (List.mem_cons.not.1 hnot)
    have hexpr := hsame.expr? n (Ne.symm hne)
    rw [node, node, ← hexpr]
    cases ht : scope.expr? n with
    | none => exact (mirrors_raise _).bind (fun _ _ => mirrors_return Value.zero) p q htripped
    | some t =>
      rw [ht] at hbelow
      exact h t p q ⟨htripped, hbelow⟩
  | lengthOf n =>
    rintro p q ⟨htripped, hnot⟩
    dsimp only [nodeLookups] at hnot
    rw [node, node, ← hsame.length?]
    cases ht : scope.length? n with
    | none => exact (mirrors_raise _).bind (fun _ _ => mirrors_return Value.zero) p q htripped
    | some length =>
      cases length with
      | none => exact mirrors_return Value.zero p q htripped
      | some t =>
        rw [ht] at hnot
        exact h t p q ⟨htripped, hnot⟩
  | parens inner => exact h inner
  | signed sign operand =>
    exact (mirrors_number hsame (h operand)).bind_eq fun _ => mirrors_return _
  | binary op left right =>
    have hleft : Mirrors (Avoids name fun p => scope.nodeLookups v below p (.binary op left right))
        (scope.number v left) (other.number w left) SameResult SameError :=
      (mirrors_number hsame (h left)).imp_before fun _ _ hp =>
        ⟨hp.1, fun hmem => hp.2 (List.mem_append_left _ hmem)⟩
    -- if the left operand is a number, the right one is looked at from where that has ended
    have hright := hleft.and_run (R := fun _ p => name ∉ below right p) fun p q hp x p' hrun => by
      have hnot := hp.2
      dsimp only [nodeLookups] at hnot
      rw [hrun] at hnot
      exact fun hmem => hnot (List.mem_append_right _ hmem)
    refine hright.bind fun x y => ?_
    rintro p q ⟨⟨rfl, htripped⟩, hnot⟩
    exact ((mirrors_number hsame (h right)).bind_eq fun _ => mirrors_return _) p q ⟨htripped, hnot⟩
  | call f argument =>
    exact (mirrors_number hsame (h argument)).bind_eq fun _ => mirrors_return _

theorem mirrors_exhausted :
    Mirrors SameTripped scope.exhausted other.exhausted SameResult SameError := by
  intro p q h
  cases htripped : p.tripped with
  | true =>
    rw [scope.run_exhausted_of_tripped htripped,
      other.run_exhausted_of_tripped (h.symm.trans htripped)]
    exact .inl ⟨_, _, _, _, rfl, rfl, rfl, h⟩
  | false =>
    have htripped' := h.symm.trans htripped
    by_cases hlimit : scope.limit = 0
    · rw [scope.run_exhausted_of_unlimited htripped hlimit,
        other.run_exhausted_of_unlimited htripped' (hsame.limit.symm.trans hlimit)]
      exact .inr ⟨_, _, _, _, rfl, rfl, rfl, h⟩
    · rw [scope.run_exhausted_of_limited htripped hlimit,
        other.run_exhausted_of_limited htripped' (hsame.limit ▸ hlimit)]
      exact .inl ⟨_, _, _, _, rfl, rfl, rfl, rfl⟩

/-- An evaluation that does not look up the name comes to the same result or error, and is cut
short or not, whatever the variable of that name is. -/
theorem mirrors_visit_sameBut (levels : Nat) (t : Term) :
    Mirrors (Avoids name (scope.lookups levels t)) (scope.visit levels t) (other.visit levels t)
      SameResult SameError := by
  -- by induction on the levels, as both evaluations hand one less to what a term needs
  induction levels generalizing t with
  | zero => exact (mirrors_exhausted hsame).imp_before fun _ _ => And.left
  | succ levels ih =>
    rintro p q ⟨htripped, hnot⟩
    rw [visit, visit]
    cases hp : p.tripped with
    | true =>
      rw [run_unlessTripped_of_tripped _ hp,
        run_unlessTripped_of_tripped _ (htripped.symm.trans hp)]
      exact .inl ⟨_, _, _, _, rfl, rfl, rfl, htripped⟩
    | false =>
      rw [run_unlessTripped_of_not_tripped _ hp,
        run_unlessTripped_of_not_tripped _ (htripped.symm.trans hp)]
      rw [lookups, if_neg (by rw [hp]; decide)] at hnot
      exact mirrors_node hsame ih t p q ⟨htripped, hnot⟩

end SameBut

end EvaluationScope

/-! ## Decks -/

namespace Deck

/-- The names of the variables that the evaluation of a term looks up. -/
def lookups (deck : Deck Term) (t : Term) : List Name :=
  deck.scope.lookups (deck.levels t) t ⟨false, #[]⟩

/-- The outcome of an evaluation does not depend on a variable that it does not look up, nor on what
was raised before. -/
theorem run_evaluate_of_not_mem_lookups {deck other : Deck Term} {name : Name} {t : Term}
    (hsame : deck.scope.SameBut name other.scope) (hlevels : deck.levels t = other.levels t)
    (h : name ∉ deck.lookups t) (raised raised' : Array Diagnostic) :
    ((evaluate t).run ⟨deck, raised⟩).1 = ((evaluate t).run ⟨other, raised'⟩).1 := by
  have houtcome {scope : EvaluationScope} (hscope : deck.scope.SameBut name scope)
      (raised : Array Diagnostic) :
      ((deck.scope.visit (deck.levels t) t).run ⟨false, #[]⟩).1 =
        ((scope.visit (deck.levels t) t).run ⟨false, raised⟩).1 := by
    rcases EvaluationScope.mirrors_visit_sameBut hscope (deck.levels t) t ⟨false, #[]⟩
        ⟨false, raised⟩ ⟨rfl, h⟩ with
      ⟨x, y, p, q, ha, hb, rfl, -⟩ | ⟨e, d, p, q, ha, hb, rfl, -⟩
    · rw [ha, hb]
    · rw [ha, hb]
  rw [run_evaluate, run_evaluate]
  dsimp only
  rw [← houtcome (.refl name _) raised, houtcome hsame raised', hlevels]

end Deck

end Beamline.Plain
