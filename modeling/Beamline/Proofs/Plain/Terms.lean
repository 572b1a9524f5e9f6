import Beamline.Proofs.Plain.Lowered

/-!
# The terms of formulas

Which term a formula is lowered to hangs on the constants alone, and which warnings are raised on
the names that are known. Both can be said without following the steps of lowering, if these come
to a term at all.

* `LoweringScope.run_lower_of_ok`: the term and the warnings of a formula.
-/

namespace Beamline

open Diagnostic (Condition)
open Beamline.Expr (Formula Term)

/-- The term of a formula over the given constants: a name is told apart by the constant that has
it. -/
def Expr.Formula.term (constant? : Name → Option Value) : Formula → Term
  | .number x => .number x
  | .text content => .text content
  | .name raw =>
    match constant? (Name.ofText raw) with
    | some value =>
      if value.isText then .textConstant (Name.ofText raw) else .numberConstant (Name.ofText raw)
    | none => .variable (Name.ofText raw)
  | .lengthOf raw => .lengthOf (Name.ofText raw)
  | .parens inner => .parens (inner.term constant?)
  | .signed sign operand => .signed sign (operand.term constant?)
  | .binary op left right => .binary op (left.term constant?) (right.term constant?)
  | .call f argument => .call f (argument.term constant?)

namespace Plain.LoweringScope

variable {scope : LoweringScope}

/-- The warnings about one leaf of a formula: a name that is neither a constant nor a variable, or
the length of something that is no element. -/
def leafWarnings (scope : LoweringScope) : Formula → List Diagnostic
  | .name raw =>
    if (scope.constant? (Name.ofText raw)).isSome || scope.isVariable (Name.ofText raw) then []
    else [(Condition.variableUndefined (Name.ofText raw)).diagnostic scope.pos]
  | .lengthOf raw =>
    if scope.isElement (Name.ofText raw) then []
    else [(Condition.elementUndefined (Name.ofText raw)).diagnostic scope.pos]
  | _ => []

/-- The warnings about a formula, from left to right. -/
def warnings (scope : LoweringScope) (formula : Formula) : List Diagnostic :=
  formula.leaves.flatMap scope.leafWarnings

/-- The step comes to the term and raises the warnings, if it comes to a term. -/
def Comes (a : Step Term) (t : Term) (told : List Diagnostic) : Prop :=
  ∀ raised u raised', a.run raised = (.ok u, raised') →
    u = t ∧ raised'.toList = raised.toList ++ told

namespace Comes

variable {a b : Step Term} {t u : Term} {told more : List Diagnostic}

theorem of_pure (t : Term) : Comes (pure t) t [] := by
  intro raised u raised' h
  cases h
  exact ⟨rfl, (List.append_nil _).symm⟩

theorem of_throw (e : Error) (t : Term) (told : List Diagnostic) : Comes (throw e) t told := by
  intro raised u raised' h
  cases h

/-- A warning comes before the term, unless what is named is known. -/
theorem of_unless_report (known : Bool) (condition : Condition) (pos : Source.Position) (t : Term) :
    Comes
      (do
        unless known do
          report condition pos
        return t)
      t (if known then [] else [condition.diagnostic pos]) := by
  cases known with
  | true => exact of_pure t
  | false =>
    intro raised u raised' h
    cases h
    exact ⟨rfl, Array.toList_push⟩

theorem bind {f : Term → Step Term} (h : Comes a t told) (hf : Comes (f t) u more) :
    Comes (a >>= f) u (told ++ more) := by
  intro raised v raised' hrun
  obtain ⟨x, r, ha, hrest⟩ := exists_of_run_bind hrun
  obtain ⟨rfl, hr⟩ := h _ _ _ ha
  obtain ⟨hv, hr'⟩ := hf _ _ _ hrest
  exact ⟨hv, by rw [hr', hr, List.append_assoc]⟩

/-- The term is built from that of a part. -/
theorem map (h : Comes a t told) (build : Term → Term) :
    Comes (do return build (← a)) (build t) told := by
  rw [← List.append_nil told]
  exact h.bind (of_pure (build t))

end Comes

theorem comes_classify (hall : scope.constantsOnly = false) (raw : String) (arithmetic : Bool) :
    Comes (scope.classify (Name.ofText raw) arithmetic)
      ((Formula.name raw).term scope.constant?) (scope.leafWarnings (.name raw)) := by
  unfold classify Formula.term
  cases hvalue : scope.constant? (Name.ofText raw) with
  | some value =>
    -- a constant is known, and so there is no warning
    have htold : scope.leafWarnings (.name raw) = [] := by simp [leafWarnings, hvalue]
    rw [htold]
    cases value with
    | number x => exact .of_pure (.numberConstant _)
    | text content =>
      cases arithmetic with
      | true => exact .of_throw _ _ _
      | false => exact .of_pure (.textConstant _)
  | none =>
    rw [hall, leafWarnings, hvalue]
    exact .of_unless_report (scope.isVariable (Name.ofText raw)) _ _ _

/-- A formula that is lowered to a term is lowered to its term over the constants, and each leaf is
warned about on its own. -/
theorem comes_lower (hall : scope.constantsOnly = false) (formula : Formula) (arithmetic : Bool) :
    Comes (scope.lower formula arithmetic) (formula.term scope.constant?)
      (scope.warnings formula) := by
  unfold warnings
  induction formula generalizing arithmetic with
  | number x => exact .of_pure _
  | text content =>
    cases arithmetic with
    | true => exact .of_throw _ _ _
    | false => exact .of_pure _
  | name raw =>
    rw [Formula.leaves, List.flatMap_singleton]
    exact comes_classify hall raw arithmetic
  | lengthOf raw =>
    rw [Formula.leaves, List.flatMap_singleton]
    exact .of_unless_report _ _ _ _
  | parens inner ih => exact (ih arithmetic).map Term.parens
  | signed sign operand ih => exact (ih true).map (Term.signed sign)
  | binary op left right ihl ihr =>
    rw [Formula.leaves, List.flatMap_append]
    exact (ihl true).bind ((ihr true).map (Term.binary op _))
  | call f argument ih => exact (ih true).map (Term.call f)

end Plain.LoweringScope

end Beamline
