import Beamline.Proofs.Ensures
import Beamline.Proofs.Plain.Levels

/-!
# What holds of lowered terms

A property of terms that passes from operands to the terms made of them holds of every term that
lowering comes to if it holds of those of numbers, texts, names and lengths. What there can be of
these depends on the formula and on the constants.

* `LoweringScope.Admits.ensures_lower`: the one rule about all lowered terms.
-/

namespace Beamline

open Beamline.Expr (Formula Term)

/-- The numbers, texts, names and lengths that a formula is made of, left to right. -/
def Expr.Formula.leaves (formula : Formula) : List Formula :=
  match formula with
  | .number _ | .text _ | .name _ | .lengthOf _ => [formula]
  | .parens inner => inner.leaves
  | .signed _ operand => operand.leaves
  | .binary _ left right => left.leaves ++ right.leaves
  | .call _ argument => argument.leaves

namespace Plain.LoweringScope

/-- The term that a formula is lowered to has the property `Q`, of which the flag says that a number
is needed, and an error is one of `E`. -/
structure Admits (scope : LoweringScope) (formula : Formula) (Q : Bool → Term → Prop)
    (E : Error → Prop) : Prop where
  /-- Numbers; also those that stand for names in the definition of a constant. -/
  number : ∀ arithmetic x, Q arithmetic (.number x)
  /-- Texts. -/
  text : ∀ content, .text content ∈ formula.leaves → Q false (.text content)
  /-- Texts where a number is needed. -/
  refusedText : ∀ content, .text content ∈ formula.leaves →
    E (.textInArithmetic (Value.quote content) scope.pos)
  /-- Names of constants that are numbers. -/
  numberConstant : ∀ arithmetic name x, scope.constant? name = some (.number x) →
    Q arithmetic (.numberConstant name)
  /-- Names of constants that are texts. -/
  textConstant : ∀ name content, scope.constant? name = some (.text content) →
    Q false (.textConstant name)
  /-- Names of texts where a number is needed. -/
  refusedConstant : ∀ name content, scope.constant? name = some (.text content) →
    E (.textInArithmetic name.text scope.pos)
  /-- Other names. -/
  otherName : ∀ arithmetic name, scope.constantsOnly = false → scope.constant? name = none →
    Q arithmetic (.variable name)
  /-- Lengths. -/
  lengthOf : ∀ arithmetic raw, .lengthOf raw ∈ formula.leaves →
    Q arithmetic (.lengthOf (Name.ofText raw))
  /-- Parentheses pass on whether a number is needed. -/
  parens : ∀ arithmetic inner, Q arithmetic inner → Q arithmetic (.parens inner)
  /-- A sign needs a number. -/
  signed : ∀ arithmetic sign operand, Q true operand → Q arithmetic (.signed sign operand)
  /-- An operator needs two numbers. -/
  binary : ∀ arithmetic op left right, Q true left → Q true right →
    Q arithmetic (.binary op left right)
  /-- A function needs a number. -/
  call : ∀ arithmetic f argument, Q true argument → Q arithmetic (.call f argument)

namespace Admits

variable {scope : LoweringScope} {formula part : Formula} {Q : Bool → Term → Prop}
  {E : Error → Prop}

theorem mono (h : scope.Admits formula Q E) (hsub : part.leaves ⊆ formula.leaves) :
    scope.Admits part Q E :=
  { h with
    text := fun content hmem => h.text content (hsub hmem)
    refusedText := fun content hmem => h.refusedText content (hsub hmem)
    lengthOf := fun arithmetic raw hmem => h.lengthOf arithmetic raw (hsub hmem) }

theorem ensures_classify (h : scope.Admits formula Q E) (name : Name) (arithmetic : Bool) :
    Ensures (fun _ => True) (scope.classify name arithmetic) (fun t _ => Q arithmetic t)
      fun e _ => E e := by
  unfold classify
  cases hconstant : scope.constant? name with
  | some value =>
    cases value with
    | number x =>
      exact Ensures.of_pure fun _ _ => h.numberConstant arithmetic name x hconstant
    | text content =>
      cases arithmetic with
      | false => exact Ensures.of_pure fun _ _ => h.textConstant name content hconstant
      | true => exact Ensures.of_throw fun _ _ => h.refusedConstant name content hconstant
  | none =>
    -- a warning may come first, which decides nothing
    have hreport (condition : Diagnostic.Condition) {t : Term} (ht : Q arithmetic t) :
        Ensures (fun _ => True)
          (do
            report condition scope.pos
            return t)
          (fun t _ => Q arithmetic t) fun e _ => E e :=
      Ensures.bind (R := fun _ _ => True) (Ensures.of_modify fun _ _ => trivial)
        fun _ => Ensures.of_pure fun _ _ => ht
    cases honly : scope.constantsOnly with
    | true => exact hreport _ (h.number arithmetic 0.0)
    | false =>
      have hvariable : Q arithmetic (.variable name) :=
        h.otherName arithmetic name honly hconstant
      dsimp only
      rw [if_neg Bool.false_ne_true]
      cases scope.isVariable name with
      | true => exact Ensures.of_pure fun _ _ => hvariable
      | false => exact hreport _ hvariable

/-- What holds of the leaves and passes on holds of every term that lowering comes to. -/
theorem ensures_lower (h : scope.Admits formula Q E) (arithmetic : Bool) :
    Ensures (fun _ => True) (scope.lower formula arithmetic) (fun t _ => Q arithmetic t)
      fun e _ => E e := by
  induction formula generalizing arithmetic with
  | number x => exact Ensures.of_pure fun _ _ => h.number arithmetic x
  | text content =>
    have hmem : Formula.text content ∈ (Formula.text content).leaves := List.mem_singleton_self _
    cases arithmetic with
    | false => exact Ensures.of_pure fun _ _ => h.text content hmem
    | true =>
      -- nothing comes after the error
      exact Ensures.bind (R := fun _ _ => False)
        (Ensures.of_throw fun _ _ => h.refusedText content hmem)
        fun _ => Ensures.of_pure fun _ hnever => hnever.elim
  | name raw => exact h.ensures_classify (Name.ofText raw) arithmetic
  | lengthOf raw =>
    have hlength : Q arithmetic (.lengthOf (Name.ofText raw)) :=
      h.lengthOf arithmetic raw (List.mem_singleton_self _)
    rw [lower]
    cases scope.isElement (Name.ofText raw) with
    | true => exact Ensures.of_pure fun _ _ => hlength
    | false =>
      exact Ensures.bind (R := fun _ _ => True) (Ensures.of_modify fun _ _ => trivial)
        fun _ => Ensures.of_pure fun _ _ => hlength
  | parens inner ih =>
    exact (ih (h.mono (List.Subset.refl _)) arithmetic).bind fun t =>
      Ensures.of_pure fun _ ht => h.parens arithmetic t ht
  | signed sign operand ih =>
    exact (ih (h.mono (List.Subset.refl _)) true).bind fun t =>
      Ensures.of_pure fun _ ht => h.signed arithmetic sign t ht
  | binary op left right ihl ihr =>
    have hleft := ihl (h.mono (List.subset_append_left _ _)) true
    have hright := ihr (h.mono (List.subset_append_right _ _)) true
    refine hleft.bind fun t => Ensures.of_fact fun ht => hright.bind fun u => ?_
    exact Ensures.of_pure fun _ hu => h.binary arithmetic op t u ht hu
  | call f argument ih =>
    exact (ih (h.mono (List.Subset.refl _)) true).bind fun t =>
      Ensures.of_pure fun _ ht => h.call arithmetic f t ht

end Admits

end Plain.LoweringScope

end Beamline
