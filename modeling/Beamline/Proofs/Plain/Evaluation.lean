import Beamline.Proofs.Plain.Lowering

/-!
# Evaluating terms

The value of a term whose names are looked up in plain records. Every node of the term takes one
level, and a variable or a length goes on into the term that it refers to. When a level is needed
and none is left, a warning is raised once and the rest of the evaluation counts as zero; where the
depth has no limit, the evaluation counts as endless instead.
-/

namespace Beamline.Expr

/-- What to blame for a text: the identifier behind the parentheses, or the text in quotes. -/
def Term.blame (content : String) : Term → String
  | .parens inner => inner.blame content
  | .numberConstant name | .textConstant name | .variable name | .lengthOf name => name.text
  | .number _ | .text _ | .signed .. | .binary .. | .call .. => Value.quote content

/-- The term that stands for a value. -/
def Term.ofValue : Value → Term
  | .number x => .number x
  | .text content => .text content

end Beamline.Expr

namespace Beamline.Plain

open Source (Position)
open Diagnostic (Condition)
open Beamline.Expr (Term)

/-- What an evaluation depends on. -/
structure EvaluationScope where
  /-- The values of the constants. -/
  constant? : Name → Option Value
  /-- The terms of the variables. -/
  expr? : Name → Option Term
  /-- The elements, with the terms of their lengths where these are set. -/
  length? : Name → Option (Option Term)
  /-- The position of the statement or query. -/
  pos : Position
  /-- The greatest depth; zero for no limit. -/
  limit : Nat

/-- What an evaluation sees of the symbols. -/
def Symbols.evaluationScope (symbols : Symbols Term) (pos : Position) (limit : Nat) :
    EvaluationScope where
  constant? name := (symbols.consts.get? name).map Constant.value
  expr? name := (symbols.vars.get? name).map Variable.expr
  length? name := (symbols.elements.get? name).map Element.length?
  pos := pos
  limit := limit

/-- How far an evaluation has come. -/
structure Progress where
  /-- No level was left when one was needed. -/
  tripped : Bool
  /-- The diagnostics raised, in order. -/
  raised : Array Diagnostic

namespace EvaluationScope

/-- A step of an evaluation. -/
abbrev Step := ExceptT Error (StateM Progress)

/-- Raises a condition at the position of the statement or query. -/
def raise (scope : EvaluationScope) (condition : Condition) : Step Unit :=
  modify fun p => { p with raised := p.raised.push (condition.diagnostic scope.pos) }

/-- What takes the place of a value when no level is left. -/
def exhausted (scope : EvaluationScope) : Step Value :=
  .mk fun p =>
    if p.tripped then
      (.ok .zero, p)
    else if scope.limit = 0 then
      (.error .endless, p)
    else
      (.ok .zero,
        { tripped := true
          raised := p.raised.push ((Condition.nestingTooDeep scope.limit).diagnostic scope.pos) })

/-- Runs a step unless no level was left before. -/
def unlessTripped (step : Step Value) : Step Value :=
  .mk fun p => if p.tripped then (.ok .zero, p) else step.run p

/-- The value of a term, as a number. `visit` evaluates a term. -/
def number (scope : EvaluationScope) (visit : Term → Step Value) (t : Term) : Step Float := do
  match ← visit t with
  | .number x => return x
  | .text content => throw (.textInArithmetic (t.blame content) scope.pos)

/-- The value of a constant. -/
def constant (scope : EvaluationScope) (name : Name) : Step Value := do
  match scope.constant? name with
  | some value => return value
  | none =>
    scope.raise (.constantUndefined name)
    return .zero

/-- The value of a term from those of its operands and references. `visit` evaluates a term. -/
def node (scope : EvaluationScope) (visit : Term → Step Value) : Term → Step Value
  | .number x => return .number x
  | .text content => return .text content
  | .numberConstant name => do
    -- the constant may have been defined anew, as a text
    match ← scope.constant name with
    | .number x => return .number x
    | .text _ => throw (.textInArithmetic name.text scope.pos)
  | .textConstant name => scope.constant name
  | .variable name =>
    match scope.expr? name with
    | some t => visit t
    | none => do
      scope.raise (.variableUndefined name)
      return .zero
  | .lengthOf name =>
    match scope.length? name with
    | some (some t) => visit t
    | some none => return .zero
    | none => do
      scope.raise (.elementUndefined name)
      return .zero
  | .parens inner => visit inner
  | .signed sign operand => do
    return .number (sign.apply (← scope.number visit operand))
  | .binary op left right => do
    let left ← scope.number visit left
    let right ← scope.number visit right
    return .number (op.apply left right)
  | .call f argument => do
    return .number (f.apply (← scope.number visit argument))

/-- The value of a term when `levels` levels are left. -/
def visit (scope : EvaluationScope) : (levels : Nat) → Term → Step Value
  | 0, _ => scope.exhausted
  -- once a warning was raised, what is left counts as zero without being looked at
  | levels + 1, t => unlessTripped (scope.node (visit scope levels) t)

/-! ## Runs -/

variable (scope : EvaluationScope) {p : Progress}

theorem run_exhausted_of_tripped (h : p.tripped = true) :
    scope.exhausted.run p = (.ok .zero, p) := by
  change (if p.tripped then _ else _) = _
  rw [if_pos h]

theorem run_exhausted_of_unlimited (h : p.tripped = false) (hlimit : scope.limit = 0) :
    scope.exhausted.run p = (.error .endless, p) := by
  change (if p.tripped then _ else if scope.limit = 0 then _ else _) = _
  rw [if_neg (by rw [h]; decide), if_pos hlimit]

theorem run_exhausted_of_limited (h : p.tripped = false) (hlimit : scope.limit ≠ 0) :
    scope.exhausted.run p =
      (.ok .zero,
        { tripped := true
          raised :=
            p.raised.push ((Condition.nestingTooDeep scope.limit).diagnostic scope.pos) }) := by
  change (if p.tripped then _ else if scope.limit = 0 then _ else _) = _
  rw [if_neg (by rw [h]; decide), if_neg hlimit]

theorem run_unlessTripped_of_tripped (step : Step Value) (h : p.tripped = true) :
    (unlessTripped step).run p = (.ok .zero, p) := by
  change (if p.tripped then _ else _) = _
  rw [if_pos h]

theorem run_unlessTripped_of_not_tripped (step : Step Value) (h : p.tripped = false) :
    (unlessTripped step).run p = step.run p := by
  change (if p.tripped then _ else step.run p) = _
  rw [if_neg (by rw [h]; decide)]

end EvaluationScope

end Beamline.Plain
