import Beamline.Diagnostic.Condition

/-!
# Fatal errors

Three conditions end a run: a text where a number is needed, a repetition beyond its bound, and a
fault of the stored expressions. All others are warnings.
-/

namespace Beamline

open Source (Position)
open Diagnostic (Condition)

/-- What ends a run. -/
inductive FatalError where
  /-- A text stands where a number is needed. -/
  | textInArithmetic (symbol : String) (pos : Position)
  /-- A repetition is longer than its bound. -/
  | lineTooLong (limit : Nat) (pos : Position)
  /-- A stored expression is not where it should be. -/
  | fault (f : Expr.Fault)
  deriving DecidableEq

namespace FatalError

/-- The condition that is reported. -/
def condition : FatalError → Condition
  | .textInArithmetic symbol _ => .textInArithmetic symbol
  | .lineTooLong limit _ => .lineTooLong limit
  | .fault f => .internalFault f.message

/-- The text of a fatal error. -/
def message (e : FatalError) : String :=
  e.condition.message

/-- Where the error was met, if it knows. -/
def pos? : FatalError → Option Position
  | .textInArithmetic _ pos => some pos
  | .lineTooLong _ pos => some pos
  | .fault _ => none

/-- The diagnostic of an error. One that does not know where it was met is reported at
`fallback`. -/
def diagnostic (e : FatalError) (fallback : Position) : Diagnostic :=
  e.condition.diagnostic (e.pos?.getD fallback)

@[simp]
theorem isFatal_diagnostic (e : FatalError) (fallback : Position) :
    (e.diagnostic fallback).isFatal = true := by
  cases e <;> rfl

end FatalError

end Beamline
