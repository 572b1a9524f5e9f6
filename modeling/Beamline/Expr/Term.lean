import Beamline.Expr.Operator
import Beamline.Name
import Beamline.Decimal.Positional

/-!
# Terms and values

An expression evaluates to a number or a text. A term is an expression whose identifiers have been
told apart: each is known to name a number constant, a text constant, or something else, which is
then looked up as a variable. Terms are written back the way they were read, except that names come
in their normal form.
-/

namespace Beamline

/-- The value of an expression. -/
inductive Value where
  | number (x : Float)
  | text (content : String)

namespace Value

/-- The value that takes the place of one that cannot be had. -/
def zero : Value :=
  .number 0.0

/-- Whether the value is a text. -/
def isText : Value → Bool
  | .number _ => false
  | .text _ => true

/-- A text between quotes; quotes inside it are not marked. -/
def quote (content : String) : String :=
  "\"" ++ content ++ "\""

/-- The text of a value: a number in digits, a text in quotes. -/
def render : Value → String
  | .number x => Decimal.text x
  | .text content => quote content

end Value

/-! ## Terms -/

namespace Expr

/-- An expression with its identifiers told apart. -/
inductive Term where
  /-- A number. -/
  | number (x : Float)
  /-- A text in quotes. -/
  | text (content : String)
  /-- An identifier that named a number constant. -/
  | numberConstant (name : Name)
  /-- An identifier that named a text constant. -/
  | textConstant (name : Name)
  /-- An identifier that named no constant. -/
  | variable (name : Name)
  /-- The length of an element. -/
  | lengthOf (name : Name)
  /-- A term in parentheses. -/
  | parens (inner : Term)
  /-- A sign before an operand. -/
  | signed (sign : Sign) (operand : Term)
  /-- An operator between two operands. -/
  | binary (op : Operator) (left right : Term)
  /-- A function call. -/
  | call (f : Function) (argument : Term)

namespace Term

/-- The number of nodes of a term. -/
def size : Term → Nat
  | .number _ | .text _ | .numberConstant _ | .textConstant _ | .variable _ | .lengthOf _ => 1
  | .parens inner => inner.size + 1
  | .signed _ operand => operand.size + 1
  | .binary _ left right => left.size + right.size + 1
  | .call _ argument => argument.size + 1

/-- The text of a term. No parentheses are added to those that it holds. -/
def render : Term → String
  | .number x => Decimal.text x
  | .text content => Value.quote content
  | .numberConstant name => name.text
  | .textConstant name => name.text
  | .variable name => name.text
  | .lengthOf name => name.text ++ "[L]"
  | .parens inner => "(" ++ inner.render ++ ")"
  | .signed sign operand => sign.symbol ++ operand.render
  | .binary op left right => op.render left.render right.render
  | .call f argument => f.render argument.render

end Term

end Expr

end Beamline
