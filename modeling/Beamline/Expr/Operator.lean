import Beamline.Text.Spelling

/-!
# Operators and functions

The operators of expressions and what they do to numbers. All arithmetic is that of doubles:
division by zero and arguments outside of a function's domain give an infinity or NaN, never an
error. `MAX` and `MIN` leave out an operand that is NaN.

* `Operator.ofKeyword?_keyword`, `Function.ofKeyword?_keyword`: a keyword is read back.
-/

namespace Beamline.Expr

/-- A sign written before an operand. -/
inductive Sign where
  | plus
  | minus
  deriving DecidableEq

/-- An operator between two operands. -/
inductive Operator where
  | add
  | sub
  | mul
  | div
  | pow
  | max
  | min
  deriving DecidableEq

/-- A function of one argument. -/
inductive Function where
  | sqrt
  | log
  | exp
  | sin
  | cos
  | tan
  | asin
  | abs
  deriving DecidableEq

namespace Sign

/-- The character that writes a sign. -/
def symbol : Sign → String
  | .plus => "+"
  | .minus => "-"

/-- The number with a sign before it. -/
def apply (x : Float) : Sign → Float
  | .plus => x
  | .minus => -x

end Sign

/-- The greater of two numbers; the other one if one is NaN. -/
def maxNumber (x y : Float) : Float :=
  if x.isNaN then y else if y.isNaN then x else if x < y then y else x

/-- The smaller of two numbers; the other one if one is NaN. -/
def minNumber (x y : Float) : Float :=
  if x.isNaN then y else if y.isNaN then x else if y < x then y else x

namespace Operator

/-- The symbol written between the operands; `none` for an operator written as a call. -/
def symbol? : Operator → Option String
  | .add => some "+"
  | .sub => some "-"
  | .mul => some "*"
  | .div => some "/"
  | .pow => some "^"
  | .max => none
  | .min => none

/-- The word that names an operator. -/
def keyword : Operator → String
  | .add => "ADD"
  | .sub => "SUB"
  | .mul => "MUL"
  | .div => "DIV"
  | .pow => "POW"
  | .max => "MAX"
  | .min => "MIN"

/-- All operators. -/
def all : List Operator :=
  [.add, .sub, .mul, .div, .pow, .max, .min]

/-- The operator with exactly the given keyword. -/
def ofKeyword? (word : String) : Option Operator :=
  all.find? fun op => op.keyword = word

/-- The keyword of an operator is read back. -/
@[simp]
theorem ofKeyword?_keyword (op : Operator) : ofKeyword? op.keyword = some op := by
  cases op <;> decide

/-- The operator applied to two numbers. -/
def apply (op : Operator) (x y : Float) : Float :=
  match op with
  | .add => x + y
  | .sub => x - y
  | .mul => x * y
  | .div => x / y
  | .pow => Float.pow x y
  | .max => maxNumber x y
  | .min => minNumber x y

/-- The operator written with the given texts as its operands. -/
def render (op : Operator) (left right : String) : String :=
  match op.symbol? with
  | some symbol => left ++ symbol ++ right
  | none => op.keyword ++ "(" ++ left ++ "," ++ right ++ ")"

end Operator

namespace Function

/-- The word that names a function. -/
def keyword : Function → String
  | .sqrt => "SQRT"
  | .log => "LOG"
  | .exp => "EXP"
  | .sin => "SIN"
  | .cos => "COS"
  | .tan => "TAN"
  | .asin => "ASIN"
  | .abs => "ABS"

/-- All functions. -/
def all : List Function :=
  [.sqrt, .log, .exp, .sin, .cos, .tan, .asin, .abs]

/-- The function that `word` spells. -/
def ofKeyword? (word : String) : Option Function :=
  all.find? fun f => f.keyword = Text.normalize word

/-- The keyword of a function is read back. -/
@[simp]
theorem ofKeyword?_keyword (f : Function) : ofKeyword? f.keyword = some f := by
  cases f <;> decide +kernel

/-- The function applied to a number. The logarithm is the natural one. -/
def apply (f : Function) (x : Float) : Float :=
  match f with
  | .sqrt => x.sqrt
  | .log => x.log
  | .exp => x.exp
  | .sin => x.sin
  | .cos => x.cos
  | .tan => x.tan
  | .asin => x.asin
  | .abs => x.abs

/-- The function written with the given text as its argument. -/
def render (f : Function) (argument : String) : String :=
  f.keyword ++ "(" ++ argument ++ ")"

end Function

end Beamline.Expr
