import Beamline.Element.Kind
import Beamline.Expr.Operator
import Beamline.Source.Position

/-!
# Statements

The statements of a deck as the front end reads them. A formula is an expression whose identifiers
are the raw text; what they refer to is settled when it is entered into a deck. The body of a line
is made of members, sequences, repetitions and reflections, nested in any way.
-/

namespace Beamline

/-! ## Formulas -/

namespace Expr

/-- An expression as written. -/
inductive Formula where
  /-- A number. -/
  | number (x : Float)
  /-- A text in quotes. -/
  | text (content : String)
  /-- An identifier. -/
  | name (raw : String)
  /-- The length of an element, `NAME[L]`. -/
  | lengthOf (raw : String)
  /-- A formula in parentheses. -/
  | parens (inner : Formula)
  /-- A sign before an operand. -/
  | signed (sign : Sign) (operand : Formula)
  /-- An operator between two operands. -/
  | binary (op : Operator) (left right : Formula)
  /-- A function call. -/
  | call (f : Function) (argument : Formula)

end Expr

/-! ## Line bodies -/

namespace Line

/-- The body of a line definition. -/
inductive Body where
  /-- A member by name. -/
  | member (raw : String)
  /-- Bodies one after the other. -/
  | sequence (items : List Body)
  /-- A body repeated; the count is the text written before the star. -/
  | repetition (count : String) (body : Body)
  /-- A body passed backwards. -/
  | reflection (body : Body)

namespace Body

/-- A sequence of members. -/
def members (names : List String) : Body :=
  .sequence (names.map .member)

end Body

end Line

/-! ## Clauses -/

open Beamline.Expr (Formula)
open Source (Position)

/-- When the expression of a variable is evaluated. -/
inductive Binding where
  /-- Whenever the variable is read. -/
  | deferred
  /-- Once, when the variable is defined; the value is stored. -/
  | immediate
  deriving DecidableEq

/-- An item of an element definition. -/
inductive Element.Item where
  /-- An attribute with its value. -/
  | assign (key : String) (value : Formula)
  /-- An attribute without a value. -/
  | flag (key : String)
  /-- The label. -/
  | label (text : String)
  /-- An entry of the first-order table, with the indices as written. -/
  | rm (i j : Float) (value : Formula)
  /-- An entry of the second-order table, with the indices as written. -/
  | tm (i j k : Float) (value : Formula)

/-- What a statement says. -/
inductive Clause where
  /-- Defines a constant. -/
  | constant (name : String) (value : Formula)
  /-- Defines a variable. -/
  | variable (name : String) (value : Formula) (binding : Binding)
  /-- Defines an element. -/
  | element (name : String) (kind : Element.Kind) (items : List Element.Item)
  /-- Defines a line. -/
  | line (name : String) (body : Line.Body)
  /-- Opens a comment block. -/
  | beginComment
  /-- Closes a comment block. -/
  | endComment
  /-- Text in a comment block; `atEnd` if it was read after the last line. -/
  | comment (text : String) (atEnd : Bool)
  /-- A command to another program, which changes nothing here. -/
  | pragma (keyword : String) (text : String)

/-- Whether the clause is about comments. -/
def Clause.isComment : Clause → Bool
  | .beginComment | .endComment | .comment .. => true
  | _ => false

/-- A clause and where it was read. -/
structure Statement where
  /-- What the statement says. -/
  clause : Clause
  /-- Where it was read. -/
  pos : Position

end Beamline
