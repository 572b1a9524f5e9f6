import Beamline.Table.Lemmas
import Beamline.Element.Basic
import Beamline.Line.Basic
import Beamline.Expr.Term

/-!
# The symbols of a deck

A deck has four namespaces: constants, variables, elements and lines. A constant keeps its value
and the expression that gave it; a variable keeps its expression only, which is evaluated whenever
the variable is read.
-/

namespace Beamline

open Source (Position)
open Beamline.Expr (NodeId)

/-- A constant. -/
structure Constant where
  /-- The name. -/
  name : Name
  /-- The value that the expression had when the constant was defined. -/
  value : Value
  /-- The expression. -/
  source : NodeId
  /-- Where the constant was defined. -/
  pos : Position

/-- A variable. -/
structure Variable where
  /-- The name. -/
  name : Name
  /-- The expression. -/
  expr : NodeId
  /-- Where the variable was defined. -/
  pos : Position
  deriving DecidableEq

instance : Record Constant where
  name := Constant.name
  pos := Constant.pos
  withPos pos record := { record with pos }
  owned record := [record.source]
  name_withPos _ _ := rfl

instance : Record Variable where
  name := Variable.name
  pos := Variable.pos
  withPos pos record := { record with pos }
  owned record := [record.expr]
  name_withPos _ _ := rfl

instance : Record Element where
  name := Element.name
  pos := Element.pos
  withPos pos record := { record with pos }
  owned := Element.owned
  name_withPos _ _ := rfl

instance : Record Line where
  name := Line.name
  pos := Line.pos
  withPos pos record := { record with pos }
  owned _ := []
  name_withPos _ _ := rfl

/-- The four namespaces. -/
structure Symbols where
  /-- The constants. -/
  consts : Table Constant
  /-- The variables. -/
  vars : Table Variable
  /-- The elements. -/
  elements : Table Element
  /-- The lines. -/
  lines : Table Line

namespace Symbols

/-- No symbol defined. -/
def empty : Symbols where
  consts := .empty
  vars := .empty
  elements := .empty
  lines := .empty

/-- What the name of a line member refers to. -/
inductive Member where
  /-- An element. -/
  | element (record : Element)
  /-- A line. -/
  | line (record : Line)
  /-- Nothing that is defined. -/
  | undefined

/-- What a line member refers to. An element comes before a line of the same name. -/
def resolve (symbols : Symbols) (name : Name) : Member :=
  match symbols.elements.get? name with
  | some record => .element record
  | none =>
    match symbols.lines.get? name with
    | some record => .line record
    | none => .undefined

end Symbols

end Beamline
