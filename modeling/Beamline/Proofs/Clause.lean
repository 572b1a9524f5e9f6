import Beamline.Deck.Definition

/-!
# What clauses hand over

The formulas and the bodies of lines of a clause, the symbol that it defines, and whether and how
its definition is refused.
-/

namespace Beamline

open Source (Position)
open Diagnostic (Condition)
open Beamline.Expr (Formula)

/-- The formulas that an item hands over. A formula that is taken for a label is none of them. -/
def Element.Item.formulas : Element.Item → List Formula
  | .assign key value =>
    match if Text.normalize key = "TYPE" then Deck.labelOf? value else none with
    | some _ => []
    | none => [value]
  | .flag _ | .label _ => []
  | .rm _ _ value | .tm _ _ _ value => [value]

/-- A symbol: a name in one of the four namespaces. -/
inductive Symbol where
  /-- A constant. -/
  | constant (name : Name)
  /-- A variable. -/
  | variable (name : Name)
  /-- An element. -/
  | element (name : Name)
  /-- A line. -/
  | line (name : Name)
  deriving DecidableEq

namespace Clause

/-- The formulas that a clause hands over. -/
def formulas : Clause → List Formula
  | .constant _ value | .variable _ value _ => [value]
  | .element _ _ items => items.flatMap Element.Item.formulas
  | .line .. | .beginComment | .endComment | .comment .. | .pragma .. => []

/-- The bodies of lines that a clause hands over. -/
def bodies : Clause → List Line.Body
  | .line _ body => [body]
  | _ => []

/-- The element that a clause defines. -/
def element? : Clause → Option Name
  | .element raw _ _ => some (Name.ofText raw)
  | _ => none

/-- The symbol that a clause defines. -/
def symbol? : Clause → Option Symbol
  | .constant raw _ => some (.constant (Name.ofText raw))
  | .variable raw _ _ => some (.variable (Name.ofText raw))
  | .element raw _ _ => some (.element (Name.ofText raw))
  | .line raw _ => some (.line (Name.ofText raw))
  | .beginComment | .endComment | .comment .. | .pragma .. => none

/-- The warning with which a definition is refused. -/
def refusal? : Clause → Option Condition
  | .constant raw _ => some (.constantIsVariable (Name.ofText raw))
  | .variable raw _ _ => some (.variableIsConstant (Name.ofText raw))
  | _ => none

end Clause

namespace Deck

/-- The deck at the position of a statement. -/
def movedTo (pos : Position) (deck : Deck) : Deck :=
  { deck with pos }

/-- A constant and a variable cannot share a name: the definition that comes second is refused. -/
def refuses (deck : Deck) : Clause → Bool
  | .constant raw _ => deck.symbols.vars.contains (Name.ofText raw)
  | .variable raw _ _ => deck.symbols.consts.contains (Name.ofText raw)
  | _ => false

/-- Where a statement was read does not matter for that. -/
@[simp]
theorem refuses_movedTo (pos : Position) (deck : Deck) (clause : Clause) :
    (deck.movedTo pos).refuses clause = deck.refuses clause := by
  cases clause <;> rfl

end Deck

end Beamline
