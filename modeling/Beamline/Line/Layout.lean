import Beamline.Statement
import Beamline.FatalError
import Beamline.Symbols

/-!
# Laying out a line

The body of a line is laid out as a flat list of entries. The name of an element stands for one
entry, passed forward; the name of a line for the entries that the line has at that moment; any
other name for one entry to be defined later, with a warning. Here the warnings are listed;
`Interpreter.flatten` reports each to a console.
-/

namespace Beamline.Line

open Source (Position)
open Diagnostic (Condition)

/-- The entries that a name stands for, and whether the name is defined. -/
def entriesOf (symbols : Symbols) (name : Name) : List Entry × Bool :=
  match symbols.resolve name with
  | .element _ => ([.forward name], true)
  | .line record => (record.entries, true)
  | .undefined => ([.forward name], false)

namespace Body

/-- What laying out a body depends on. -/
structure Scope where
  /-- The symbols defined so far. -/
  symbols : Symbols
  /-- The position of the statement. -/
  pos : Position
  /-- The most entries of a repetition; zero for no limit but the room there is. -/
  limit : Nat

/-- A step of laying out a body, with the diagnostics raised so far. -/
abbrev Step := ExceptT FatalError (StateM (Array Diagnostic))

mutual

/-- The entries of a body. -/
def layout (scope : Scope) : Body → Step (List Entry)
  | .member raw => do
    let name := Name.ofText raw
    let (entries, isDefined) := entriesOf scope.symbols name
    unless isDefined do
      modify (·.push ((Condition.memberUndefined name).diagnostic scope.pos))
    return entries
  | .sequence items => layoutAll scope items
  | .repetition count body => do
    match repeat? count (← layout scope body) scope.limit with
    | .ok entries => return entries
    | .error overflow => throw (.lineTooLong overflow.limit scope.pos)
  | .reflection body => return reflect (← layout scope body)

/-- The entries of bodies one after the other. -/
def layoutAll (scope : Scope) : List Body → Step (List Entry)
  | [] => return []
  | item :: items => do
    let entries ← layout scope item
    return entries ++ (← layoutAll scope items)

end

end Body

end Beamline.Line
