import Beamline.Line.Layout
import Beamline.Proofs.Plain.Lowering

/-!
# Laying out a line by names

How the body of a line becomes a flat list of entries when it is known for each name which entries
it stands for.
-/

namespace Beamline.Plain

open Source (Position)
open Diagnostic (Condition)
open Line (Entry Body)

variable {ε : Type}

/-- What laying out a body depends on. -/
structure LayoutScope where
  /-- The entries that a name stands for, and whether the name is defined. -/
  entriesOf : Name → List Entry × Bool
  /-- The position of the statement. -/
  pos : Position
  /-- The most entries of a repetition; zero for no limit but the room there is. -/
  limit : Nat

/-- What a name stands for: an element before a line of the same name, and otherwise a member to be
defined later. -/
def Symbols.entriesOf (symbols : Symbols ε) (name : Name) : List Entry × Bool :=
  if symbols.elements.contains name then
    ([.forward name], true)
  else
    match symbols.lines.get? name with
    | some line => (line.entries, true)
    | none => ([.forward name], false)

namespace LayoutScope

mutual

/-- The entries of a body. -/
def layout (scope : LayoutScope) : Body → Step (List Entry)
  | .member raw => do
    let name := Name.ofText raw
    let (entries, isDefined) := scope.entriesOf name
    -- a name that stands for nothing yet is kept as a member all the same
    unless isDefined do
      report (.memberUndefined name) scope.pos
    return entries
  | .sequence items => layoutAll scope items
  | .repetition count body => do
    -- the body is laid out first: its warnings come before an overflow
    match Line.repeat? count (← layout scope body) scope.limit with
    | .ok entries => return entries
    | .error overflow => throw (.lineTooLong overflow.limit scope.pos)
  | .reflection body => return Line.reflect (← layout scope body)

/-- The entries of bodies one after the other. -/
def layoutAll (scope : LayoutScope) : List Body → Step (List Entry)
  | [] => return []
  | item :: items => do
    let entries ← layout scope item
    return entries ++ (← layoutAll scope items)

end

end LayoutScope

end Beamline.Plain
