import Beamline.Proofs.Mirror
import Beamline.Proofs.Plain.Layout

/-!
# Laying out alike

A layout asks the symbols only what a name stands for, and stores nothing.

* `mirrors_layout`: where names stand for the same entries, bodies are laid out alike.
-/

namespace Beamline.Line.Body

open Diagnostic (Condition)

/-- What a layout sees of its scope. -/
def Scope.plain (scope : Scope) : Plain.LayoutScope where
  entriesOf := Line.entriesOf scope.symbols
  pos := scope.pos
  limit := scope.limit

/-- Both sides came to the same entries and have raised the same. -/
def Returned (x y : List Entry) (raised other : Array Diagnostic) : Prop :=
  x = y ∧ raised = other

/-- Both sides ended in the same error and have raised the same. -/
def Failed (e : FatalError) (d : Plain.Error) (raised other : Array Diagnostic) : Prop :=
  (e = d.fatal ∧ d ≠ .endless) ∧ raised = other

variable (scope : Scope)

theorem mirrors_return (entries : List Entry) :
    Mirrors Eq (pure entries : Step (List Entry)) (pure entries : Plain.Step (List Entry))
      Returned Failed :=
  Mirrors.of_pure fun _ _ h => ⟨rfl, h⟩

mutual

/-- Where names stand for the same entries, bodies are laid out alike. -/
theorem mirrors_layout (body : Body) :
    Mirrors Eq (layout scope body) (scope.plain.layout body) Returned Failed := by
  match body with
  | .member raw =>
    unfold layout Plain.LayoutScope.layout Scope.plain
    dsimp only
    obtain ⟨entries, isDefined⟩ := Line.entriesOf scope.symbols (Name.ofText raw)
    cases isDefined with
    | true => exact mirrors_return entries
    | false =>
      refine Mirrors.bind (R := fun _ _ => Eq) ?_ fun _ _ => mirrors_return entries
      exact Mirrors.of_modify fun raised other h => by rw [h]
  | .sequence items => exact mirrors_layoutAll items
  | .repetition count body =>
    unfold layout Plain.LayoutScope.layout
    refine (mirrors_layout body).bind_eq fun x => ?_
    -- both repeat the same entries, and so fail alike
    change Mirrors Eq (match repeat? count x scope.limit with
      | .ok entries => pure entries
      | .error overflow => throw (FatalError.lineTooLong overflow.limit scope.pos))
      (match repeat? count x scope.limit with
      | .ok entries => pure entries
      | .error overflow => throw (Plain.Error.lineTooLong overflow.limit scope.pos)) _ _
    cases repeat? count x scope.limit with
    | ok entries => exact mirrors_return entries
    | error overflow => exact Mirrors.of_throw fun _ _ h => ⟨⟨rfl, nofun⟩, h⟩
  | .reflection body =>
    unfold layout Plain.LayoutScope.layout
    exact (mirrors_layout body).bind_eq fun x => mirrors_return _

theorem mirrors_layoutAll (items : List Body) :
    Mirrors Eq (layoutAll scope items) (scope.plain.layoutAll items) Returned Failed := by
  match items with
  | [] => exact mirrors_return []
  | item :: items =>
    unfold layoutAll Plain.LayoutScope.layoutAll
    refine (mirrors_layout item).bind_eq fun x => ?_
    exact (mirrors_layoutAll items).bind_eq fun y => mirrors_return _

end

end Beamline.Line.Body
