import Beamline.Line.Layout
import Beamline.Proofs.Mirror

/-!
# What a line body stands for

A body stands for a list of entries whether or not there is room for them: a name for itself or for
the entries of the line that has it, a repetition for all its copies. A layout comes to these
entries if each repetition within the body is within the bound, and otherwise fails, however deep
the repetition is nested and even if no copy of it is kept.

A reflection can be moved to the members of a body: the mirror image of a body has all its parts in
reverse order, each member passed in the other direction.

* `run_layout_of_fits`, `exists_run_layout_of_not_fits`: what a layout comes to.
* `expansion_mirror`, `fits_mirror_iff`: a mirror image is laid out as the reflection.
-/

namespace Beamline

open Diagnostic (Condition)

/-- The name is that of an element or of a line. -/
def Symbols.defines (symbols : Symbols) (name : Name) : Bool :=
  (symbols.elements.get? name).isSome || (symbols.lines.get? name).isSome

namespace Line

variable {symbols : Symbols}

/-- The entries that the name of a member stands for: itself, unless it is the name of a line and
not that of an element. -/
def spliced (symbols : Symbols) (name : Name) : List Entry :=
  match symbols.elements.get? name, symbols.lines.get? name with
  | none, some record => record.entries
  | _, _ => [.forward name]

theorem entriesOf_eq (symbols : Symbols) (name : Name) :
    entriesOf symbols name = (spliced symbols name, symbols.defines name) := by
  unfold entriesOf spliced Symbols.defines Symbols.resolve
  cases symbols.elements.get? name with
  | some record => rfl
  | none => cases symbols.lines.get? name <;> rfl

theorem reflect_flatten_replicate (times : Nat) (entries : List Entry) :
    reflect (List.replicate times entries).flatten =
      (List.replicate times (reflect entries)).flatten := by
  simp [reflect, List.reverse_flatten, List.map_flatten]

namespace Body

/-! ## Bodies without a bound -/

mutual

/-- The entries that a body stands for, however many they are. -/
def expansion (symbols : Symbols) : Body → List Entry
  | .member raw => spliced symbols (Name.ofText raw)
  | .sequence items => expansionAll symbols items
  | .repetition count body =>
    (List.replicate (repeatCount count) (expansion symbols body)).flatten
  | .reflection body => reflect (expansion symbols body)

/-- The entries that bodies one after the other stand for. -/
def expansionAll (symbols : Symbols) : List Body → List Entry
  | [] => []
  | item :: items => expansion symbols item ++ expansionAll symbols items

end

mutual

/-- The repetitions in a body, also those of which no copy is kept. -/
def repetitions : Body → List Body
  | .member _ => []
  | .sequence items => repetitionsAll items
  | .repetition count body => repetitions body ++ [.repetition count body]
  | .reflection body => repetitions body

/-- The repetitions in bodies one after the other. -/
def repetitionsAll : List Body → List Body
  | [] => []
  | item :: items => repetitions item ++ repetitionsAll items

end

mutual

/-- The names of the members in a body, as they are written from left to right. -/
def references : Body → List Name
  | .member raw => [Name.ofText raw]
  | .sequence items => referencesAll items
  | .repetition _ body => references body
  | .reflection body => references body

/-- The names of the members in bodies one after the other. -/
def referencesAll : List Body → List Name
  | [] => []
  | item :: items => references item ++ referencesAll items

end

/-- Each repetition in the body stands for no more entries than the limit allows. -/
def Fits (symbols : Symbols) (limit : Nat) (body : Body) : Prop :=
  ∀ part ∈ body.repetitions, (part.expansion symbols).length ≤ bound limit

/-- Each repetition in the bodies stands for no more entries than the limit allows. -/
def FitAll (symbols : Symbols) (limit : Nat) (items : List Body) : Prop :=
  ∀ part ∈ repetitionsAll items, (part.expansion symbols).length ≤ bound limit

instance (symbols : Symbols) (limit : Nat) (body : Body) : Decidable (body.Fits symbols limit) :=
  inferInstanceAs (Decidable (∀ part ∈ body.repetitions, _))

variable {limit : Nat}

@[simp]
theorem fits_member (raw : String) : (member raw).Fits symbols limit := by
  simp [Fits, repetitions]

@[simp]
theorem fits_sequence (items : List Body) :
    (sequence items).Fits symbols limit ↔ FitAll symbols limit items := by
  simp [Fits, FitAll, repetitions]

@[simp]
theorem fits_repetition (count : String) (body : Body) :
    (repetition count body).Fits symbols limit ↔ body.Fits symbols limit ∧
      (body.expansion symbols).length * repeatCount count ≤ bound limit := by
  simp [Fits, repetitions, expansion, or_imp, forall_and, Nat.mul_comm]

@[simp]
theorem fits_reflection (body : Body) :
    (reflection body).Fits symbols limit ↔ body.Fits symbols limit := by
  simp [Fits, repetitions]

@[simp]
theorem fitAll_nil : FitAll symbols limit [] := by
  simp [FitAll, repetitionsAll]

@[simp]
theorem fitAll_cons (item : Body) (items : List Body) :
    FitAll symbols limit (item :: items) ↔
      item.Fits symbols limit ∧ FitAll symbols limit items := by
  simp [Fits, FitAll, repetitionsAll, or_imp, forall_and]

/-- The names of the members in a body that stand for nothing that is defined. -/
def undefined (symbols : Symbols) (body : Body) : List Name :=
  body.references.filter fun name => !symbols.defines name

/-- The names of the members in bodies that stand for nothing that is defined. -/
def undefinedAll (symbols : Symbols) (items : List Body) : List Name :=
  (referencesAll items).filter fun name => !symbols.defines name

/-! ## Layouts -/

variable {scope : Scope}

/-- The warnings about members that stand for nothing that is defined. -/
def Scope.warnings (scope : Scope) (names : List Name) : Array Diagnostic :=
  (names.map fun name => (Condition.memberUndefined name).diagnostic scope.pos).toArray

/-- The error of a repetition beyond the bound. -/
def Scope.overflow (scope : Scope) : FatalError :=
  .lineTooLong (bound scope.limit) scope.pos

@[simp]
theorem Scope.warnings_append (scope : Scope) (names others : List Name) :
    scope.warnings (names ++ others) = scope.warnings names ++ scope.warnings others := by
  simp [warnings]

theorem run_layout_member (raw : String) (raised : Array Diagnostic) :
    (layout scope (.member raw)).run raised =
      (.ok ((member raw).expansion scope.symbols),
        raised ++ scope.warnings ((member raw).undefined scope.symbols)) := by
  unfold layout expansion undefined references
  dsimp only
  rw [entriesOf_eq]
  cases hdefined : scope.symbols.defines (Name.ofText raw) with
  | true =>
    simp only [List.filter_cons, hdefined, Bool.not_true, Bool.false_eq_true, if_false]
    exact congrArg (Prod.mk _) (Array.append_empty).symm
  | false =>
    simp only [List.filter_cons, hdefined, Bool.not_false, if_true]
    exact congrArg (Prod.mk _) Array.push_eq_append

mutual

/-- A layout in which all repetitions are within the bound comes to the entries that the body
stands for, with one warning for each member that stands for nothing. -/
theorem run_layout_of_fits {body : Body} (h : body.Fits scope.symbols scope.limit)
    (raised : Array Diagnostic) :
    (layout scope body).run raised =
      (.ok (body.expansion scope.symbols),
        raised ++ scope.warnings (body.undefined scope.symbols)) := by
  match body with
  | .member raw => exact run_layout_member raw raised
  | .sequence items =>
    rw [layout]
    exact run_layoutAll_of_fitAll ((fits_sequence items).1 h) raised
  | .repetition count body =>
    obtain ⟨hbody, hlength⟩ := (fits_repetition count body).1 h
    rw [layout, run_bind_of_ok (run_layout_of_fits hbody raised), repeat?_eq, if_pos hlength]
    rfl
  | .reflection body =>
    have hbody := (fits_reflection body).1 h
    rw [layout, run_bind_of_ok (run_layout_of_fits hbody raised)]
    rfl

theorem run_layoutAll_of_fitAll {items : List Body} (h : FitAll scope.symbols scope.limit items)
    (raised : Array Diagnostic) :
    (layoutAll scope items).run raised =
      (.ok (expansionAll scope.symbols items),
        raised ++ scope.warnings (undefinedAll scope.symbols items)) := by
  match items with
  | [] => exact congrArg (Prod.mk _) (Array.append_empty).symm
  | item :: items =>
    obtain ⟨hitem, hitems⟩ := (fitAll_cons item items).1 h
    rw [layoutAll, run_bind_of_ok (run_layout_of_fits hitem raised),
      run_bind_of_ok (run_layoutAll_of_fitAll hitems _)]
    refine congrArg (Prod.mk _) ?_
    simp [undefined, undefinedAll, referencesAll, Array.append_assoc]

end

mutual

/-- A layout in which a repetition is beyond the bound fails and names the bound. -/
theorem exists_run_layout_of_not_fits {body : Body} (h : ¬body.Fits scope.symbols scope.limit)
    (raised : Array Diagnostic) :
    ∃ told, (layout scope body).run raised = (.error scope.overflow, told) := by
  match body with
  | .member raw => exact absurd (fits_member raw) h
  | .sequence items =>
    rw [layout]
    exact exists_run_layoutAll_of_not_fitAll (mt (fits_sequence items).2 h) raised
  | .repetition count body =>
    rw [layout]
    -- a repetition within the body is met before this one
    by_cases hbody : body.Fits scope.symbols scope.limit
    · have hlength := fun hle => h ((fits_repetition count body).2 ⟨hbody, hle⟩)
      rw [run_bind_of_ok (run_layout_of_fits hbody raised), repeat?_eq, if_neg hlength]
      exact ⟨_, rfl⟩
    · obtain ⟨told, hrun⟩ := exists_run_layout_of_not_fits hbody raised
      exact ⟨told, run_bind_of_error hrun _⟩
  | .reflection body =>
    obtain ⟨told, hrun⟩ := exists_run_layout_of_not_fits (mt (fits_reflection body).2 h) raised
    rw [layout]
    exact ⟨told, run_bind_of_error hrun _⟩

theorem exists_run_layoutAll_of_not_fitAll {items : List Body}
    (h : ¬FitAll scope.symbols scope.limit items) (raised : Array Diagnostic) :
    ∃ told, (layoutAll scope items).run raised = (.error scope.overflow, told) := by
  match items with
  | [] => exact absurd fitAll_nil h
  | item :: items =>
    rw [layoutAll]
    by_cases hitem : item.Fits scope.symbols scope.limit
    · have hitems := fun hfit => h ((fitAll_cons item items).2 ⟨hitem, hfit⟩)
      rw [run_bind_of_ok (run_layout_of_fits hitem raised)]
      obtain ⟨told, hrun⟩ := exists_run_layoutAll_of_not_fitAll hitems
        (raised ++ scope.warnings (item.undefined scope.symbols))
      exact ⟨told, run_bind_of_error hrun _⟩
    · obtain ⟨told, hrun⟩ := exists_run_layout_of_not_fits hitem raised
      exact ⟨told, run_bind_of_error hrun _⟩

end

/-- A layout comes to the entries that the body stands for, unless a repetition is beyond the
bound. -/
theorem layout_outcome (scope : Scope) (body : Body) (raised : Array Diagnostic) :
    ((layout scope body).run raised).1 =
      if body.Fits scope.symbols scope.limit then .ok (body.expansion scope.symbols)
      else .error scope.overflow := by
  split
  · rename_i hfits
    rw [run_layout_of_fits hfits]
  · rename_i hfits
    obtain ⟨told, hrun⟩ := exists_run_layout_of_not_fits hfits raised
    rw [hrun]

/-! ## Mirror images -/

mutual

/-- The mirror image of a body: all its parts in reverse order, each member reflected. -/
def mirror : Body → Body
  | .member raw => .reflection (.member raw)
  | .sequence items => .sequence (mirrorAll items)
  | .repetition count body => .repetition count (mirror body)
  | .reflection body => body

/-- The mirror images of bodies, the last one first. -/
def mirrorAll : List Body → List Body
  | [] => []
  | item :: items => mirrorAll items ++ [mirror item]

end

theorem expansionAll_append (items others : List Body) :
    expansionAll symbols (items ++ others) =
      expansionAll symbols items ++ expansionAll symbols others := by
  induction items with
  | nil => rfl
  | cons item items ih => simp [expansionAll, ih]

theorem fitAll_append (items others : List Body) :
    FitAll symbols limit (items ++ others) ↔
      FitAll symbols limit items ∧ FitAll symbols limit others := by
  induction items with
  | nil => simp
  | cons item items ih => simp [ih, and_assoc]

mutual

/-- A mirror image stands for the entries in reverse order, each passed in the other direction. -/
theorem expansion_mirror (symbols : Symbols) (body : Body) :
    body.mirror.expansion symbols = reflect (body.expansion symbols) := by
  match body with
  | .member raw => simp only [mirror, expansion]
  | .sequence items =>
    rw [mirror, expansion, expansion]
    exact expansionAll_mirrorAll symbols items
  | .repetition count body =>
    rw [mirror, expansion, expansion, expansion_mirror symbols body, reflect_flatten_replicate]
  | .reflection body => rw [mirror, expansion, reflect_reflect]

theorem expansionAll_mirrorAll (symbols : Symbols) (items : List Body) :
    expansionAll symbols (mirrorAll items) = reflect (expansionAll symbols items) := by
  match items with
  | [] => rfl
  | item :: items =>
    -- the items are reversed on both sides
    rw [mirrorAll, expansionAll_append, expansionAll_mirrorAll symbols items]
    simp [expansionAll, expansion_mirror symbols item, reflect_append]

end

mutual

/-- The repetitions in a mirror image are as long as those in the body. -/
theorem fits_mirror_iff (body : Body) :
    body.mirror.Fits symbols limit ↔ body.Fits symbols limit := by
  match body with
  | .member raw => simp [mirror]
  | .sequence items =>
    rw [mirror, fits_sequence, fits_sequence]
    exact fitAll_mirrorAll_iff items
  | .repetition count body =>
    rw [mirror, fits_repetition, fits_repetition, fits_mirror_iff body, expansion_mirror,
      length_reflect]
  | .reflection body => rw [mirror, fits_reflection]

theorem fitAll_mirrorAll_iff (items : List Body) :
    FitAll symbols limit (mirrorAll items) ↔ FitAll symbols limit items := by
  match items with
  | [] => rfl
  | item :: items =>
    rw [mirrorAll, fitAll_append, fitAll_mirrorAll_iff items]
    simp [fits_mirror_iff item, and_comm]

end

end Body

end Line

end Beamline
