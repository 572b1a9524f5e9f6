import Beamline.Source.Position

/-!
# The reading cursor

While a deck is read, files include one another. The cursor knows the names of all files opened
so far, the file being read, and the files that wait for it to end, each with the line at which
it was left. A file gets its number when it is opened; opening the same path again gives a new
number.

* `leave?_enter`: leaving a file resumes the one that included it, unchanged.
* `leave?_eq_none_iff`: there is nothing to leave exactly if no file is open.
-/

namespace Beamline.Source

/-- A file being read. -/
structure Frame where
  /-- The file. -/
  file : FileId
  /-- The line reached in it. -/
  localLine : Nat
  deriving DecidableEq

/-- A file with the next line reached. -/
def Frame.advance (frame : Frame) : Frame :=
  { frame with localLine := nextLine frame.localLine }

/-- How far the input has been read. The file being read is kept apart from those that it
interrupts. -/
@[ext]
structure Cursor where
  /-- The paths of the files opened so far, by number. -/
  paths : List String
  /-- The file being read, if any is. -/
  current : Option Frame
  /-- The files that wait, the one that waits for the current file first. -/
  suspended : List Frame
  /-- The global line. -/
  line : Nat
  /-- No file waits unless one is being read. -/
  suspended_eq_nil : current = none → suspended = []
  deriving DecidableEq

namespace Cursor

/-- The cursor before the first line, outside of any file. -/
def start : Cursor where
  paths := []
  current := none
  suspended := []
  line := 1
  suspended_eq_nil _ := rfl

/-- The open files, which all wait once another file is entered: the current one first, if there is
one. -/
def opened (cursor : Cursor) : List Frame :=
  match cursor.current with
  | some frame => frame :: cursor.suspended
  | none => cursor.suspended

/-- Starts to read `path`. The file being read until now waits for it to end. -/
def enter (path : String) (cursor : Cursor) : FileId × Cursor :=
  let file := cursor.paths.length
  (file, { cursor with
    paths := cursor.paths ++ [path]
    current := some { file, localLine := 1 }
    suspended := cursor.opened
    suspended_eq_nil := nofun })

/-- Goes back to the file that waits for the current one, or out of all files if none does. -/
def resume (cursor : Cursor) : Cursor :=
  { cursor with
    current := cursor.suspended.head?
    suspended := cursor.suspended.tail
    suspended_eq_nil := fun h => by rw [List.head?_eq_none_iff.1 h, List.tail_nil] }

/-- Ends the file being read and resumes the one that waits for it. Outside of any file there is
nothing to leave. -/
def leave? (cursor : Cursor) : Option (FileId × Cursor) :=
  match cursor.current with
  | none => none
  | some frame => some (frame.file, cursor.resume)

/-- Goes on to the next line, globally and in the file being read. -/
def advance (cursor : Cursor) : Cursor where
  paths := cursor.paths
  current := cursor.current.map Frame.advance
  suspended := cursor.suspended
  line := nextLine cursor.line
  suspended_eq_nil h := cursor.suspended_eq_nil (Option.map_eq_none_iff.1 h)

/-- The position of the line being read. -/
def position (cursor : Cursor) : Position :=
  match cursor.current with
  | none => Position.inBuffer cursor.line
  | some frame => { file := some frame.file, line := cursor.line, localLine := frame.localLine }

/-- The path of a file opened earlier. -/
def path? (cursor : Cursor) (file : FileId) : Option String :=
  cursor.paths[file]?

/-- The number of open files. -/
def depth (cursor : Cursor) : Nat :=
  cursor.suspended.length + cursor.current.isSome.toNat

/-! ## Names and lines -/

@[simp]
theorem paths_enter (path : String) (cursor : Cursor) :
    (cursor.enter path).2.paths = cursor.paths ++ [path] :=
  rfl

@[simp]
theorem paths_resume (cursor : Cursor) : cursor.resume.paths = cursor.paths :=
  rfl

@[simp]
theorem paths_advance (cursor : Cursor) : cursor.advance.paths = cursor.paths :=
  rfl

@[simp]
theorem line_enter (path : String) (cursor : Cursor) :
    (cursor.enter path).2.line = cursor.line :=
  rfl

@[simp]
theorem line_resume (cursor : Cursor) : cursor.resume.line = cursor.line :=
  rfl

@[simp]
theorem line_advance (cursor : Cursor) : cursor.advance.line = nextLine cursor.line :=
  rfl

/-- The number of the file entered is new and stands for its path. -/
theorem path?_enter (path : String) (cursor : Cursor) (file : FileId) :
    (cursor.enter path).2.path? file =
      if file = (cursor.enter path).1 then some path else cursor.path? file := by
  change (cursor.paths ++ [path])[file]? = if file = cursor.paths.length then _ else _
  split
  · rename_i h
    subst h
    exact List.getElem?_concat_length
  · rename_i h
    rcases Nat.lt_or_gt_of_ne h with h | h
    · exact List.getElem?_append_left h
    · rw [List.getElem?_eq_none (by simp; omega)]
      exact (List.getElem?_eq_none (by omega)).symm

/-! ## Open files -/

theorem opened_eq_cons {cursor : Cursor} {frame : Frame} (h : cursor.current = some frame) :
    cursor.opened = frame :: cursor.suspended := by
  rw [opened, h]

/-- Were files waiting while none is read, they would be open. -/
theorem opened_eq_nil {cursor : Cursor} (h : cursor.current = none) : cursor.opened = [] := by
  rw [opened, h]
  exact cursor.suspended_eq_nil h

theorem head?_opened (cursor : Cursor) : cursor.opened.head? = cursor.current := by
  cases h : cursor.current with
  | none => rw [opened_eq_nil h, List.head?_nil]
  | some frame => rw [opened_eq_cons h, List.head?_cons]

theorem tail_opened (cursor : Cursor) : cursor.opened.tail = cursor.suspended := by
  cases h : cursor.current with
  | none => rw [opened_eq_nil h, cursor.suspended_eq_nil h, List.tail_nil]
  | some frame => rw [opened_eq_cons h, List.tail_cons]

@[simp]
theorem opened_enter (path : String) (cursor : Cursor) :
    (cursor.enter path).2.opened =
      { file := cursor.paths.length, localLine := 1 } :: cursor.opened :=
  rfl

@[simp]
theorem opened_resume (cursor : Cursor) : cursor.resume.opened = cursor.opened.tail := by
  rw [tail_opened]
  cases h : cursor.suspended with
  | nil => exact opened_eq_nil (congrArg List.head? h)
  | cons frame rest =>
    have hopened := @opened_eq_cons cursor.resume _ (congrArg List.head? h)
    exact hopened.trans (congrArg (frame :: ·) (congrArg List.tail h))

@[simp]
theorem opened_advance (cursor : Cursor) :
    cursor.advance.opened = cursor.opened.modifyHead Frame.advance := by
  cases h : cursor.current with
  | none =>
    rw [opened_eq_nil h]
    exact opened_eq_nil (congrArg (Option.map Frame.advance) h)
  | some frame =>
    rw [opened_eq_cons h]
    exact opened_eq_cons (congrArg (Option.map Frame.advance) h)

/-- Outside of any file there is nothing to go back to. -/
theorem resume_of_current_eq_none {cursor : Cursor} (h : cursor.current = none) :
    cursor.resume = cursor := by
  have hnil := cursor.suspended_eq_nil h
  refine Cursor.ext rfl ?_ ?_ rfl
  · exact (congrArg List.head? hnil).trans h.symm
  · exact (congrArg List.tail hnil).trans hnil.symm

/-! ## Depth -/

theorem length_opened (cursor : Cursor) : cursor.opened.length = cursor.depth := by
  unfold opened depth
  cases cursor.current with
  | none => rfl
  | some frame => rfl

@[simp]
theorem depth_enter (path : String) (cursor : Cursor) :
    (cursor.enter path).2.depth = cursor.depth + 1 := by
  rw [← length_opened, opened_enter, List.length_cons, length_opened]

@[simp]
theorem depth_resume (cursor : Cursor) : cursor.resume.depth = cursor.depth - 1 := by
  rw [← length_opened, opened_resume, List.length_tail, length_opened]

@[simp]
theorem depth_advance (cursor : Cursor) : cursor.advance.depth = cursor.depth := by
  rw [← length_opened, opened_advance, List.length_modifyHead, length_opened]

/-- No file is open exactly if none is being read. -/
theorem depth_eq_zero_iff {cursor : Cursor} : cursor.depth = 0 ↔ cursor.current = none := by
  rw [← length_opened, List.length_eq_zero_iff, ← head?_opened, List.head?_eq_none_iff]

theorem leave?_eq_none_iff {cursor : Cursor} : cursor.leave? = none ↔ cursor.depth = 0 := by
  rw [depth_eq_zero_iff]
  unfold leave?
  cases cursor.current with
  | none => simp
  | some frame => simp

/-! ## Leaving -/

/-- A file that is left right after it was entered leaves no trace but its name. -/
theorem leave?_enter (path : String) (cursor : Cursor) :
    (cursor.enter path).2.leave? =
      some ((cursor.enter path).1, { cursor with paths := cursor.paths ++ [path] }) :=
  congrArg some (Prod.ext rfl (Cursor.ext rfl cursor.head?_opened cursor.tail_opened rfl))

end Cursor

end Beamline.Source
