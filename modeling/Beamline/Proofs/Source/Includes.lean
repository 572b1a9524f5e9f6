import Mathlib.Data.List.Basic
import Beamline.Source.Cursor

/-!
# Included files

A cursor enters files, leaves them and goes on from line to line. Files nest like brackets: after a
sequence of moves that leaves every file it enters, the cursor stands where it stood, but for the
lines that were read meanwhile and the names of the files.

* `opened_after_of_balanced`: balanced moves change the lines of the current file only.
* `matched_trace`: a file that is left is the one entered last.
* `depth_after`: the open files are those entered and not left.
* `restores_and_depth`: all of this of every cursor that is reached from the start.
-/

namespace Beamline.Source

/-- A move of the reading cursor. -/
inductive Move where
  /-- Enter a file. -/
  | enter (path : String)
  /-- Leave the current file. -/
  | leave
  /-- Go on to the next line. -/
  | next
  deriving DecidableEq

namespace Move

/-- Whether a file is entered. -/
def isEnter : Move → Bool
  | .enter _ => true
  | .leave | .next => false

/-- The moves leave every file that they enter, and no other. -/
inductive Balanced : List Move → Prop
  | nil : Balanced []
  | next {moves : List Move} : Balanced moves → Balanced (.next :: moves)
  | file (path : String) {inner moves : List Move} :
      Balanced inner → Balanced moves → Balanced (.enter path :: (inner ++ .leave :: moves))

/-- The number of lines that moves go on by in the file that is current before them, when they
start `level` files further inside. -/
def linesFrom : (level : Nat) → List Move → Nat
  | _, [] => 0
  | 0, .next :: moves => linesFrom 0 moves + 1
  | level + 1, .next :: moves => linesFrom (level + 1) moves
  | level, .enter _ :: moves => linesFrom (level + 1) moves
  | level, .leave :: moves => linesFrom (level - 1) moves

/-- Balanced moves inside another file do not count. -/
theorem linesFrom_append {inner : List Move} (h : Balanced inner) (level : Nat)
    (moves : List Move) :
    linesFrom (level + 1) (inner ++ moves) = linesFrom (level + 1) moves := by
  induction h generalizing level moves with
  | nil => simp
  | next _ ih => simp [linesFrom, ih]
  | file path _ _ ihInner ihRest => simp [linesFrom, ihInner, ihRest]

end Move

/-! ## Lines -/

/-- The line `count` lines further on. The greatest line number stays. -/
def skipLines (count line : Nat) : Nat :=
  min (line + count) lastLine

theorem skipLines_zero {line : Nat} (h : line ≤ lastLine) : skipLines 0 line = line := by
  simp [skipLines, h]

theorem skipLines_nextLine (count line : Nat) :
    skipLines count (nextLine line) = skipLines (count + 1) line := by
  simp only [skipLines, nextLine]
  omega

/-- A file in which `count` more lines have been read. -/
def Frame.skip (count : Nat) (frame : Frame) : Frame :=
  { frame with localLine := skipLines count frame.localLine }

open Move (Balanced linesFrom)

/-- A move with the file that was entered or left, if one was. -/
abbrev Moved := Move × Option FileId

namespace Moved

/-- The file that was entered, with its path. -/
def entered? : Moved → Option (FileId × String)
  | (.enter path, some file) => some (file, path)
  | _ => none

/-- Whether a file was left. -/
def hasLeft : Moved → Bool
  | (.leave, some _) => true
  | _ => false

end Moved

namespace Cursor

/-- Makes a move. Returns the file that was entered or left. -/
def move (move : Move) (cursor : Cursor) : Option FileId × Cursor :=
  match move with
  | .enter path => ((cursor.enter path).1, (cursor.enter path).2)
  | .leave =>
    match cursor.leave? with
    | some (file, next) => (some file, next)
    | none => (none, cursor)
  | .next => (none, cursor.advance)

/-- The cursor after moves. -/
def after (moves : List Move) (cursor : Cursor) : Cursor :=
  moves.foldl (fun cursor move => (cursor.move move).2) cursor

/-- The moves with the files that were entered and left. -/
def trace (cursor : Cursor) : List Move → List Moved
  | [] => []
  | move :: moves => (move, (cursor.move move).1) :: (cursor.move move).2.trace moves

/-! ## Moves -/

@[simp]
theorem move_enter (path : String) (cursor : Cursor) :
    cursor.move (.enter path) = (some cursor.paths.length, (cursor.enter path).2) :=
  rfl

@[simp]
theorem move_leave (cursor : Cursor) :
    cursor.move .leave = (cursor.current.map Frame.file, cursor.resume) := by
  unfold move leave?
  cases h : cursor.current with
  | none => rw [resume_of_current_eq_none h]; rfl
  | some frame => rfl

@[simp]
theorem move_next (cursor : Cursor) : cursor.move .next = (none, cursor.advance) :=
  rfl

@[simp]
theorem after_nil (cursor : Cursor) : cursor.after [] = cursor :=
  rfl

@[simp]
theorem after_cons (move : Move) (moves : List Move) (cursor : Cursor) :
    cursor.after (move :: moves) = (cursor.move move).2.after moves :=
  rfl

theorem after_append (moves more : List Move) (cursor : Cursor) :
    cursor.after (moves ++ more) = (cursor.after moves).after more := by
  simp [after]

theorem trace_append (moves more : List Move) (cursor : Cursor) :
    cursor.trace (moves ++ more) = cursor.trace moves ++ (cursor.after moves).trace more := by
  induction moves generalizing cursor with
  | nil => simp [trace]
  | cons move moves ih => simp [trace, ih]

theorem map_fst_trace (moves : List Move) (cursor : Cursor) :
    (cursor.trace moves).map Prod.fst = moves := by
  induction moves generalizing cursor with
  | nil => simp [trace]
  | cons move moves ih => simp [trace, ih]

/-! ## Lines -/

/-- The line numbers of the cursor are line numbers of an input. -/
structure WithinLines (cursor : Cursor) : Prop where
  /-- The global line. -/
  line_le : cursor.line ≤ lastLine
  /-- The lines in the open files. -/
  localLine_le : ∀ frame ∈ cursor.opened, frame.localLine ≤ lastLine

theorem withinLines_start : start.WithinLines where
  line_le := by decide
  localLine_le := by simp [start, opened]

theorem WithinLines.move {cursor : Cursor} (h : cursor.WithinLines) (move : Move) :
    (cursor.move move).2.WithinLines := by
  match move with
  | .enter path =>
    refine ⟨h.line_le, ?_⟩
    intro frame hframe
    rcases List.mem_cons.1 hframe with rfl | hframe
    · show 1 ≤ lastLine
      decide
    · exact h.localLine_le frame hframe
  | .leave =>
    -- the file resumed was open before, at the line at which it waited
    refine ⟨by simpa using h.line_le, fun frame hframe => ?_⟩
    rw [move_leave, opened_resume] at hframe
    exact h.localLine_le frame (List.mem_of_mem_tail hframe)
  | .next =>
    -- of the open files only the current one goes on
    refine ⟨Nat.min_le_right .., fun frame hframe => ?_⟩
    rw [move_next, opened_advance] at hframe
    match hopened : cursor.opened with
    | [] => simp [hopened] at hframe
    | first :: rest =>
      simp only [hopened, List.modifyHead_cons] at hframe
      rcases List.mem_cons.1 hframe with rfl | hframe
      · exact Nat.min_le_right ..
      · exact h.localLine_le frame (by simp [hopened, hframe])

theorem WithinLines.after {cursor : Cursor} (h : cursor.WithinLines) (moves : List Move) :
    (cursor.after moves).WithinLines := by
  induction moves generalizing cursor with
  | nil => exact h
  | cons move moves ih => exact ih (h.move move)

/-- The global line goes on with every line read, in whatever file. -/
theorem line_after {cursor : Cursor} (h : cursor.WithinLines) (moves : List Move) :
    (cursor.after moves).line = skipLines (moves.count .next) cursor.line := by
  induction moves generalizing cursor with
  | nil => simp [skipLines_zero h.line_le]
  | cons move moves ih =>
    rw [after_cons, ih (h.move move)]
    match move with
    | .enter path | .leave => simp
    | .next => simp [skipLines_nextLine]

/-- Balanced moves change the line in the current file only, by the lines read in it. -/
theorem opened_after_of_balanced {moves : List Move} (hmoves : Balanced moves) {cursor : Cursor}
    (h : cursor.WithinLines) :
    (cursor.after moves).opened = cursor.opened.modifyHead (Frame.skip (linesFrom 0 moves)) := by
  induction hmoves generalizing cursor with
  | nil =>
    match hopened : cursor.opened with
    | [] => simp
    | frame :: rest =>
      have hle := h.localLine_le frame (by simp [hopened])
      simp [linesFrom, Frame.skip, skipLines_zero hle]
  | @next moves hmoves ih =>
    -- one line and then the others are as many lines at once, also at the greatest number
    have hskip : Frame.skip (linesFrom 0 (.next :: moves)) =
        Frame.skip (linesFrom 0 moves) ∘ Frame.advance := by
      ext frame
      simp [Frame.skip, Frame.advance, linesFrom, skipLines_nextLine]
    rw [after_cons, ih (h.move .next), move_next, opened_advance, hskip, List.modifyHead_modifyHead]
  | @file path inner moves hinner hmoves ihInner ihRest =>
    -- what is entered inside is gone again, and what waits has been left alone
    have henter := h.move (.enter path)
    rw [after_cons, after_append, after_cons, ihRest ((henter.after inner).move .leave),
      move_leave, opened_resume, ihInner henter, linesFrom, Move.linesFrom_append hinner]
    simp [linesFrom]

/-! ## Files -/

/-- A file keeps its path. -/
theorem path?_move_of_path? {cursor : Cursor} {file : FileId} {path : String}
    (h : cursor.path? file = some path) (move : Move) :
    (cursor.move move).2.path? file = some path := by
  match move with
  | .enter other =>
    -- numbers are given out in order, so that the new file has another
    have hne : file ≠ (cursor.enter other).1 := Nat.ne_of_lt (List.getElem?_eq_some_iff.1 h).1
    exact (path?_enter other cursor file).trans ((if_neg hne).trans h)
  | .leave => simpa [path?] using h
  | .next => simpa [path?] using h

theorem path?_after_of_path? {cursor : Cursor} {file : FileId} {path : String}
    (h : cursor.path? file = some path) (moves : List Move) :
    (cursor.after moves).path? file = some path := by
  induction moves generalizing cursor with
  | nil => exact h
  | cons move moves ih => exact ih (path?_move_of_path? h move)

/-- A file that is entered is new. -/
theorem path?_of_entered? {cursor : Cursor} {move : Move} {file : FileId} {path : String}
    (h : Moved.entered? (move, (cursor.move move).1) = some (file, path)) :
    cursor.path? file = none ∧ (cursor.move move).2.path? file = some path := by
  match move with
  | .enter other =>
    obtain ⟨rfl, rfl⟩ : cursor.paths.length = file ∧ other = path := by
      simpa [Moved.entered?] using h
    simp [path?]
  | .leave => simp [Moved.entered?] at h
  | .next => simp [Moved.entered?] at h

/-- The files that are entered were not known before and are known by their paths afterwards. -/
theorem path?_of_mem_entered {moves : List Move} {cursor : Cursor} {file : FileId} {path : String}
    (h : (file, path) ∈ (cursor.trace moves).filterMap Moved.entered?) :
    cursor.path? file = none ∧ (cursor.after moves).path? file = some path := by
  induction moves generalizing cursor with
  | nil => simp [trace] at h
  | cons move moves ih =>
    rw [trace, List.mem_filterMap] at h
    obtain ⟨moved, hmoved, hentered⟩ := h
    rcases List.mem_cons.1 hmoved with rfl | hmoved
    · -- what the first move names keeps its name under the others
      obtain ⟨hnone, hsome⟩ := path?_of_entered? hentered
      exact ⟨hnone, path?_after_of_path? hsome moves⟩
    · obtain ⟨hnone, hsome⟩ := ih (List.mem_filterMap.2 ⟨moved, hmoved, hentered⟩)
      refine ⟨?_, hsome⟩
      -- a file that was known would be known still
      refine Option.eq_none_iff_forall_ne_some.2 fun other hother => ?_
      simp [path?_move_of_path? hother move] at hnone

/-- No file is entered twice under one number. -/
theorem nodup_entered (moves : List Move) (cursor : Cursor) :
    (((cursor.trace moves).filterMap Moved.entered?).map Prod.fst).Nodup := by
  induction moves generalizing cursor with
  | nil => simp [trace]
  | cons move moves ih =>
    rw [trace, List.filterMap_cons]
    split
    · exact ih _
    · rename_i entry hentry
      rw [List.map_cons, List.nodup_cons]
      refine ⟨fun hmem => ?_, ih _⟩
      obtain ⟨other, hother, hfile⟩ := List.mem_map.1 hmem
      -- the first file is known when the others are entered
      have hknown := (path?_of_entered? hentry).2
      have hnew := (path?_of_mem_entered hother).1
      simp [hfile, hknown] at hnew

/-- The open files are those entered and not left. -/
theorem depth_after (moves : List Move) (cursor : Cursor) :
    (cursor.after moves).depth + (cursor.trace moves).countP Moved.hasLeft =
      cursor.depth + moves.countP Move.isEnter := by
  induction moves generalizing cursor with
  | nil => simp [trace]
  | cons move moves ih =>
    have hrest := ih (cursor.move move).2
    rw [after_cons, trace, List.countP_cons, List.countP_cons]
    match move with
    | .enter path =>
      simp only [move_enter, depth_enter] at hrest
      simp only [move_enter, Moved.hasLeft, Move.isEnter, Bool.false_eq_true, if_false, if_true]
      omega
    | .leave =>
      -- outside of any file nothing is left
      match hcurrent : cursor.current with
      | none =>
        have hleft : (cursor.move .leave).1 = none := by rw [move_leave, hcurrent]; rfl
        have hdepth := depth_eq_zero_iff.2 hcurrent
        rw [move_leave, depth_resume, hdepth] at hrest
        rw [hleft, move_leave, hdepth]
        exact hrest
      | some frame =>
        have hleft : (cursor.move .leave).1 = some frame.file := by rw [move_leave, hcurrent]; rfl
        have hdepth : cursor.depth ≠ 0 := fun h => by
          cases hcurrent.symm.trans (depth_eq_zero_iff.1 h)
        simp only [move_leave, depth_resume] at hrest
        rw [hleft, move_leave]
        simp only [Moved.hasLeft, Move.isEnter, Bool.false_eq_true, if_false, if_true]
        omega
    | .next => simpa [Moved.hasLeft, Move.isEnter] using hrest

/-! ## Matching moves -/

/-- A file that is left is the one entered at the move that the leave closes. -/
def Matched (trace : List Moved) : Prop :=
  ∀ before left after, trace = before ++ (.leave, left) :: after →
    ∃ outer path file inner, before = outer ++ (.enter path, some file) :: inner ∧
      Balanced (inner.map Prod.fst) ∧ left = some file

theorem Matched.append {trace more : List Moved} (h : Matched trace) (hmore : Matched more) :
    Matched (trace ++ more) := by
  intro before left after heq
  rcases List.append_eq_append_iff.1 heq with ⟨front, rfl, hback⟩ | ⟨back, hfront, hback⟩
  · -- a leave among the later moves has its match there
    obtain ⟨outer, path, file, inner, rfl, hinner, hleft⟩ := hmore front left after hback
    exact ⟨trace ++ outer, path, file, inner, by simp, hinner, hleft⟩
  · match back with
    | [] =>
      -- the leave is the first of the later moves
      obtain ⟨outer, path, file, inner, hnil, -⟩ := hmore [] left after (by simpa using hback.symm)
      simp at hnil
    | moved :: back =>
      obtain ⟨rfl, -⟩ : (.leave, left) = moved ∧ _ := by simpa using hback
      exact h before left back hfront

/-- The moves between entering a file and leaving it. -/
theorem Matched.file {inner : List Moved} (hinner : Balanced (inner.map Prod.fst))
    (h : Matched inner) (path : String) (file : FileId) :
    Matched ((.enter path, some file) :: (inner ++ [(.leave, some file)])) := by
  intro before left after heq
  match before with
  | [] => simp at heq
  | moved :: before =>
    obtain ⟨rfl, htail⟩ := List.cons.inj heq
    rcases List.append_eq_append_iff.1 htail with ⟨front, rfl, hback⟩ | ⟨back, rfl, hback⟩
    · match front with
      | [] =>
        -- the last leave closes the file
        obtain ⟨rfl, -⟩ : some file = left ∧ _ := by simpa using hback
        exact ⟨[], path, file, inner, by simp, hinner, rfl⟩
      | other :: front => simp at hback
    · match back with
      | [] =>
        obtain ⟨rfl, -⟩ : left = some file ∧ _ := by simpa using hback
        exact ⟨[], path, file, before, by simp, by simpa using hinner, rfl⟩
      | other :: back =>
        -- any other leave is one of the moves inside
        obtain ⟨rfl, -⟩ : (.leave, left) = other ∧ _ := by simpa using hback
        obtain ⟨outer, p, f, rest, rfl, hrest, hleft⟩ := h before left back rfl
        exact ⟨(.enter path, some file) :: outer, p, f, rest, by simp, hrest, hleft⟩

/-- In balanced moves, a file that is left is the one entered at the matching move. -/
theorem matched_trace {moves : List Move} (hmoves : Balanced moves) {cursor : Cursor}
    (h : cursor.WithinLines) : Matched (cursor.trace moves) := by
  induction hmoves generalizing cursor with
  | nil =>
    intro before left after heq
    simp [trace] at heq
  | @next moves hmoves ih =>
    have hnext : Matched [(.next, none)] := by
      intro before left after heq
      simp [List.singleton_eq_append_iff] at heq
    simpa [trace] using hnext.append (ih (h.move .next))
  | @file path inner moves hinner hmoves ihInner ihRest =>
    have henter := h.move (.enter path)
    -- the file entered is the current one again when it is left
    have hleft : (((cursor.move (.enter path)).2.after inner).move .leave).1 =
        some cursor.paths.length := by
      rw [move_leave, ← head?_opened, opened_after_of_balanced hinner henter]
      simp [Frame.skip]
    have hblock := (ihInner henter).file (by rwa [map_fst_trace]) path cursor.paths.length
    have hrest := ihRest ((henter.after inner).move .leave)
    have htrace : cursor.trace (.enter path :: (inner ++ .leave :: moves)) =
        (.enter path, some cursor.paths.length) ::
          ((cursor.move (.enter path)).2.trace inner ++ [(.leave, some cursor.paths.length)]) ++
          (((cursor.move (.enter path)).2.after inner).move .leave).2.trace moves := by
      rw [trace, trace_append, trace, hleft]
      simp
    rw [htrace]
    exact hblock.append hrest

/-! ## Brackets -/

/-- The moves leave the cursor where it stands, but for the lines that they read and the files that
they name. -/
structure Restores (cursor : Cursor) (moves : List Move) : Prop where
  /-- The file being read is as before, as many lines further on as were read in it. -/
  current : (cursor.after moves).current = cursor.current.map (Frame.skip (linesFrom 0 moves))
  /-- The files that wait are as before, each at the line at which it was left. -/
  suspended : (cursor.after moves).suspended = cursor.suspended
  /-- As many files are open as before. -/
  depth : (cursor.after moves).depth = cursor.depth
  /-- The global line is as much further on as lines were read. -/
  line : (cursor.after moves).line = skipLines (moves.count .next) cursor.line
  /-- Each file that is left is the one entered at the matching move. -/
  matched : Matched (cursor.trace moves)
  /-- The files entered have different numbers. -/
  nodup_entered : (((cursor.trace moves).filterMap Moved.entered?).map Prod.fst).Nodup
  /-- They had no path before, and have the one under which they were entered now. -/
  path?_of_entered : ∀ file path, (file, path) ∈ (cursor.trace moves).filterMap Moved.entered? →
    cursor.path? file = none ∧ (cursor.after moves).path? file = some path
  /-- The files known before keep their paths. -/
  path?_of_known : ∀ file path, cursor.path? file = some path →
    (cursor.after moves).path? file = some path

/-- From wherever the cursor has come from the start, balanced moves bring it back. Whatever the
moves before were, the open files are those entered and not left, and there is nothing to leave
exactly if none is open. -/
theorem restores_and_depth (before : List Move) :
    let cursor := start.after before
    (∀ moves, Balanced moves → cursor.Restores moves) ∧
      cursor.depth + (start.trace before).countP Moved.hasLeft = before.countP Move.isEnter ∧
      ((cursor.move .leave).1 = none ↔ cursor.depth = 0) ∧
      (cursor.depth = 0 → (cursor.move .leave).2 = cursor) := by
  intro cursor
  have hwithin : cursor.WithinLines := withinLines_start.after before
  refine ⟨fun moves hmoves => ?_, ?_, ?_, ?_⟩
  · -- the current file is the first of the open ones, those that wait are the others
    have hopened := opened_after_of_balanced hmoves hwithin
    exact {
      current := by rw [← head?_opened, hopened, List.head?_modifyHead, head?_opened]
      suspended := by rw [← tail_opened, hopened, List.tail_modifyHead, tail_opened]
      depth := by rw [← length_opened, hopened, List.length_modifyHead, length_opened]
      line := line_after hwithin moves
      matched := matched_trace hmoves hwithin
      nodup_entered := nodup_entered moves cursor
      path?_of_entered := fun _ _ h => path?_of_mem_entered h
      path?_of_known := fun _ _ h => path?_after_of_path? h moves }
  · calc
      cursor.depth + (start.trace before).countP Moved.hasLeft =
          start.depth + before.countP Move.isEnter := depth_after before start
      _ = before.countP Move.isEnter := by simp [start, depth]
  · rw [move_leave, Option.map_eq_none_iff, depth_eq_zero_iff]
  · intro hdepth
    rw [move_leave, resume_of_current_eq_none (depth_eq_zero_iff.1 hdepth)]

/-- A file with two files inside, one of which includes another, read from within a file. -/
theorem restores_and_depth_of_includes :
    let before : List Move := [.leave, .enter "ring", .next, .enter "arc", .next, .next]
    let moves : List Move :=
      [.next, .enter "cell", .next, .enter "quad", .next, .leave, .leave, .enter "cell", .leave,
        .next]
    let cursor := start.after before
    Balanced moves ∧ cursor.Restores moves ∧
      cursor.current = some ⟨1, 3⟩ ∧ (cursor.after moves).current = some ⟨1, 5⟩ ∧
      (cursor.after moves).suspended = [⟨0, 2⟩] ∧ (cursor.after moves).line = 8 := by
  intro before moves cursor
  have hmoves : Balanced moves :=
    .next (.file "cell" (.next (.file "quad" (.next .nil) .nil)) (.file "cell" .nil (.next .nil)))
  have hrestores := (restores_and_depth before).1 moves hmoves
  refine ⟨hmoves, hrestores, by decide, ?_, ?_, ?_⟩
  · rw [hrestores.current]
    decide
  · rw [hrestores.suspended]
    decide
  · rw [hrestores.line]
    decide

end Cursor

end Beamline.Source
