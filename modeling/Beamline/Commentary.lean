import Beamline.Source.Position

/-!
# Commentary

Comment blocks nest. While one is open, the input is commentary, and its text is kept with the
position at which it was read, ordered by line; texts of one line stay in the order in which they
came.

* `mem_comments_capture`: capturing keeps all comments and adds the new one.
* `sorted_capture`: the comments stay ordered by line.
-/

namespace Beamline

open Source (Position)

/-- A piece of commentary. -/
structure Comment where
  /-- The text as read. -/
  text : String
  /-- Where it was read. -/
  pos : Position
  deriving DecidableEq

/-- The open comment blocks and the commentary read so far. -/
structure Commentary where
  /-- How many comment blocks are open. -/
  depth : Nat
  /-- The comments, ordered by line. -/
  comments : List Comment
  deriving DecidableEq

namespace Commentary

/-! ## Blocks -/

/-- The end of a comment block that was not begun. -/
inductive UnmatchedEnd where
  | mk
  deriving DecidableEq

/-- The text of an unmatched end. -/
def UnmatchedEnd.message : UnmatchedEnd → String
  | .mk => "end of comment without a matching begin"

/-- The most blocks that can be open at once. -/
def maxDepth : Nat :=
  UInt32.size - 1

/-- No block open and nothing read. -/
def empty : Commentary where
  depth := 0
  comments := []

/-- Opens a block. -/
def begin (c : Commentary) : Commentary :=
  { c with depth := min (c.depth + 1) maxDepth }

/-- Closes the innermost open block. -/
def finish (c : Commentary) : Except UnmatchedEnd Commentary :=
  if c.depth = 0 then .error .mk else .ok { c with depth := c.depth - 1 }

/-- Whether a block is open. -/
def isActive (c : Commentary) : Bool :=
  0 < c.depth

/-! ## Comments -/

/-- The comments with one more, which comes after all of its line and of the lines before. -/
def insertByLine (comment : Comment) : List Comment → List Comment
  | [] => [comment]
  | head :: tail =>
    if head.pos.line ≤ comment.pos.line then
      head :: insertByLine comment tail
    else
      comment :: head :: tail

/-- Keeps a text read at `pos`. -/
def capture (text : String) (pos : Position) (c : Commentary) : Commentary :=
  { c with comments := insertByLine { text, pos } c.comments }

/-- The first comment of a line. -/
def atLine? (c : Commentary) (line : Nat) : Option Comment :=
  c.comments.find? fun comment => comment.pos.line = line

/-- The comments read after the last line of the input. -/
def trailing (c : Commentary) : List Comment :=
  c.comments.filter (·.pos.isEndOfInput)

/-- The number of comments. -/
def size (c : Commentary) : Nat :=
  c.comments.length

/-! ## Order -/

/-- The comments are ordered by line. -/
def Sorted (c : Commentary) : Prop :=
  c.comments.Pairwise (·.pos.line ≤ ·.pos.line)

theorem sorted_empty : empty.Sorted :=
  .nil

theorem perm_insertByLine (comment : Comment) (comments : List Comment) :
    (insertByLine comment comments).Perm (comment :: comments) := by
  induction comments with
  | nil => exact .rfl
  | cons head tail ih =>
    rw [insertByLine]
    split
    · exact (ih.cons head).trans (.swap ..)
    · exact .rfl

theorem pairwise_insertByLine (comment : Comment) {comments : List Comment}
    (h : comments.Pairwise (·.pos.line ≤ ·.pos.line)) :
    (insertByLine comment comments).Pairwise (·.pos.line ≤ ·.pos.line) := by
  induction comments with
  | nil => exact List.pairwise_singleton ..
  | cons head tail ih =>
    obtain ⟨hhead, htail⟩ := List.pairwise_cons.1 h
    rw [insertByLine]
    split
    · rename_i hle
      refine List.pairwise_cons.2 ⟨fun other hmem => ?_, ih htail⟩
      rcases List.mem_cons.1 ((perm_insertByLine comment tail).mem_iff.1 hmem) with rfl | hmem
      · exact hle
      · exact hhead other hmem
    · rename_i hlt
      refine List.pairwise_cons.2 ⟨fun other hmem => ?_, h⟩
      rcases List.mem_cons.1 hmem with rfl | hmem
      · omega
      · have := hhead other hmem
        omega

/-- Capturing keeps all comments and adds the new one. -/
theorem mem_comments_capture {text : String} {pos : Position} {c : Commentary}
    {comment : Comment} :
    comment ∈ (c.capture text pos).comments ↔ comment = { text, pos } ∨ comment ∈ c.comments :=
  (perm_insertByLine { text, pos } c.comments).mem_iff.trans List.mem_cons

/-- Capturing keeps the comments ordered by line. -/
theorem sorted_capture (text : String) (pos : Position) {c : Commentary} (h : c.Sorted) :
    (c.capture text pos).Sorted :=
  pairwise_insertByLine { text, pos } h

theorem depth_capture (text : String) (pos : Position) (c : Commentary) :
    (c.capture text pos).depth = c.depth :=
  rfl

end Commentary

end Beamline
