import Mathlib.Data.List.Induction
import Beamline.Commentary
import Beamline.Proofs.Sorting

/-!
# The order of comments

Comments may be read at any positions, in any order. The log keeps them sorted by line, those of
one line in the order in which they were read, and so a search by halving finds both the place of
a new comment and the first comment of a line.

* `filter_captureAll`: the comments of one line are kept in the order of reading.
* `capture_eq_insertIdx`, `atLine?_eq_filter`: the searches by halving.
* `lists_captureAll`: after comments have been read, the log lists them as a stable sort does.
-/

namespace Beamline.Commentary

open Source (Position lastLine)
open Sorting (partitionPoint)

/-- Keeps comments, one after the other. -/
def captureAll (captured : List Comment) (log : Commentary) : Commentary :=
  captured.foldl (fun log comment => log.capture comment.text comment.pos) log

theorem captureAll_concat (captured : List Comment) (comment : Comment) (log : Commentary) :
    log.captureAll (captured ++ [comment]) =
      (log.captureAll captured).capture comment.text comment.pos := by
  simp [captureAll]

/-- The log holds the comments that were read, in the order of a stable sort, and finds them. -/
structure Lists (log : Commentary) (captured : List Comment) : Prop where
  /-- The comments are those read, stably sorted by line. -/
  comments : log.comments = captured.mergeSort fun a b => a.pos.line ≤ b.pos.line
  /-- The comment of a line is the one read first, and there is none only if none was read. -/
  atLine? : ∀ line, log.atLine? line = captured.find? fun comment => comment.pos.line = line
  /-- The comments at the end of the input are those read there, in the order of reading. -/
  trailing : log.trailing = captured.filter (·.pos.isEndOfInput)
  /-- They come last. -/
  trailing_suffix : log.trailing <:+ log.comments
  /-- A search by halving finds the place of a new comment. -/
  capture_eq : ∀ text pos, (log.capture text pos).comments =
    log.comments.insertIdx
      (partitionPoint (fun comment => comment.pos.line ≤ pos.line) log.comments) { text, pos }
  /-- A search by halving finds the first comment of a line. -/
  atLine?_eq : ∀ line, log.atLine? line =
    (log.comments[partitionPoint (fun comment => comment.pos.line < line) log.comments]?).filter
      fun comment => comment.pos.line = line

/-! ## Comments of one line -/

/-- A new comment comes behind the others of its line, and those of other lines stay. -/
theorem filter_insertByLine (comment : Comment) {comments : List Comment}
    (h : comments.Pairwise (·.pos.line ≤ ·.pos.line)) (line : Nat) :
    (insertByLine comment comments).filter (·.pos.line = line) =
      (comments ++ [comment]).filter (·.pos.line = line) := by
  induction comments with
  | nil => simp [insertByLine]
  | cons head tail ih =>
    obtain ⟨hhead, htail⟩ := List.pairwise_cons.1 h
    rw [insertByLine]
    split
    · simp only [List.cons_append, List.filter_cons, ih htail]
    · rename_i hlt
      -- all that is left lies on later lines
      have hlater : ∀ other ∈ head :: tail, comment.pos.line < other.pos.line := by
        intro other hother
        rcases List.mem_cons.1 hother with rfl | hother
        · omega
        · have := hhead other hother
          omega
      by_cases hline : comment.pos.line = line
      · have hnone : (head :: tail).filter (·.pos.line = line) = [] := by
          refine List.filter_eq_nil_iff.2 fun other hother => ?_
          have := hlater other hother
          simp only [decide_eq_true_eq]
          omega
        rw [List.filter_append, hnone, List.filter_cons_of_pos (by simpa using hline), hnone]
        simp [hline]
      · rw [List.filter_append, List.filter_cons_of_neg (by simpa using hline)]
        simp [hline]

/-- Comments that were read lie in the log in the order of their lines. -/
theorem sorted_captureAll (captured : List Comment) : (empty.captureAll captured).Sorted := by
  induction captured using List.reverseRecOn with
  | nil => exact sorted_empty
  | append_singleton captured comment ih =>
    rw [captureAll_concat]
    exact sorted_capture _ _ ih

/-- The comments of a line lie in the log in the order in which they were read. -/
theorem filter_captureAll (captured : List Comment) (line : Nat) :
    (empty.captureAll captured).comments.filter (·.pos.line = line) =
      captured.filter (·.pos.line = line) := by
  induction captured using List.reverseRecOn with
  | nil => simp [captureAll, empty]
  | append_singleton captured comment ih =>
    rw [captureAll_concat, List.filter_append, ← ih, ← List.filter_append]
    exact filter_insertByLine comment (sorted_captureAll captured) line

/-! ## Search -/

/-- In the order of lines, those up to a line come before the others. -/
theorem Sorted.pairwise_le {log : Commentary} (h : log.Sorted) (line : Nat) :
    log.comments.Pairwise fun a b => decide (b.pos.line ≤ line) = true →
      decide (a.pos.line ≤ line) = true :=
  h.imp fun hab hb => by
    simp only [decide_eq_true_eq] at hb ⊢
    omega

/-- In the order of lines, those before a line come before the others. -/
theorem Sorted.pairwise_lt {log : Commentary} (h : log.Sorted) (line : Nat) :
    log.comments.Pairwise fun a b => decide (b.pos.line < line) = true →
      decide (a.pos.line < line) = true :=
  h.imp fun hab hb => by
    simp only [decide_eq_true_eq] at hb ⊢
    omega

/-- A new comment is put where the comments up to its line end. -/
theorem insertByLine_append (comment : Comment) {front back : List Comment}
    (hfront : ∀ other ∈ front, other.pos.line ≤ comment.pos.line)
    (hback : ∀ other ∈ back, comment.pos.line < other.pos.line) :
    insertByLine comment (front ++ back) = (front ++ back).insertIdx front.length comment := by
  induction front with
  | nil =>
    match back with
    | [] => simp [insertByLine]
    | head :: tail =>
      have := hback head (by simp)
      simp [insertByLine, Nat.not_le.2 this]
  | cons head front ih =>
    simp only [List.forall_mem_cons] at hfront
    simp [insertByLine, hfront.1, ih hfront.2]

/-- The first comment of a line is the first of those from the line on, if it is one of them. -/
theorem find?_append {front back : List Comment} {line : Nat}
    (hfront : ∀ other ∈ front, other.pos.line < line)
    (hback : ∀ other ∈ back, line ≤ other.pos.line)
    (hsorted : back.Pairwise (·.pos.line ≤ ·.pos.line)) :
    (front ++ back).find? (fun comment => comment.pos.line = line) =
      ((front ++ back)[front.length]?).filter fun comment => comment.pos.line = line := by
  have hnone : front.find? (fun comment => comment.pos.line = line) = none := by
    refine List.find?_eq_none.2 fun other hother => ?_
    have := hfront other hother
    simp only [decide_eq_true_eq]
    omega
  rw [List.find?_append, hnone, Option.none_or, List.getElem?_append_right (Nat.le_refl _),
    Nat.sub_self]
  match back with
  | [] => simp
  | head :: tail =>
    by_cases hline : head.pos.line = line
    · simp [hline, Option.filter_some]
    · have hhead := hback head (by simp)
      have htail : ∀ other ∈ tail, other.pos.line ≠ line := by
        intro other hother
        have := (List.pairwise_cons.1 hsorted).1 other hother
        omega
      simpa [hline, Option.filter_some] using htail

/-- A search by halving finds the place of a new comment. -/
theorem capture_eq_insertIdx {log : Commentary} (h : log.Sorted) (text : String)
    (pos : Position) :
    (log.capture text pos).comments = log.comments.insertIdx
      (partitionPoint (fun comment => comment.pos.line ≤ pos.line) log.comments) { text, pos } := by
  obtain ⟨front, back, hsplit, hfront, hback⟩ := Sorting.exists_split (h.pairwise_le pos.line)
  rw [capture, hsplit, Sorting.partitionPoint_append hfront hback]
  simp only [decide_eq_true_eq, decide_eq_false_iff_not, Nat.not_le] at hfront hback
  exact insertByLine_append { text, pos } hfront hback

/-- A search by halving finds the first comment of a line. -/
theorem atLine?_eq_filter {log : Commentary} (h : log.Sorted) (line : Nat) :
    log.atLine? line =
      (log.comments[partitionPoint (fun comment => comment.pos.line < line) log.comments]?).filter
        fun comment => comment.pos.line = line := by
  obtain ⟨front, back, hsplit, hfront, hback⟩ := Sorting.exists_split (h.pairwise_lt line)
  have hsorted : (front ++ back).Pairwise (·.pos.line ≤ ·.pos.line) := hsplit ▸ h
  rw [atLine?, hsplit, Sorting.partitionPoint_append hfront hback]
  simp only [decide_eq_true_eq, decide_eq_false_iff_not, Nat.not_lt] at hfront hback
  exact find?_append hfront hback (List.pairwise_append.1 hsorted).2.1

/-- In the order of lines, the comments at the end of the input come last. -/
theorem trailing_isSuffix {log : Commentary} (h : log.Sorted)
    (hlast : ∀ comment ∈ log.comments, comment.pos.line ≤ lastLine) :
    log.trailing <:+ log.comments := by
  obtain ⟨front, back, hsplit, hfront, hback⟩ := Sorting.exists_split (h.pairwise_lt lastLine)
  simp only [decide_eq_true_eq, decide_eq_false_iff_not, Nat.not_lt] at hfront hback
  have hnone : front.filter (·.pos.isEndOfInput) = [] := by
    refine List.filter_eq_nil_iff.2 fun comment hcomment => ?_
    have := hfront comment hcomment
    simp only [Position.isEndOfInput, beq_iff_eq]
    omega
  have hall : back.filter (·.pos.isEndOfInput) = back := by
    refine List.filter_eq_self.2 fun comment hcomment => ?_
    have hle := hlast comment (by simp [hsplit, hcomment])
    have hge := hback comment hcomment
    simp only [Position.isEndOfInput, beq_iff_eq]
    omega
  rw [trailing, hsplit, List.filter_append, hnone, hall, List.nil_append]
  exact List.suffix_append front back

/-! ## The log as a stable sort -/

/-- Whatever comments are read, the log lists them as a stable sort by line does, and finds them
by halving. Line numbers are at most the one that stands for the end of the input. -/
theorem lists_captureAll (captured : List Comment)
    (hlast : ∀ comment ∈ captured, comment.pos.line ≤ lastLine) :
    (empty.captureAll captured).Lists captured := by
  have hsorted := sorted_captureAll captured
  have hfilter := filter_captureAll captured
  have hcomments : (empty.captureAll captured).comments =
      captured.mergeSort fun a b => a.pos.line ≤ b.pos.line :=
    Sorting.eq_mergeSort hsorted hfilter
  refine ⟨hcomments, fun line => ?_, hfilter lastLine, trailing_isSuffix hsorted ?_,
    capture_eq_insertIdx hsorted, atLine?_eq_filter hsorted⟩
  · rw [atLine?, ← List.head?_filter, ← List.head?_filter, hfilter]
  · intro comment hcomment
    rw [hcomments, List.mem_mergeSort] at hcomment
    exact hlast comment hcomment

/-- Comments of two lines and of the end of the input, read out of order. -/
theorem lists_captureAll_of_out_of_order :
    let captured : List Comment :=
      [⟨"b", .inBuffer 2⟩, ⟨"end", .endOfInput⟩, ⟨"a", .inBuffer 1⟩, ⟨"c", .inBuffer 2⟩]
    let log := empty.captureAll captured
    (∀ comment ∈ captured, comment.pos.line ≤ lastLine) ∧ log.Lists captured ∧
      log.comments.map Comment.text = ["a", "b", "c", "end"] ∧
      (log.atLine? 2).map Comment.text = some "b" ∧ log.atLine? 3 = none := by
  intro captured log
  have hlast : ∀ comment ∈ captured, comment.pos.line ≤ lastLine := by decide
  have hlists : log.Lists captured := lists_captureAll captured hlast
  refine ⟨hlast, hlists, by decide, ?_, ?_⟩
  · rw [hlists.atLine?]
    decide
  · rw [hlists.atLine?]
    decide

end Beamline.Commentary
