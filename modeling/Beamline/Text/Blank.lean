/-!
# Blanks

A blank is a character with the Unicode property `White_Space`. Trimming takes the blanks off
both ends of a text and leaves those inside it alone.

* `isBlank_of_isWhitespace`: the blanks include the ASCII whitespace of `Char.isWhitespace`.
* `trim_trim`: trimming a second time changes nothing.
-/

namespace Beamline.Text

/-- The inclusive ranges of code points with the property `White_Space`, ascending. -/
def blankRanges : List (Nat × Nat) :=
  [(0x9, 0xD), (0x20, 0x20), (0x85, 0x85), (0xA0, 0xA0), (0x1680, 0x1680), (0x2000, 0x200A),
    (0x2028, 0x2029), (0x202F, 0x202F), (0x205F, 0x205F), (0x3000, 0x3000)]

/-- Whether `c` has the property `White_Space`. -/
def isBlank (c : Char) : Bool :=
  blankRanges.any fun range => range.1 ≤ c.toNat && c.toNat ≤ range.2

/-- Every whitespace character of ASCII is a blank. -/
theorem isBlank_of_isWhitespace {c : Char} (h : c.isWhitespace = true) : isBlank c = true := by
  simp only [Char.isWhitespace, Bool.or_eq_true, decide_eq_true_eq] at h
  rcases h with ((h | h) | h) | h <;> subst h <;> decide

/-- The characters of `cs` from the first that is no blank. -/
def dropBlanks (cs : List Char) : List Char :=
  cs.dropWhile isBlank

/-- The characters of `cs` up to the last that is no blank. -/
def dropBlanksEnd (cs : List Char) : List Char :=
  (dropBlanks cs.reverse).reverse

/-- `text` without the blanks at its two ends. -/
def trim (text : String) : String :=
  String.ofList (dropBlanksEnd (dropBlanks text.toList))

/-- No blank stands at the start of what `dropBlanks` leaves. -/
theorem dropBlanks_eq_self_iff {cs : List Char} :
    dropBlanks cs = cs ↔ ∀ c ∈ cs.head?, isBlank c = false := by
  cases cs with
  | nil => simp [dropBlanks]
  | cons c cs =>
    cases hc : isBlank c with
    | false => simp [dropBlanks, hc]
    | true =>
      simp only [dropBlanks, List.dropWhile_cons, hc, ↓reduceIte, List.head?_cons,
        Option.mem_some_iff, forall_eq', Bool.true_eq_false, iff_false]
      intro h
      have hlen := congrArg List.length h
      have hle := (List.dropWhile_sublist isBlank (l := cs)).length_le
      rw [List.length_cons] at hlen
      omega

theorem dropBlanks_dropBlanks (cs : List Char) : dropBlanks (dropBlanks cs) = dropBlanks cs := by
  induction cs with
  | nil => rfl
  | cons c cs ih =>
    cases hc : isBlank c <;> simp_all [dropBlanks]

theorem dropBlanksEnd_dropBlanksEnd (cs : List Char) :
    dropBlanksEnd (dropBlanksEnd cs) = dropBlanksEnd cs := by
  simp [dropBlanksEnd, dropBlanks_dropBlanks]

/-- Taking the blanks off the end brings no blank to the start. -/
theorem dropBlanks_dropBlanksEnd {cs : List Char} (h : dropBlanks cs = cs) :
    dropBlanks (dropBlanksEnd cs) = dropBlanksEnd cs := by
  rw [dropBlanks_eq_self_iff] at h ⊢
  obtain ⟨rest, hrest⟩ : dropBlanksEnd cs <+: cs := by
    have := List.reverse_prefix.2 (List.dropWhile_suffix isBlank (l := cs.reverse))
    rwa [List.reverse_reverse] at this
  intro c hc
  refine h c ?_
  rw [← hrest, List.head?_append, Option.mem_def.1 hc, Option.some_or]
  rfl

@[simp]
theorem trim_trim (text : String) : trim (trim text) = trim text := by
  simp [trim, dropBlanks_dropBlanksEnd, dropBlanks_dropBlanks, dropBlanksEnd_dropBlanksEnd]

end Beamline.Text
