import Beamline.Name
import Beamline.Source.Position
import Beamline.Decimal.Scan

/-!
# Beam lines

A beam line is a flat list of entries, each the name of a member and the direction in which the
beam passes it. Lists of entries are joined, repeated and reflected; a repetition is bounded, so
that a count in the input cannot ask for more entries than there is room for.

* `Entry.ofText_render`: an entry is read back from its text.
* `reflect_reflect`, `reflect_append`: reflection undoes itself and turns a joined list round.
* `repeat?_eq`: a repetition within its bound is that many copies, one beyond it is refused, and
  the 64 bits in which the entries are counted make no difference.
-/

namespace Beamline

open Source (Position)

namespace Line

/-! ## Entries -/

/-- The direction in which the beam passes a member. -/
inductive Direction where
  | forward
  | backward
  deriving DecidableEq

namespace Direction

/-- The other direction. -/
def flip : Direction → Direction
  | .forward => .backward
  | .backward => .forward

/-- The sign that writes a direction. -/
def symbol : Direction → String
  | .forward => "+"
  | .backward => "-"

/-- The direction of a member written without a sign. -/
def usual : Direction :=
  .forward

@[simp]
theorem flip_flip (d : Direction) : d.flip.flip = d := by
  cases d <;> rfl

end Direction

/-- A member of a line. -/
structure Entry where
  /-- The name of the member. -/
  name : Name
  /-- The direction in which it is passed. -/
  direction : Direction
  deriving DecidableEq

namespace Entry

/-- A member passed forward. -/
def forward (name : Name) : Entry :=
  ⟨name, .forward⟩

/-- The same member passed in the other direction. -/
def flip (e : Entry) : Entry :=
  { e with direction := e.direction.flip }

/-- The text of an entry. -/
def render (e : Entry) : String :=
  e.direction.symbol ++ e.name.text

/-- The entry that `text` writes: a sign, which may be left out, and a name. -/
def ofText (text : String) : Entry :=
  match text.toList with
  | '-' :: rest => ⟨Name.ofText (String.ofList rest), .backward⟩
  | '+' :: rest => ⟨Name.ofText (String.ofList rest), .forward⟩
  | rest => ⟨Name.ofText (String.ofList rest), .usual⟩

@[simp]
theorem flip_flip (e : Entry) : e.flip.flip = e := by
  simp [flip]

/-- An entry is read back from its text. -/
@[simp]
theorem ofText_render (e : Entry) : ofText e.render = e := by
  obtain ⟨name, direction⟩ := e
  cases direction <;> simp [ofText, render, Direction.symbol]

end Entry

/-! ## Counts

The count of a repetition is the text written before the star. Blanks at its start are skipped,
the longest numeral that follows is read as a double, and what comes after the numeral is
ignored. The count is that double with its fraction dropped. A text without a numeral and a value
below one stand for no repetition at all. -/

/-- The greatest count, at which larger values saturate. -/
def maxCount : Nat :=
  UInt64.size - 1

/-- The number at the start of a text; zero if there is none. -/
def leadingNumber (text : String) : Except Text.SliceFault Float := do
  let cs := Text.dropBlanks text.toList
  match ← Decimal.scanNumeral (Text.bytes cs) with
  | some stop => return (Decimal.Numeral.parse? (← Text.charsUpTo stop cs)).getD 0.0
  | none => return 0.0

/-- The number that a count is read as. All slices that are taken to find it exist. -/
def countValue (text : String) : Float :=
  (leadingNumber text).toOption.getD 0.0

/-- How often a body with the given count is repeated. -/
def repeatCount (text : String) : Nat :=
  let value := countValue text
  if 1.0 ≤ value then value.toUInt64.toNat else 0

/-! ## Lists of entries -/

/-- The most entries for which there is room. -/
def maxEntries : Nat :=
  384307168202282325

/-- The bound on the length of a repetition. A limit of zero leaves only the room there is. -/
def bound (limit : Nat) : Nat :=
  if limit = 0 then maxEntries else min limit maxEntries

/-- A repetition that would be longer than its bound. -/
structure Overflow where
  /-- The bound. -/
  limit : Nat
  deriving DecidableEq

/-- The text of an overflow. -/
def Overflow.message (e : Overflow) : String :=
  s!"repeated line would exceed {e.limit} entries"

/-- The entries in reverse order, each passed in the other direction. -/
def reflect (entries : List Entry) : List Entry :=
  entries.reverse.map Entry.flip

/-- The number of entries in copies of a list, if it is a word of 64 bits. -/
def total? (length times : Nat) : Option Nat :=
  if length * times < UInt64.size then some (length * times) else none

/-- As many copies of the entries as the text of the count says, unless they are more entries
than the limit allows. -/
def repeat? (count : String) (entries : List Entry) (limit : Nat) :
    Except Overflow (List Entry) :=
  let times := repeatCount count
  if times = 0 ∨ entries = [] then
    .ok []
  else
    match (total? entries.length times).filter (· ≤ bound limit) with
    | some _ => .ok (List.replicate times entries).flatten
    | none => .error { limit := bound limit }

@[simp]
theorem reflect_reflect (entries : List Entry) : reflect (reflect entries) = entries := by
  simp [reflect, Function.comp_def]

theorem reflect_append (a b : List Entry) : reflect (a ++ b) = reflect b ++ reflect a := by
  simp [reflect]

@[simp]
theorem length_reflect (entries : List Entry) : (reflect entries).length = entries.length := by
  simp [reflect]

theorem bound_le (limit : Nat) : bound limit ≤ maxEntries := by
  unfold bound
  split
  · exact Nat.le_refl _
  · exact Nat.min_le_right _ _

/-- A number of entries that is no word is beyond every bound. -/
theorem bound_lt_of_total?_eq_none {length times : Nat} (h : total? length times = none)
    (limit : Nat) : bound limit < length * times := by
  have hword : UInt64.size ≤ length * times := by simpa [total?] using h
  calc
    bound limit ≤ maxEntries := bound_le limit
    _ < UInt64.size := by decide
    _ ≤ length * times := hword

/-- The number of entries is kept exactly if it is within the bound. -/
theorem filter_total?_eq (length times limit : Nat) :
    (total? length times).filter (· ≤ bound limit) =
      if length * times ≤ bound limit then some (length * times) else none := by
  cases htotal : total? length times with
  | none =>
    -- no word, and so beyond the bound
    have hlt := bound_lt_of_total?_eq_none htotal limit
    rw [if_neg (Nat.not_le.2 hlt)]
    rfl
  | some total =>
    obtain rfl : length * times = total := by
      unfold total? at htotal
      split at htotal
      · exact Option.some.inj htotal
      · cases htotal
    simp [Option.filter]

/-- A repetition within its bound is that many copies, one beyond it is refused. -/
theorem repeat?_eq (count : String) (entries : List Entry) (limit : Nat) :
    repeat? count entries limit =
      if entries.length * repeatCount count ≤ bound limit then
        .ok (List.replicate (repeatCount count) entries).flatten
      else
        .error { limit := bound limit } := by
  unfold repeat?
  dsimp only
  split
  · -- no copies of anything and any copies of nothing are no entries, and so within the bound
    rename_i h
    rcases h with h | h <;> simp [h]
  · rw [filter_total?_eq]
    by_cases hle : entries.length * repeatCount count ≤ bound limit
    · rw [if_pos hle, if_pos hle]
    · rw [if_neg hle, if_neg hle]

/-- A repetition succeeds exactly within its bound, and is then that many copies. -/
theorem repeat?_eq_ok_iff {count : String} {entries result : List Entry} {limit : Nat} :
    repeat? count entries limit = .ok result ↔
      entries.length * repeatCount count ≤ bound limit ∧
        result = (List.replicate (repeatCount count) entries).flatten := by
  rw [repeat?_eq]
  split <;> simp [*, eq_comm]

/-- A repetition fails exactly beyond its bound, and names it. -/
theorem repeat?_eq_error_iff {count : String} {entries : List Entry} {limit : Nat} {e : Overflow} :
    repeat? count entries limit = .error e ↔
      bound limit < entries.length * repeatCount count ∧ e = { limit := bound limit } := by
  rw [repeat?_eq]
  split
  · rename_i hle
    exact ⟨nofun, fun h => absurd h.1 (Nat.not_lt.2 hle)⟩
  · rename_i hle
    exact ⟨fun h => ⟨Nat.not_le.1 hle, (Except.error.inj h).symm⟩,
      fun h => congrArg Except.error h.2.symm⟩

end Line

/-- A beam line. -/
structure Line where
  /-- The name. -/
  name : Name
  /-- The members in the order of the beam. -/
  entries : List Line.Entry
  /-- Where the line was defined. -/
  pos : Position
  deriving DecidableEq

end Beamline
