import Beamline.Text.Blank

/-!
# Spelling of words

Keywords and identifiers are read without regard to surrounding blanks and to the case of the
letters `a` to `z`. Two words are spelled alike when their normal forms are equal; the normal
form is trimmed and in upper case. Letters outside ASCII keep their case.

* `normalize_normalize`: a normal form is its own normal form.
* `normalize_trim`, `normalize_upper`: blanks around a word and the case of its letters make no
  difference.
-/

namespace Beamline.Text

/-- `text` with the letters `a` to `z` in upper case. -/
def upper (text : String) : String :=
  String.ofList (text.toList.map Char.toUpper)

/-- The normal form of a word: trimmed and in upper case. -/
def normalize (word : String) : String :=
  upper (trim word)

theorem toNat_toUpper (c : Char) :
    c.toUpper.toNat = if 97 ≤ c.toNat ∧ c.toNat ≤ 122 then c.toNat - 32 else c.toNat := by
  have hiff : ('a'.val ≤ c.val ∧ c.val ≤ 'z'.val) ↔ (97 ≤ c.toNat ∧ c.toNat ≤ 122) := Iff.rfl
  by_cases h : 97 ≤ c.toNat ∧ c.toNat ≤ 122
  · delta Char.toUpper
    rw [if_pos h, dif_pos (hiff.2 h)]
    change (c.val + 4294967264).toNat = c.val.toNat - 32
    change 97 ≤ c.val.toNat ∧ c.val.toNat ≤ 122 at h
    rw [UInt32.toNat_add]
    change (c.val.toNat + 4294967264) % UInt32.size = _
    rw [UInt32.size]
    omega
  · delta Char.toUpper
    rw [if_neg h, dif_neg (mt hiff.1 h)]

@[simp]
theorem toUpper_toUpper (c : Char) : c.toUpper.toUpper = c.toUpper := by
  apply Char.ext
  apply UInt32.toNat_inj.1
  change c.toUpper.toUpper.toNat = c.toUpper.toNat
  rw [toNat_toUpper c.toUpper, if_neg]
  rw [toNat_toUpper c]
  split <;> omega

/-- No letter is a blank, in either case. -/
@[simp]
theorem isBlank_toUpper (c : Char) : isBlank c.toUpper = isBlank c := by
  simp only [isBlank, blankRanges, List.any_cons, List.any_nil]
  rw [toNat_toUpper]
  split
  · grind
  · rfl

@[simp]
theorem upper_upper (text : String) : upper (upper text) = upper text := by
  simp [upper, Function.comp_def]

theorem dropBlanks_map_toUpper (cs : List Char) :
    dropBlanks (cs.map Char.toUpper) = (dropBlanks cs).map Char.toUpper := by
  simp [dropBlanks, List.dropWhile_map, Function.comp_def]

/-- Trimming and changing case may be done in either order. -/
theorem trim_upper (text : String) : trim (upper text) = upper (trim text) := by
  simp [trim, upper, dropBlanksEnd, dropBlanks_map_toUpper, ← List.map_reverse]

@[simp]
theorem normalize_trim (word : String) : normalize (trim word) = normalize word := by
  simp [normalize]

@[simp]
theorem normalize_upper (word : String) : normalize (upper word) = normalize word := by
  simp [normalize, trim_upper]

@[simp]
theorem normalize_normalize (word : String) : normalize (normalize word) = normalize word :=
  (normalize_upper (trim word)).trans (normalize_trim word)

/-- `word` is a normal form. -/
structure IsNormal (word : String) : Prop where
  /-- Normalizing changes nothing. -/
  normalize_eq : normalize word = word

theorem isNormal_normalize (word : String) : IsNormal (normalize word) :=
  ⟨normalize_normalize word⟩

end Beamline.Text
