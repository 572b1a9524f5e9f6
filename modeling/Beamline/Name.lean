import Beamline.Text.Spelling

/-!
# Names

A name is an identifier in its normal form, so that two spellings of one identifier are the
same name. Names are ordered by their code points.

* `ofText_text`: reading the text of a name gives the name back.
* `ofText_eq_ofText_iff`: two spellings give one name exactly when their normal forms agree.
-/

namespace Beamline

/-- An identifier in normal form. -/
@[ext]
structure Name where
  /-- The text of the name, trimmed and in upper case. -/
  text : String
  /-- The text is a normal form. -/
  normal : Text.IsNormal text
  deriving DecidableEq

namespace Name

/-- The name that `raw` spells. -/
def ofText (raw : String) : Name where
  text := Text.normalize raw
  normal := Text.isNormal_normalize raw

/-- Whether `raw` is a spelling of `name`. -/
def isSpelled (name : Name) (raw : String) : Bool :=
  name == ofText raw

/-- Names are compared code point by code point. -/
instance : Ord Name where
  compare a b := compare a.text b.text

@[simp]
theorem ofText_text (name : Name) : ofText name.text = name :=
  Name.ext name.normal.normalize_eq

theorem ofText_eq_ofText_iff {a b : String} :
    ofText a = ofText b ↔ Text.normalize a = Text.normalize b := by
  simp [Name.ext_iff, ofText]

@[simp]
theorem ofText_trim (raw : String) : ofText (Text.trim raw) = ofText raw := by
  simp [ofText_eq_ofText_iff]

@[simp]
theorem ofText_upper (raw : String) : ofText (Text.upper raw) = ofText raw := by
  simp [ofText_eq_ofText_iff]

end Name

end Beamline
