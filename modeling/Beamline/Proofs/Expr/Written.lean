import Beamline.Proofs.Decimal.Positional
import Beamline.Proofs.Plain.Terms

/-!
# The characters of formulas

A term is written the way in which its formula was read, with names in normal form. So its text is
that of the formula, whatever the names stood for when the formula was lowered.

Written formulas have no parentheses but their own. One of them is well-bracketed if no operand of
a sign or of an operator between operands needs parentheses that are missing: if each is a number, a
name, the length of an element, a call or something in parentheses.

* `Formula.render_term`: the text of a term.
* `Formula.isWellBracketed`: the formulas that need no further parentheses.
-/

namespace Beamline.Expr

/-! ## Marks and words -/

/-- The characters that are no part of a number or a name. -/
def marks : List Char :=
  ['+', '-', '*', '/', '^', '(', ')', '[', ']', ',', '"']

/-- Whether the character is no part of a number or a name. -/
def isMark (c : Char) : Bool :=
  marks.contains c

/-- Whether a number starts with the character. -/
def startsNumber (c : Char) : Bool :=
  c.isDigit || c = '.'

/-- Whether the identifier starts with something else than a digit or a point and has no mark in
it. -/
def isWord (raw : String) : Bool :=
  match (Text.trim raw).toList with
  | [] => false
  | c :: cs => !startsNumber c && (c :: cs).all fun c => !isMark c

theorem isMark_eq_false_iff {c : Char} : isMark c = false ↔ c ∉ marks := by
  rw [isMark, ← Bool.not_eq_true, List.contains_iff_mem]

theorem char_eq_iff_toNat {c d : Char} : c = d ↔ c.toNat = d.toNat :=
  ⟨congrArg Char.toNat, fun h => Char.ext (UInt32.toNat_inj.1 h)⟩

/-- A character that is no letter is the upper case of itself alone. -/
theorem toUpper_eq_iff {c d : Char} (hupper : ¬(65 ≤ d.toNat ∧ d.toNat ≤ 90))
    (hlower : ¬(97 ≤ d.toNat ∧ d.toNat ≤ 122)) : c.toUpper = d ↔ c = d := by
  rw [char_eq_iff_toNat, char_eq_iff_toNat, Text.toNat_toUpper]
  split <;> omega

theorem isMark_toUpper (c : Char) : isMark c.toUpper = isMark c := by
  have hmarks : ∀ d ∈ marks,
      ¬(65 ≤ d.toNat ∧ d.toNat ≤ 90) ∧ ¬(97 ≤ d.toNat ∧ d.toNat ≤ 122) := by
    simp [marks]
  have hiff (d : Char) (hd : d ∈ marks) : c.toUpper = d ↔ c = d :=
    toUpper_eq_iff (hmarks d hd).1 (hmarks d hd).2
  rw [Bool.eq_iff_iff, isMark, isMark, List.contains_iff_mem, List.contains_iff_mem]
  constructor
  · intro h
    rw [(hiff _ h).1 rfl]
    exact h
  · intro h
    rw [(hiff c h).2 rfl]
    exact h

theorem startsNumber_toUpper (c : Char) : startsNumber c.toUpper = startsNumber c := by
  have hpoint : c.toUpper = '.' ↔ c = '.' := toUpper_eq_iff (by decide) (by decide)
  have hdigit : c.toUpper.isDigit = c.isDigit := by
    rw [Bool.eq_iff_iff, Char.isDigit_iff_toNat, Char.isDigit_iff_toNat, Text.toNat_toUpper]
    simp only [Char.reduceToNat]
    split <;> omega
  simp only [startsNumber, hdigit, hpoint]

/-- In normal form a word is still one. -/
theorem normalize_of_isWord {raw : String} (h : isWord raw = true) :
    ∃ c cs, (Text.normalize raw).toList = c :: cs ∧ startsNumber c = false ∧
      ∀ d ∈ c :: cs, isMark d = false := by
  have hupper : (Text.normalize raw).toList = (Text.trim raw).toList.map Char.toUpper := by
    simp [Text.normalize, Text.upper]
  unfold isWord at h
  cases htrim : (Text.trim raw).toList with
  | nil =>
    rw [htrim] at h
    cases h
  | cons c cs =>
    rw [htrim, Bool.and_eq_true, Bool.not_eq_true', List.all_eq_true] at h
    refine ⟨c.toUpper, cs.map Char.toUpper, by rw [hupper, htrim, List.map_cons], ?_, ?_⟩
    · rw [startsNumber_toUpper, h.1]
    · rw [← List.map_cons]
      simpa [isMark_toUpper] using h.2

/-! ## Formulas -/

namespace Formula

/-- The characters of a formula with its names in normal form. -/
def written : Formula → List Char
  | .number x => (Decimal.text x).toList
  | .text content => '"' :: (content.toList ++ ['"'])
  | .name raw => (Text.normalize raw).toList
  | .lengthOf raw => (Text.normalize raw).toList ++ ['[', 'L', ']']
  | .parens inner => '(' :: (inner.written ++ [')'])
  | .signed sign operand => sign.symbol.toList ++ operand.written
  | .binary op left right =>
    match op.symbol? with
    | some symbol => left.written ++ (symbol.toList ++ right.written)
    | none => op.keyword.toList ++ '(' :: (left.written ++ ',' :: (right.written ++ [')']))
  | .call f argument => f.keyword.toList ++ '(' :: (argument.written ++ [')'])

/-- The text of a term is that of the formula, whatever constants there were. -/
theorem render_term (constant? : Name → Option Value) (formula : Formula) :
    (formula.term constant?).render = String.ofList formula.written := by
  rw [← String.toList_inj, String.toList_ofList]
  induction formula with
  | number x => rfl
  | text content => simp [term, Term.render, Value.quote, written]
  | name raw =>
    rw [term, written]
    -- in each case the name is written
    split
    · split <;> rfl
    · rfl
  | lengthOf raw => simp [term, Term.render, written, Name.ofText]
  | parens inner ih => simp [term, Term.render, written, ih]
  | signed sign operand ih => simp [term, Term.render, written, ih]
  | binary op left right ihl ihr =>
    cases hsymbol : op.symbol? with
    | some symbol => simp [term, Term.render, Operator.render, written, hsymbol, ihl, ihr]
    | none => simp [term, Term.render, Operator.render, written, hsymbol, ihl, ihr]
  | call f argument ih => simp [term, Term.render, Function.render, written, ih]

/-- Whether the formula can stand next to a sign or an operator without parentheses around it. -/
def isOperand : Formula → Bool
  | .number _ | .name _ | .lengthOf _ | .parens _ | .call .. => true
  | .binary op _ _ => op.symbol?.isNone
  | .text _ | .signed .. => false

/-- Whether each operand of a sign or of an operator between operands can stand there, each number
is finite with no sign, each name is a word and no text has a quote in it. -/
def isWellBracketed : Formula → Bool
  | .number x => decide (Decimal.IsUnsigned x)
  | .text content => !content.toList.contains '"'
  | .name raw | .lengthOf raw => isWord raw
  | .parens inner => inner.isWellBracketed
  | .signed _ operand => operand.isOperand && operand.isWellBracketed
  | .binary op left right =>
    (op.symbol?.isNone || left.isOperand && right.isOperand) &&
      (left.isWellBracketed && right.isWellBracketed)
  | .call _ argument => argument.isWellBracketed

end Formula

end Beamline.Expr
