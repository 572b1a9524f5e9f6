import Mathlib.Data.List.TakeWhile
import Beamline.Decimal.Numeral

/-!
# The grammar of numerals

A text is a numeral if it is written for a well-formed one. When a numeral stands at the start of a
text, the numeral that is read begins with it and takes in as many characters as the grammar allows.
So the numeral that is read is the longest one, and none is read only where none stands.

* `Numeral.read?_written_append`: what is read where a numeral stands at the start.
* `Numeral.read?_eq_some_iff`: the numeral that is read is the longest at the start.
* `Numeral.read?_eq_none_iff`: no numeral is read only where none stands at the start.
-/

namespace Beamline.Decimal

/-! ## Digits and signs -/

/-- A sign, if one is written, is a plus or a minus. -/
def IsSign (sign : Option Char) : Prop :=
  ∀ c ∈ sign, c = '+' ∨ c = '-'

/-- All characters are digits. -/
def AreDigits (cs : List Char) : Prop :=
  ∀ c ∈ cs, c.isDigit = true

variable {cs ds rest : List Char} {c : Char} {sign : Option Char}

theorem AreDigits.append {more : List Char} (h : AreDigits ds) (hmore : AreDigits more) :
    AreDigits (ds ++ more) := fun c hc =>
  (List.mem_append.1 hc).elim (h c) (hmore c)

theorem areDigits_leadingDigits (cs : List Char) : AreDigits (leadingDigits cs) :=
  fun _ => List.mem_takeWhile_imp

theorem leadingDigits_append (h : AreDigits ds) (rest : List Char) :
    leadingDigits (ds ++ rest) = ds ++ leadingDigits rest :=
  List.takeWhile_append_of_pos h

theorem afterDigits_append (h : AreDigits ds) (rest : List Char) :
    afterDigits (ds ++ rest) = afterDigits rest :=
  List.dropWhile_append_of_pos h

theorem leadingDigits_cons_of_not (h : c.isDigit = false) : leadingDigits (c :: rest) = [] := by
  simp [leadingDigits, h]

theorem afterDigits_cons_of_not (h : c.isDigit = false) : afterDigits (c :: rest) = c :: rest := by
  simp [afterDigits, h]

theorem isSign_splitSign (cs : List Char) : IsSign (splitSign cs).1 := by
  unfold splitSign IsSign
  split <;> simp

/-- A sign is split off in front of anything that does not start with one. -/
theorem splitSign_append_of (hsign : IsSign sign)
    (hrest : sign = none → ∀ c ∈ rest.head?, c ≠ '+' ∧ c ≠ '-') :
    splitSign (sign.toList ++ rest) = (sign, rest) := by
  cases sign with
  | none =>
    cases rest with
    | nil => rfl
    | cons c rest =>
      obtain ⟨hplus, hminus⟩ := hrest rfl c rfl
      unfold splitSign
      split <;> simp_all
  | some s => rcases hsign s rfl with rfl | rfl <;> rfl

theorem not_sign_of_isDigit (h : c.isDigit = true) : c ≠ '+' ∧ c ≠ '-' := by
  constructor <;> rintro rfl <;> cases h

/-! ## Exponents -/

namespace Exponent

/-- What the grammar asks of an exponent. -/
structure WellFormed (e : Exponent) : Prop where
  letter : e.letter = 'e' ∨ e.letter = 'E'
  sign : IsSign e.sign
  digits : AreDigits e.digits
  digits_ne_nil : e.digits ≠ []

/-- The exponent with all digits that follow it. -/
def extend (e : Exponent) (rest : List Char) : Exponent :=
  { e with digits := e.digits ++ leadingDigits rest }

variable {e : Exponent}

theorem wellFormed_of_read? (h : read? cs = some e) : e.WellFormed := by
  cases cs with
  | nil => cases h
  | cons letter tail =>
    simp only [read?] at h
    split at h
    next hexponent =>
      cases h
      exact ⟨hexponent.1, isSign_splitSign tail, areDigits_leadingDigits _, hexponent.2⟩
    next => cases h

/-- An exponent is read with the digits that follow it. -/
theorem read?_written_append (h : e.WellFormed) (rest : List Char) :
    read? (e.written ++ rest) = some (e.extend rest) := by
  obtain ⟨c, ds, hds⟩ := List.exists_cons_of_ne_nil h.digits_ne_nil
  have hsplit : splitSign (e.sign.toList ++ (e.digits ++ rest)) = (e.sign, e.digits ++ rest) := by
    refine splitSign_append_of h.sign fun _ c' hc' => not_sign_of_isDigit (h.digits c' ?_)
    rw [hds, List.cons_append, List.head?_cons, Option.mem_some_iff] at hc'
    rw [hds, ← hc']
    exact List.mem_cons_self
  have hdigits : e.digits ++ leadingDigits rest ≠ [] :=
    List.append_ne_nil_of_left_ne_nil h.digits_ne_nil _
  simp only [written, List.cons_append, List.append_assoc, read?, hsplit,
    leadingDigits_append h.digits]
  rw [if_pos ⟨h.letter, hdigits⟩]
  rfl

/-- No digit starts an exponent. -/
theorem WellFormed.leadingDigits_written (h : e.WellFormed) (rest : List Char) :
    leadingDigits (e.written ++ rest) = [] ∧
      afterDigits (e.written ++ rest) = e.written ++ rest := by
  have hletter : e.letter.isDigit = false := by
    rcases h.letter with h | h <;> rw [h] <;> decide
  exact ⟨leadingDigits_cons_of_not hletter, afterDigits_cons_of_not hletter⟩

theorem written_extend (e : Exponent) (rest : List Char) :
    (e.extend rest).written = e.written ++ leadingDigits rest := by
  simp [extend, written]

end Exponent

/-! ## Numerals -/

namespace Numeral

/-- What the grammar asks of a numeral. -/
structure WellFormed (n : Numeral) : Prop where
  sign : IsSign n.sign
  whole : AreDigits n.whole
  fraction : ∀ ds ∈ n.fraction, AreDigits ds
  digits_ne_nil : n.digits ≠ []
  exponent : ∀ e ∈ n.exponent, e.WellFormed

/-- The numeral with all that follows it and can belong to it. -/
def extend (n : Numeral) (rest : List Char) : Numeral :=
  match n.exponent, n.fraction with
  | some e, _ => { n with exponent := some (e.extend rest) }
  | none, some ds =>
    { n with
      fraction := some (ds ++ leadingDigits rest)
      exponent := Exponent.read? (afterDigits rest) }
  | none, none =>
    { n with
      whole := n.whole ++ leadingDigits rest
      fraction := (splitFraction (afterDigits rest)).1
      exponent := Exponent.read? (splitFraction (afterDigits rest)).2 }

variable {n m : Numeral}

theorem WellFormed.areDigits (h : n.WellFormed) : AreDigits n.digits := by
  refine h.whole.append ?_
  cases hfraction : n.fraction with
  | none => exact fun _ hc => absurd hc List.not_mem_nil
  | some ds => exact h.fraction ds hfraction

theorem WellFormed.append_ne_nil (h : n.WellFormed) (hfraction : n.fraction = some ds) :
    n.whole ++ ds ≠ [] := by
  have hdigits := h.digits_ne_nil
  rwa [digits, hfraction, Option.getD_some] at hdigits

/-- A numeral without a point has digits before the exponent. -/
theorem WellFormed.whole_ne_nil (h : n.WellFormed) (hfraction : n.fraction = none) :
    n.whole ≠ [] := by
  have hdigits := h.digits_ne_nil
  rwa [digits, hfraction, Option.getD_none, List.append_nil] at hdigits

theorem wellFormed_of_read? (h : read? cs = some n) : n.WellFormed := by
  simp only [read?] at h
  split at h
  next => cases h
  next hdigits =>
    cases h
    refine ⟨isSign_splitSign cs, areDigits_leadingDigits _, ?_, hdigits, ?_⟩
    · intro ds hds
      dsimp only at hds
      unfold splitFraction at hds
      split at hds
      next => exact Option.some.inj hds ▸ areDigits_leadingDigits _
      next => cases hds
    · exact fun e he => Exponent.wellFormed_of_read? he

/-- After the sign comes a digit or a point. -/
theorem WellFormed.head_ne (h : n.WellFormed) (rest : List Char) :
    ∀ c ∈ (n.whole ++ ((n.fraction.map ('.' :: ·)).getD [] ++ rest)).head?,
      c ≠ '+' ∧ c ≠ '-' := by
  intro c hc
  cases hwhole : n.whole with
  | cons c' ds =>
    rw [hwhole] at hc
    cases hc
    exact not_sign_of_isDigit (h.whole c (hwhole ▸ List.mem_cons_self))
  | nil =>
    cases hfraction : n.fraction with
    | none => exact absurd hwhole (h.whole_ne_nil hfraction)
    | some ds =>
      rw [hwhole, hfraction] at hc
      cases hc
      decide

/-- No point starts an exponent. -/
theorem splitFraction_written {e : Exponent} (h : e.WellFormed) (rest : List Char) :
    splitFraction (e.written ++ rest) = (none, e.written ++ rest) := by
  have hletter : e.letter ≠ '.' := by
    rcases h.letter with h | h <;> rw [h] <;> decide
  simp [splitFraction, Exponent.written, hletter]

/-- A numeral at the start is read with all that follows and can belong to it. -/
theorem read?_written_append (h : n.WellFormed) (rest : List Char) :
    read? (n.written ++ rest) = some (n.extend rest) := by
  have hsplit := splitSign_append_of h.sign fun _ =>
    h.head_ne ((n.exponent.map Exponent.written).getD [] ++ rest)
  have hdot : '.'.isDigit = false := by decide
  -- the sign and the digits before the point are taken off; then comes what stands behind them
  simp only [written, List.append_assoc, read?, hsplit, leadingDigits_append h.whole,
    afterDigits_append h.whole]
  unfold extend
  cases hexponent : n.exponent with
  | some e =>
    -- behind a complete exponent there may be more of its digits, and nothing else
    have he : e.WellFormed := h.exponent e hexponent
    obtain ⟨hleading, hafter⟩ := he.leadingDigits_written rest
    cases hfraction : n.fraction with
    | some ds =>
      have hds : AreDigits ds := h.fraction ds hfraction
      simp only [Option.map_some, Option.getD_some, List.cons_append, List.nil_append,
        leadingDigits_cons_of_not hdot, afterDigits_cons_of_not hdot, splitFraction,
        leadingDigits_append hds, afterDigits_append hds, hleading, hafter, List.append_nil,
        Exponent.read?_written_append he]
      exact if_neg (h.append_ne_nil hfraction)
    | none =>
      simp only [Option.map_some, Option.map_none, Option.getD_some, Option.getD_none,
        List.nil_append, hleading, hafter, splitFraction_written he, List.append_nil,
        Exponent.read?_written_append he]
      exact if_neg (h.whole_ne_nil hfraction)
  | none =>
    -- the last digits go on, and whatever part is still missing may follow
    cases hfraction : n.fraction with
    | some ds =>
      have hds : AreDigits ds := h.fraction ds hfraction
      simp only [Option.map_some, Option.map_none, Option.getD_some, Option.getD_none,
        List.nil_append, List.cons_append, leadingDigits_cons_of_not hdot,
        afterDigits_cons_of_not hdot, splitFraction, List.append_nil, leadingDigits_append hds,
        afterDigits_append hds]
      refine if_neg ?_
      rw [← List.append_assoc]
      exact List.append_ne_nil_of_left_ne_nil (h.append_ne_nil hfraction) _
    | none =>
      simp only [Option.map_none, Option.getD_none, List.nil_append]
      exact if_neg (List.append_ne_nil_of_left_ne_nil (h.whole_ne_nil hfraction) _)

theorem splitFraction_nil : splitFraction [] = (none, []) :=
  rfl

/-- Nothing that follows is nothing to take in. -/
theorem extend_nil (n : Numeral) : n.extend [] = n := by
  obtain ⟨sign, whole, fraction, exponent⟩ := n
  have hleading : leadingDigits [] = [] := rfl
  have hafter : afterDigits [] = [] := rfl
  unfold extend
  cases exponent with
  | some e => simp [Exponent.extend, hleading]
  | none =>
    cases fraction <;> simp [hleading, hafter, splitFraction_nil, Exponent.read?]

theorem length_written_le_extend (n : Numeral) (rest : List Char) :
    n.written.length ≤ (n.extend rest).written.length := by
  unfold extend
  cases hexponent : n.exponent with
  | some e =>
    simp [written, hexponent, Exponent.written_extend]
  | none =>
    cases hfraction : n.fraction with
    | some ds =>
      simp [written, hexponent, hfraction]
    | none =>
      simp [written, hexponent, hfraction]

/-- A numeral is read as what it is written for. -/
theorem read?_written (h : n.WellFormed) : read? n.written = some n := by
  have hread := read?_written_append h []
  rwa [List.append_nil, extend_nil] at hread

/-! ## The longest numeral at the start -/

/-- No longer numeral than `n` stands at the start of `cs`. -/
structure IsLongest (n : Numeral) (cs : List Char) : Prop where
  wellFormed : n.WellFormed
  atStart : n.written <+: cs
  length_le : ∀ m : Numeral, m.WellFormed → m.written <+: cs → m.written.length ≤ n.written.length

/-- Where a numeral stands at the start, one that is no shorter is read. -/
theorem exists_read?_of_atStart (h : m.WellFormed) (hstart : m.written <+: cs) :
    ∃ n, read? cs = some n ∧ m.written.length ≤ n.written.length := by
  obtain ⟨rest, rfl⟩ := hstart
  exact ⟨m.extend rest, read?_written_append h rest, m.length_written_le_extend rest⟩

/-- The numeral that is read is the longest one at the start. -/
theorem isLongest_of_read? (h : read? cs = some n) : n.IsLongest cs := by
  refine ⟨wellFormed_of_read? h, ?_, fun m hm hstart => ?_⟩
  · exact exists_of_read? h
  · obtain ⟨n', hn', hle⟩ := exists_read?_of_atStart hm hstart
    rw [h] at hn'
    exact Option.some.inj hn' ▸ hle

/-- Of two longest numerals each is the other. -/
theorem IsLongest.eq (h : n.IsLongest cs) (h' : m.IsLongest cs) : n = m := by
  have hlength := Nat.le_antisymm (h'.length_le n h.wellFormed h.atStart)
    (h.length_le m h'.wellFormed h'.atStart)
  have hwritten : n.written = m.written :=
    (List.prefix_of_prefix_length_le h.atStart h'.atStart hlength.le).eq_of_length hlength
  have hread := read?_written h.wellFormed
  rw [hwritten, read?_written h'.wellFormed] at hread
  exact (Option.some.inj hread).symm

theorem read?_eq_some_iff : read? cs = some n ↔ n.IsLongest cs := by
  refine ⟨isLongest_of_read?, fun h => ?_⟩
  obtain ⟨n', hn', -⟩ := exists_read?_of_atStart h.wellFormed h.atStart
  rw [hn', h.eq (isLongest_of_read? hn')]

theorem read?_eq_none_iff :
    read? cs = none ↔ ∀ m : Numeral, m.WellFormed → ¬ m.written <+: cs := by
  refine ⟨fun h m hm hstart => ?_, fun h => ?_⟩
  · obtain ⟨n, hn, -⟩ := exists_read?_of_atStart hm hstart
    rw [h] at hn
    cases hn
  · cases hn : read? cs with
    | none => rfl
    | some n =>
      have hlongest := isLongest_of_read? hn
      exact absurd hlongest.atStart (h n hlongest.wellFormed)

end Numeral

end Beamline.Decimal
