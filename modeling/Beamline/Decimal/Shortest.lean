/-!
# Shortest decimals

The decimal written for a positive double is the shortest one that reads back as that double.
A decimal reads back when it lies in the interval of reals that round to the double, to nearest
and with ties to the even mantissa. Of the decimals of that length the one nearest the double is
taken, and of two that are equally near the greater one.

All comparisons are made between products of naturals, so nothing is rounded on the way.

* `Magnitude.ofBits` decodes the bits of a double.
* `Magnitude.admits` says whether a decimal reads back.
* `Magnitude.shortest` selects the decimal to write, `Magnitude.admits_shortestWithin` says that
  what the search finds reads back.
-/

namespace Beamline.Decimal

/-- The value `mantissa * 2 ^ exponent` of a finite double without its sign. -/
structure Magnitude where
  /-- The mantissa, with the hidden bit of a normal double. -/
  mantissa : Nat
  /-- The exponent of two. -/
  exponent : Int
  /-- The next double below is half as far away as the next one above. -/
  narrowBelow : Bool
  deriving DecidableEq

/-- The decimal `digits * 10 ^ exponent`. -/
structure Expansion where
  /-- The digits as one natural. -/
  digits : Nat
  /-- The exponent of ten. -/
  exponent : Int
  deriving DecidableEq

/-! ## Exact comparison -/

/-- The power of `base` with the exponent `e`; one if `e` is negative. A factor with a negative
exponent goes to the other side of a comparison, where its exponent is positive. -/
def power (base : Nat) (e : Int) : Nat :=
  Nat.pow base e.toNat

/-- How `d * 10 ^ e` compares with `m * 2 ^ q`. -/
def compareScaled (d : Nat) (e : Int) (m : Nat) (q : Int) : Ordering :=
  compare (d * power 10 e * power 2 (-q)) (m * power 2 q * power 10 (-e))

/-! ## The format of doubles -/

/-- The hidden bit of a normal double, above the 52 bits of the fraction. -/
def hiddenBit : Nat :=
  0x10000000000000

/-- The sign bit of a double, above the 11 bits of the exponent field. -/
def signBit : Nat :=
  0x8000000000000000

/-- The exponent field of infinity, with all bits set. -/
def lastField : Nat :=
  0x7FF

namespace Magnitude

/-- The magnitude of a finite double, from its bits. A zero exponent field marks a subnormal
double, which has no hidden bit. -/
def ofBits (bits : UInt64) : Magnitude :=
  let field : Nat := bits.toNat % signBit / hiddenBit
  let fraction := bits.toNat % hiddenBit
  if field = 0 then
    { mantissa := fraction, exponent := -1074, narrowBelow := false }
  else
    { mantissa := hiddenBit + fraction, exponent := (field : Int) - 1075,
      narrowBelow := fraction = 0 && 1 < field }

/-! ## The decimals that read back -/

/-- Whether `d` lies in the interval of reals that round to `x`. The ends lie halfway to the two
neighbours and belong to the interval when the mantissa is even. -/
def admits (x : Magnitude) (d : Expansion) : Bool :=
  let lower := if x.narrowBelow then 4 * x.mantissa - 1 else 4 * x.mantissa - 2
  let upper := 4 * x.mantissa + 2
  let even := x.mantissa % 2 = 0
  let fromLower := compareScaled d.digits d.exponent lower (x.exponent - 2)
  let fromUpper := compareScaled d.digits d.exponent upper (x.exponent - 2)
  (fromLower = .gt || even && fromLower = .eq) && (fromUpper = .lt || even && fromUpper = .eq)

/-! ## The search -/

/-- The least exponent of ten above `x`. The binary logarithm gives a first candidate that is
not too great, and one of the next two is right. -/
def scale (x : Magnitude) : Int :=
  -- 1233 / 4096 is a little less than the decimal logarithm of two
  let first := ((x.mantissa.log2 : Int) + x.exponent) * 1233 / 4096
  let isAbove (k : Int) : Bool := compareScaled 1 k x.mantissa x.exponent = .gt
  if isAbove first then first else if isAbove (first + 1) then first + 1 else first + 2

/-- The greatest multiple of `10 ^ e` that is at most `x`, as a count of `10 ^ e`. -/
def floorAt (x : Magnitude) (e : Int) : Nat :=
  (x.mantissa * power 2 x.exponent * power 10 (-e)) / (power 10 e * power 2 (-x.exponent))

/-- Whether the upper neighbour of `x` on the grid of `10 ^ e` is at least as near as the lower
neighbour `low`: twice the value is compared with the sum of the two. -/
def isUpperNearer (x : Magnitude) (low : Nat) (e : Int) : Bool :=
  compareScaled (2 * low + 1) e (2 * x.mantissa) x.exponent ≠ .gt

/-- The neighbour of `x` on the grid of `10 ^ e` to be written, if one of the two reads back. -/
def onGrid? (x : Magnitude) (e : Int) : Option Expansion :=
  let low := x.floorAt e
  let below : Expansion := ⟨low, e⟩
  let above : Expansion := ⟨low + 1, e⟩
  match x.admits below, x.admits above with
  | true, true => some (if x.isUpperNearer low e then above else below)
  | true, false => some below
  | false, true => some above
  | false, false => none

/-- The value of `x` itself in decimal. -/
def exact (x : Magnitude) : Expansion :=
  if 0 ≤ x.exponent then
    ⟨x.mantissa * power 2 x.exponent, 0⟩
  else
    ⟨x.mantissa * power 5 (-x.exponent), x.exponent⟩

/-- The first hit on the grids of `1` to `count` digits. -/
def shortestWithin (x : Magnitude) (count : Nat) : Option Expansion :=
  let top := x.scale
  (List.range count).findSome? fun n => x.onGrid? (top - (n + 1 : Nat))

/-- The decimal written for `x`. Seventeen digits tell any two doubles apart. -/
def shortest (x : Magnitude) : Expansion :=
  (x.shortestWithin 17).getD x.exact

theorem admits_onGrid {x : Magnitude} {e : Int} {d : Expansion} (h : x.onGrid? e = some d) :
    x.admits d = true := by
  simp only [onGrid?] at h
  split at h <;> simp_all
  subst h
  split <;> assumption

/-- What the search finds reads back. -/
theorem admits_shortestWithin {x : Magnitude} {count : Nat} {d : Expansion}
    (h : x.shortestWithin count = some d) : x.admits d = true := by
  obtain ⟨_, n, _, _, hn, _⟩ := List.findSome?_eq_some_iff.1 h
  exact admits_onGrid hn

end Magnitude

end Beamline.Decimal
