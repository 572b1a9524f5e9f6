import Beamline.Decimal.Shortest

/-!
# Nearest doubles

A decimal is read as the double in whose interval it lies, to nearest and with ties to the even
mantissa. The intervals of the doubles follow one another in the order of the bits, and that of
infinity comes after the last. So the bits of the double nearest a decimal are the greatest whose
interval begins at or below the decimal. They are found one after the other, the highest first.
-/

namespace Beamline.Decimal

/-- The bits of infinity, which come after those of the greatest finite double. -/
def infinityBits : Nat :=
  lastField * hiddenBit

/-- Whether the interval of `x` begins at or below `d`. The end belongs to the interval when the
mantissa is even. -/
def Magnitude.begins (x : Magnitude) (d : Expansion) : Bool :=
  let lower := if x.narrowBelow then 4 * x.mantissa - 1 else 4 * x.mantissa - 2
  let fromLower := compareScaled d.digits d.exponent lower (x.exponent - 2)
  fromLower = .gt || x.mantissa % 2 = 0 && fromLower = .eq

namespace Expansion

/-- Whether `bits` are those of a double, or of infinity, whose interval begins at or below `d`. -/
def reaches (d : Expansion) (bits : Nat) : Bool :=
  bits ≤ infinityBits && (Magnitude.ofBits (.ofNat bits)).begins d

/-- Sets each of the lowest `count` bits with which the interval still begins at or below `d`. -/
def climb (d : Expansion) : (count bits : Nat) → Nat
  | 0, bits => bits
  | count + 1, bits =>
    let next := bits + Nat.pow 2 count
    d.climb count (if d.reaches next then next else bits)

/-- The bits of the double nearest `d`; those of infinity if `d` is too great for a double. -/
def nearestBits (d : Expansion) : Nat :=
  d.climb 63 0

end Expansion

end Beamline.Decimal
