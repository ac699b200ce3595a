import PixelConv.Fraction

/-!
# Fractions as floating-point numbers

A constant reaches a floating-point kernel as the double-precision quotient of its terms, rounded
once more to single precision. The undefined value becomes a NaN.
-/

namespace PixelConv

namespace Fraction

/-- The double nearest to a term of a fraction. -/
def termFloat (n : Int) : Float :=
  if n < 0 then -n.natAbs.toUInt64.toFloat else n.natAbs.toUInt64.toFloat

/-- The quotient of the terms in double precision. -/
def toFloat (q : Fraction) : Float :=
  if q.isDefined then termFloat q.num / termFloat q.den else 0.0 / 0.0

/-- The quotient of the terms, rounded to single precision. Zero is the positive zero, whose bit
pattern is empty. -/
def toFloat32 (q : Fraction) : Float32 :=
  if q.isZero then Float32.ofBits 0 else q.toFloat.toFloat32

theorem toBits_toFloat32_of_isZero {q : Fraction} (h : q.isZero = true) :
    q.toFloat32.toBits = 0 := by
  rw [toFloat32, if_pos h]
  decide +kernel

end Fraction

end PixelConv
