import PixelConv.Fraction
import PixelConv.Quad

/-!
# Building blocks of written forms

Columns padded with blanks, hexadecimal numbers, and bracketed lists of fractions.
-/

namespace PixelConv

namespace Text

/-- Right-aligns a text in a column of `width` characters. -/
def padLeft (width : Nat) (s : String) : String :=
  String.ofList (List.replicate (width - s.length) ' ') ++ s

/-- Left-aligns a text in a column of `width` characters. -/
def padRight (width : Nat) (s : String) : String :=
  s ++ String.ofList (List.replicate (width - s.length) ' ')

/-- The hexadecimal digits of a number, filled up with zeros to `width` digits. -/
def hex (width n : Nat) : String :=
  let digits := Nat.toDigits 16 n
  String.ofList (List.replicate (width - digits.length) '0' ++ digits)

/-- Fractions side by side. -/
def fractions (qs : List Fraction) : String := " ".intercalate (qs.map Fraction.text)

/-- Fractions in braces. -/
def braced (qs : List Fraction) : String := "\x7b" ++ fractions qs ++ "\x7d"

/-- Optional constants in braces; a missing one is written like an undefined one. -/
def constants (cs : Quad (Option Fraction)) : String :=
  braced (cs.toList.map fun c => c.getD Fraction.undefined)

end Text

end PixelConv
