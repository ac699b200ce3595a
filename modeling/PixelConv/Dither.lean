import PixelConv.Fraction

/-!
# Dither matrices

A dither adds a square tile of fractions to a value, by position in the image. The ordered tile
interleaves the bits of the column and of the row, so that every threshold occurs once.
-/

namespace PixelConv

/-- A square tile with `2 ^ sideLog2` entries per side, row by row. -/
structure Dither where
  entries : Array Fraction
  sideLog2 : Nat
deriving DecidableEq

namespace Dither

/-- Entries per side. -/
def size (d : Dither) : Nat := 2 ^ d.sideLog2

/-- The rank of the cell in column `x` and row `y` of the ordered tile with `2 ^ k` cells per side.
Each pair of coordinate bits is a digit to base four: its high bit tells whether the two differ, its
low bit is the one of the row. -/
def rank (x y : Nat) : Nat → Nat
  | 0 => 0
  | k + 1 => 4 * rank (x / 2) (y / 2) k + (2 * ((x + y) % 2) + y % 2)

/-- The threshold of rank `v` among `n`: the middle of its cell in the unit interval. -/
def threshold (v n : Nat) : Fraction := Fraction.reduce (2 * v + 1) (2 * n)

/-- The ordered tile with `2 ^ k` cells per side. -/
def ordered (k : Nat) : Dither where
  entries := ((List.range (4 ^ k)).map fun i =>
    threshold (rank (i % 2 ^ k) (i / 2 ^ k) k) (4 ^ k)).toArray
  sideLog2 := k

/-- The smallest entry, undefined for an empty tile. -/
def lowest (d : Dither) : Fraction :=
  match d.entries.toList with
  | [] => Fraction.undefined
  | q :: rest => rest.foldl Fraction.least q

/-- The largest entry, undefined for an empty tile. -/
def highest (d : Dither) : Fraction :=
  match d.entries.toList with
  | [] => Fraction.undefined
  | q :: rest => rest.foldl Fraction.greatest q

end Dither

end PixelConv
