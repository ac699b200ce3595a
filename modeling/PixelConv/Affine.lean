import PixelConv.Fault
import PixelConv.Fraction
import PixelConv.Quad

/-!
# Affine transforms of four components

Each output is a weighted sum of the four inputs plus an offset. Beside its 4 by 5 matrix a
transform carries a mask with one bit per entry, set where the entry differs from the identity;
`Affine.ofRows` computes it, and resetting a row or a column keeps it in step.
-/

namespace PixelConv

/-- One output of an affine transform: a weight per input and an offset. -/
structure AffineRow where
  weight : Quad Fraction
  offset : Fraction
deriving DecidableEq

/-- The entry in column `j`; the offset is column four. -/
def AffineRow.entry (r : AffineRow) (j : Fin 5) : Fraction :=
  if h : j.val < 4 then r.weight ⟨j.val, h⟩ else r.offset

/-- The row with the given entries. -/
def AffineRow.ofFn (f : Fin 5 → Fraction) : AffineRow := ⟨⟨f 0, f 1, f 2, f 3⟩, f 4⟩

/-- Entries of the matrix in reading order. -/
def AffineRow.toList (r : AffineRow) : List Fraction := r.weight.toList ++ [r.offset]

/-- A set of matrix entries, entry `(i, j)` at bit `5 * i + j`. -/
abbrev EntryMask := BitVec 32

namespace EntryMask

/-- The set of entry `(i, j)` alone. -/
def entry (i j : Nat) : EntryMask := 1#32 <<< (5 * i + j)

/-- All entries of row `i`. -/
def row (i : Nat) : EntryMask := 0x1f#32 <<< (5 * i)

/-- All entries of column `j`. -/
def col (j : Nat) : EntryMask := 0x8421#32 <<< j

/-- Every entry of the matrix. -/
def full : EntryMask := 0xfffff#32

/-- The diagonal of the first three components. -/
def diagonal3 : EntryMask := entry 0 0 ||| entry 1 1 ||| entry 2 2

/-- The whole diagonal. -/
def diagonal4 : EntryMask := diagonal3 ||| entry 3 3

/-- The offsets of the first three components. -/
def offset3 : EntryMask := entry 0 4 ||| entry 1 4 ||| entry 2 4

/-- All offsets. -/
def offset4 : EntryMask := offset3 ||| entry 3 4

/-- The weights between the first three components. -/
def matrix3 : EntryMask := (row 0 ||| row 1 ||| row 2) &&& ~~~col 3 &&& ~~~offset4

/-- All weights. -/
def matrix4 : EntryMask := full &&& ~~~offset4

/-- The number of bits set. -/
def card (m : EntryMask) : Nat := (List.range 32).countP fun i => m.getLsbD i

/-- Every entry of `m` is one of `n`. -/
def subset (m n : EntryMask) : Bool := m &&& ~~~n == 0#32

/-- The masks share an entry. -/
def meets (m n : EntryMask) : Bool := m &&& n != 0#32

/-- The name of a mask that has one. -/
def name? (m : EntryMask) : Option String :=
  if m = entry 0 0 ||| entry 0 4 then some "luma"
  else if m = entry 3 3 ||| entry 3 4 then some "alpha"
  else if m = diagonal3 then some "diag3"
  else if m = diagonal4 then some "diag4"
  else if m = matrix3 then some "matrix3"
  else if m = matrix4 then some "matrix4"
  else if subset m (matrix3 ||| offset3) then some "affine3"
  else if subset m (matrix4 ||| offset4) then some "affine4"
  else none

end EntryMask

/-- An affine transform with the mask of its non-identity entries. -/
structure Affine where
  rows : Quad AffineRow
  mask : EntryMask
deriving DecidableEq

namespace Affine

/-! ## 1. The identity and the mask -/

/-- Entry `(i, j)` of the identity. -/
def unit (i : Fin 4) (j : Fin 5) : Fraction :=
  if i.val = j.val then Fraction.one else Fraction.zero

/-- Row `i` of the identity. -/
def unitRow (i : Fin 4) : AffineRow := AffineRow.ofFn (unit i)

/-- The identity. -/
def identity : Affine := ⟨Quad.ofFn unitRow, 0#32⟩

/-- Entry `(i, j)` of the matrix. -/
def entry (t : Affine) (i : Fin 4) (j : Fin 5) : Fraction := (t.rows i).entry j

/-- The columns in order. -/
def columns : List (Fin 5) := [0, 1, 2, 3, 4]

/-- The set of entries that differ from the identity. -/
def maskOf (rows : Quad AffineRow) : EntryMask :=
  Quad.indices.foldl (fun m i => columns.foldl (fun m j =>
    if (rows i).entry j = unit i j then m else m ||| EntryMask.entry i.val j.val) m) 0#32

/-- The transform with the given rows and their mask. -/
def ofRows (rows : Quad AffineRow) : Affine := ⟨rows, maskOf rows⟩

/-- Computes the mask anew. -/
def withMask (t : Affine) : Affine := ofRows t.rows

/-! ## 2. Resetting parts to the identity -/

/-- Resets row `i`. -/
def withUnitRow (t : Affine) (i : Fin 4) : Affine where
  rows := t.rows.set i (unitRow i)
  mask := t.mask &&& ~~~EntryMask.row i.val

/-- Resets column `j`. -/
def withUnitCol (t : Affine) (j : Fin 5) : Affine where
  rows := Quad.ofFn fun i => AffineRow.ofFn fun k => if k = j then unit i j else t.entry i k
  mask := t.mask &&& ~~~EntryMask.col j.val

/-- Resets the row with a given number, if there is one. -/
def withUnitRowAt (t : Affine) (i : Nat) : Checked Affine :=
  if h : i < 4 then .ok (t.withUnitRow ⟨i, h⟩) else .error .outOfRange

/-- Resets the column with a given number, if there is one. -/
def withUnitColAt (t : Affine) (j : Nat) : Checked Affine :=
  if h : j < 5 then .ok (t.withUnitCol ⟨j, h⟩) else .error .outOfRange

/-! ## 3. Composition -/

/-- Entry `(i, j)` of the product of two matrices that are extended by a last row `0 0 0 0 1`. -/
def productEntry (t u : Affine) (i : Fin 4) (j : Fin 5) : Fraction :=
  let sum := Quad.indices.foldl
    (fun acc k => acc + (u.rows i).weight k * t.entry k j) Fraction.zero
  if j = 4 then sum + (u.rows i).offset else sum

/-- The transform that does `t` and then `u`. -/
def andThen (t u : Affine) : Affine :=
  ofRows (Quad.ofFn fun i => AffineRow.ofFn fun j => productEntry t u i j)

/-- Some weight off the diagonal is not zero. -/
def mixes (t : Affine) : Bool :=
  Quad.indices.any fun i => Quad.indices.any fun j =>
    decide (i ≠ j) && !((t.rows i).weight j).isZero

end Affine

end PixelConv
