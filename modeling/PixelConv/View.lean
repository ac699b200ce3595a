import PixelConv.Bytes
import PixelConv.Quad

/-!
# Views of image memory

A view is up to four planes of rows with their strides. It can be cut into an upper and a lower
part, which know where in the whole image they begin, and put together again.
-/

namespace PixelConv

/-- Up to four planes of image rows. The numbers of rows and the places of bytes are taken to fit a
machine word: what is computed from them does not overflow. -/
structure View where
  planes : Quad Bytes
  /-- Bytes from the start of a row to the start of the next, per plane. -/
  stride : Quad Nat
  /-- The place of the first row in the whole image. -/
  firstRow : Nat
  rows : Nat

namespace View

/-- The byte at which row `row` of plane `p` starts, at most the end of the plane. -/
def cut (v : View) (row : Nat) (p : Fin 4) : Nat := min (row * v.stride p) (v.planes p).size

/-- The first `row` rows and the others. -/
def splitRows (v : View) (row : Nat) : View × View :=
  let row := min row v.rows
  ({ v with planes := Quad.ofFn fun p => (v.planes p).extract 0 (v.cut row p), rows := row },
    { v with
      planes := Quad.ofFn fun p => (v.planes p).after (v.cut row p)
      firstRow := v.firstRow + row
      rows := v.rows - row })

/-- Two views one below the other. -/
def append (top bottom : View) : View :=
  { top with
    planes := Quad.zipWith (fun a b => a ++ b) top.planes bottom.planes
    rows := top.rows + bottom.rows }

end View

end PixelConv
