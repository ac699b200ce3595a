import PixelConv.Fault

/-!
# Byte buffers

Planes of an image and the pieces of them that a conversion works on. Words lie in memory with the
least significant byte first. Main statement: `splice` changes exactly the bytes that its piece
covers (`getElem?_splice`) and never the length (`size_splice`).
-/

namespace PixelConv

/-- A run of bytes in memory. -/
abbrev Bytes := Array UInt8

namespace Bytes

/-! ## 1. Pieces -/

/-- The bytes from `start` on, none if that is past the end. -/
def after (b : Bytes) (start : Nat) : Bytes := b.extract start b.size

/-- The first `n` bytes, all of which have to exist. -/
def first (b : Bytes) (n : Nat) : Checked Bytes :=
  if n ≤ b.size then .ok (b.extract 0 n) else .error .outOfRange

/-- Overwrites the bytes from `start` on by a piece; what would go past the end is dropped. -/
def splice (b : Bytes) (start : Nat) (piece : Bytes) : Bytes :=
  b.mapIdx fun i x => if start ≤ i then piece.getD (i - start) x else x

/-- `n` zeros. -/
def zeros (n : Nat) : Bytes := Array.replicate n 0

@[simp] theorem size_splice (b : Bytes) (start : Nat) (piece : Bytes) :
    (b.splice start piece).size = b.size := by
  simp only [splice, Array.size_mapIdx]

theorem getElem?_splice (b : Bytes) (start : Nat) (piece : Bytes) (i : Nat) :
    (b.splice start piece)[i]? =
      b[i]?.map fun x => if start ≤ i then piece.getD (i - start) x else x := by
  simp only [splice, Array.getElem?_mapIdx]

/-! ## 2. Words -/

/-- The word in the `size` bytes from `start` on. -/
def word (b : Bytes) (size start : Nat) : UInt32 :=
  (List.range size).foldr (fun k w => (w <<< 8) ||| (b.getD (start + k) 0).toUInt32) 0

/-- Byte `k` of a word, counted from the least significant one. -/
def ofWord (w : UInt32) (k : Nat) : UInt8 := (w >>> (8 * k).toUInt32).toUInt8

end Bytes

end PixelConv
