import PixelConv.Elem
import PixelConv.Quad

/-!
# Bit fields of a packed element

A packed element holds up to four components next to each other, the first one in the most
significant bits. A pattern lists their widths; its first zero ends it. Bits are counted from the
least significant one.
-/

namespace PixelConv

/-- `len` bits of a word, starting at bit `start`. -/
structure BitField where
  start : Nat
  len : Nat
deriving DecidableEq

namespace BitField

/-- The field of no bits. -/
def empty : BitField := ⟨0, 0⟩

/-- The number of widths before the first zero. -/
def count (widths : Quad Nat) : Nat := (widths.toList.takeWhile (0 < ·)).length

/-- Places fields of the given widths below bit `top`, downward, until a width is zero. -/
def place (top : Nat) : List Nat → List BitField
  | [] => []
  | 0 :: _ => []
  | w :: rest => ⟨top - w, w⟩ :: place (top - w) rest

/-- The fields of a pattern in an element of `bits` bits; components without a width have none. -/
def ofWidths (widths : Quad Nat) (bits : Nat) : Quad BitField :=
  Quad.ofListD (place bits widths.toList) empty

/-- The ones a field is cut with, before they are moved to its place: the low `len` bits for a
length up to a whole word. Lengths beyond that turn a word of ones within 64 bits. -/
def ones (f : BitField) : UInt32 :=
  UInt32.ofBitVec ((BitVec.rotateLeft (0xffffffff00000000#64) f.len).setWidth 32)

/-- The bits of a field, moved down to bit zero. -/
def extract (f : BitField) (w : UInt32) : UInt32 :=
  if f.len = 0 then 0 else (w >>> f.start.toUInt32) &&& f.ones

/-- Replaces the bits of a field by the low bits of `v`. -/
def insert (f : BitField) (w v : UInt32) : UInt32 :=
  if f.len = 0 then w
  else
    let m := f.ones <<< f.start.toUInt32
    (w &&& ~~~m) ||| ((v <<< f.start.toUInt32) &&& m)

end BitField

end PixelConv
