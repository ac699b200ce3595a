import PixelConv.BitField
import PixelConv.Elem

/-!
# Register operations

What a kernel does to the four registers of one pixel. A register is a 32-bit word that holds an
integer or the bit pattern of a float. Float arithmetic rounds after every operation, in the order
in which it is written here.
-/

namespace PixelConv

/-- The four registers of a pixel. -/
abbrev Pixel := Quad UInt32

/-! ## 1. Words -/

namespace Word

/-- The byte that starts at bit `k`. -/
def byte (w k : UInt32) : UInt32 := (w >>> k) &&& (0xff : UInt32)

/-- Exchanges the two low bytes and drops the others. -/
def swap16 (w : UInt32) : UInt32 := (byte w 0 <<< (8 : UInt32)) ||| byte w 8

/-- Reverses the four bytes. -/
def swap32 (w : UInt32) : UInt32 :=
  (byte w 0 <<< (24 : UInt32)) ||| (byte w 8 <<< (16 : UInt32)) |||
    (byte w 16 <<< (8 : UInt32)) ||| byte w 24

/-- The float with this bit pattern. -/
def float (w : UInt32) : Float32 := Float32.ofBits w

/-- Multiplies by `num / den`, rounds down, and keeps the bits of `mask`. -/
def scale (num den mask : Nat) (w : UInt32) : UInt32 :=
  ((w.toNat * num / max den 1) &&& mask).toUInt32

/-- The smaller of a float and a bound; a NaN gives the bound. -/
def floatMin (bound : Float32) (w : UInt32) : UInt32 :=
  if (float w).isNaN || bound < float w then bound.toBits else w

/-- The larger of a float and a bound; a NaN gives the bound. -/
def floatMax (bound : Float32) (w : UInt32) : UInt32 :=
  if (float w).isNaN || float w < bound then bound.toBits else w

end Word

/-! ## 2. Operations -/

/-- One row of an affine transform in floats. -/
structure FloatRow where
  weight : Quad Float32
  offset : Float32

/-- Adds the weighted inputs to the offset, in order; inputs with weight zero are not looked at. -/
def FloatRow.apply (r : FloatRow) (q : Pixel) : UInt32 :=
  (Quad.indices.foldl (fun sum j =>
    if r.weight j == 0.0 then sum else sum + r.weight j * Word.float (q j)) r.offset).toBits

/-- An operation on the registers of one pixel, with its parameters worked out. -/
inductive RegOp where
  | swap16
  | swap32
  /-- Components without a field keep their register. -/
  | unpack (fields : Quad BitField)
  | pack (fields : Quad BitField)
  | clear (values : Quad (Option UInt32))
  | shiftLeft (n : Fin 32) (mask : UInt32)
  | shiftRight (n : Fin 32)
  | swizzle (source : Quad (Fin 4))
  /-- Multiplies integers and limits them from above. -/
  | widen (factor top : UInt32)
  /-- Turns integers into floats and multiplies them. -/
  | toFloat (factor : Float32)
  /-- Turns floats into integers, toward zero and into range; a NaN becomes zero. -/
  | toInt (top : UInt32)
  | keep
  /-- Turns integers into floats and divides them. -/
  | toUnit (divisor : Float32)
  /-- Adds a tile with `size` entries per side by position. -/
  | dither (size : Nat) (tile : Array Float32)
  /-- Rows that are the identity keep their register. -/
  | affine (rows : Quad (Option FloatRow))
  /-- The first row of a transform, applied to the first three components. -/
  | dot3 (row : FloatRow)
  | scaleInt (num den mask : Nat)
  | scaleFloat (factor : Float32)
  | intMin (bounds : Quad (Option UInt32))
  | intMax (bounds : Quad (Option UInt32))
  | floatMin (bounds : Quad (Option Float32))
  | floatMax (bounds : Quad (Option Float32))

namespace RegOp

/-- Applies a function to the components that have a parameter. -/
def onSome {α : Type} (f : α → UInt32 → UInt32) (params : Quad (Option α)) (q : Pixel) : Pixel :=
  Quad.zipWith (fun p w => match p with
    | some a => f a w
    | none => w) params q

/-- The effect on the pixel in column `x` and row `y`. -/
def apply (x y : Nat) : RegOp → Pixel → Pixel
  | swap16, q => q.map Word.swap16
  | swap32, q => q.map Word.swap32
  | unpack fields, q => Quad.zipWith (fun f w => if f.len = 0 then w else f.extract q.c0) fields q
  | pack fields, q =>
    { q with c0 := Quad.indices.foldl (fun w i => (fields i).insert w (q i)) 0 }
  | clear values, q => onSome (fun v _ => v) values q
  | shiftLeft n mask, q => q.map fun w => (w <<< n.val.toUInt32) &&& mask
  | shiftRight n, q => q.map fun w => w >>> n.val.toUInt32
  | swizzle source, q => source.map q.get
  | widen factor top, q => q.map fun w => min (w * factor) top
  | toFloat factor, q => q.map fun w => (w.toFloat32 * factor).toBits
  | toInt top, q => q.map fun w => min (Word.float w).toUInt32 top
  | keep, q => q
  | toUnit divisor, q => q.map fun w => (w.toFloat32 / divisor).toBits
  | dither size tile, q =>
    match tile[(y % size) * size + x % size]? with
    | some t => q.map fun w => (Word.float w + t).toBits
    | none => q
  | affine rows, q => Quad.zipWith (fun r w => match r with
      | some r => r.apply q
      | none => w) rows q
  | dot3 r, q =>
    { q with c0 := (r.offset + r.weight.c0 * Word.float q.c0 + r.weight.c1 * Word.float q.c1 +
        r.weight.c2 * Word.float q.c2).toBits }
  | scaleInt num den mask, q => q.map (Word.scale num den mask)
  | scaleFloat factor, q => q.map fun w => (Word.float w * factor).toBits
  | intMin bounds, q => onSome (fun b w => min w b) bounds q
  | intMax bounds, q => onSome (fun b w => max w b) bounds q
  | floatMin bounds, q => onSome Word.floatMin bounds q
  | floatMax bounds, q => onSome Word.floatMax bounds q

end RegOp

end PixelConv
