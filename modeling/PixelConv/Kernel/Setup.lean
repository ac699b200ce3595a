import PixelConv.Error
import PixelConv.Kernel.Block
import PixelConv.Op.Eval

/-!
# Setting kernels up

A kernel is built for one operation: its parameters are worked out once, and an operation that the
kernel cannot do is refused.
-/

namespace PixelConv

/-- Builds a kernel for an operation. -/
abbrev Setup := Op → Except CompileError Kernel

namespace Setup

/-- Refuses the operation. -/
def refuse {α : Type} (why : Refusal) : Except CompileError α := .error (.unsupported why)

/-- A kernel without parameters. -/
def fixed (k : Kernel) : Setup := fun _ => .ok k

/-! ## 1. Transfers -/

/-- The layout within the range that the kernels know: at most four components and eight elements
per byte. -/
def transfer (op : Op) : Except CompileError Layout :=
  match op.transfer? with
  | none => refuse .wrongOperation
  | some l =>
    if 0 < l.frac && op.elem ≠ .u8 then refuse .wideFraction
    else .ok { l with count := min l.count 4, frac := min l.frac 3 }

/-- Loads elements of `size` bytes. -/
def load (size : Nat) : Setup := fun op => (transfer op).map (Kernel.load size)

/-- Stores elements of `size` bytes. -/
def store (size : Nat) : Setup := fun op => (transfer op).map (Kernel.store size)

/-! ## 2. Bits -/

/-- The fields of a pattern that fits its element. -/
def fields (op : Op) (widths : Quad Nat) : Except CompileError (Quad BitField) :=
  if op.elem.bits < widths.toList.sum then refuse .patternTooWide
  else .ok (BitField.ofWidths widths op.elem.bits)

/-- Splits or gathers bit fields. -/
def pattern : Setup := fun op =>
  match op.kind with
  | .unpack w => (fields op w).map fun f => .compute (.unpack f)
  | .pack w => (fields op w).map fun f => .compute (.pack f)
  | _ => refuse .wrongOperation

/-- The word with the bits of an element set. -/
def elemMask (e : Elem) : UInt32 := (2 ^ e.bits - 1).toUInt32

/-- A shift amount below the width of the element. -/
def shiftAmount (op : Op) (n : Nat) : Except CompileError (Fin 32) :=
  if op.elem.bits ≤ n then refuse .shiftTooWide else .ok (Fin.ofNat 32 n)

/-- Shifts. -/
def shift : Setup := fun op =>
  match op.kind with
  | .shiftLeft n => (shiftAmount op n).map fun n => .compute (.shiftLeft n (elemMask op.elem))
  | .shiftRight n => (shiftAmount op n).map fun n => .compute (.shiftRight n)
  | _ => refuse .wrongOperation

/-! ## 3. Constants and swizzles -/

/-- The register contents of one constant. -/
def clearWord (e : Elem) : Option Fraction → Except CompileError (Option UInt32)
  | none => .ok none
  | some q => match e.word? q with
    | some w => .ok (some w)
    | none => refuse .clearOutOfRange

/-- Sets components to constants. -/
def clear : Setup := fun op =>
  match op.kind with
  | .clear values =>
    (Quad.ofFnM fun i => clearWord op.elem (values i)).map fun words => .compute (.clear words)
  | _ => refuse .wrongOperation

/-- Copies components. -/
def swizzle : Setup := fun op =>
  match op.kind with
  | .swizzle s => .ok (.compute (.swizzle (Quad.ofFn s.source)))
  | _ => refuse .wrongOperation

/-! ## 4. Arithmetic -/

/-- The word of a whole number, one for a fraction. -/
def wholeFactor (q : Fraction) : UInt32 := if q.isInteger then q.num.toNat.toUInt32 else 1

/-- Converts between elements. -/
def convert : Setup := fun op =>
  match op.kind with
  | .convert target expand =>
    let factor := if expand then op.elem.expansion target else Fraction.one
    .ok (.compute (match op.elem.isInt, target.isInt with
      | true, true => .widen (wholeFactor factor) (elemMask target)
      | true, false => .toFloat factor.toFloat32
      | false, true => .toInt (elemMask target)
      | false, false => .keep))
  | _ => refuse .wrongOperation

/-- Adds a tile whose entries match its size. -/
def dither : Setup := fun op =>
  match op.kind with
  | .dither d =>
    if 8 < d.sideLog2 || d.entries.size ≠ d.size * d.size then refuse .malformedDither
    else .ok (.compute (.dither d.size (d.entries.map Fraction.toFloat32)))
  | _ => refuse .wrongOperation

/-- A row in floats. -/
def floatRow (r : AffineRow) : FloatRow := ⟨r.weight.map Fraction.toFloat32, r.offset.toFloat32⟩

/-- Applies the rows of a transform that differ from the identity. -/
def affine : Setup := fun op =>
  match op.kind with
  | .affine t => .ok (.compute (.affine (Quad.ofFn fun i =>
      if EntryMask.meets t.mask (EntryMask.row i.val) then some (floatRow (t.rows i)) else none)))
  | _ => refuse .wrongOperation

/-- Applies the first row of a transform to three components. -/
def dot3 : Setup := fun op =>
  match op.kind with
  | .affine t => .ok (.compute (.dot3 (floatRow t.rows.c0)))
  | _ => refuse .wrongOperation

/-- Multiplies integers by a fraction of two words. -/
def scaleInt : Setup := fun op =>
  match op.kind, op.elem.top? with
  | .scale factor, some top =>
    if factor.isNegative || 2 ^ (32 : Nat) ≤ factor.num.natAbs || 2 ^ (32 : Nat) ≤ factor.den then
      refuse .scaleOutOfRange
    else .ok (.compute (.scaleInt factor.num.natAbs factor.den top))
  | _, _ => refuse .wrongOperation

/-- Multiplies floats. -/
def scaleFloat : Setup := fun op =>
  match op.kind with
  | .scale factor => .ok (.compute (.scaleFloat factor.toFloat32))
  | _ => refuse .wrongOperation

/-- The words of the bounds of a clamp on integers. What is linked was analysed, so each of its lower
bounds has a negative. -/
def intBounds (op : Op) (upper : Bool) (bounds : Constants) : Quad (Option UInt32) :=
  bounds.map fun b => (op.elem.effectiveBound? upper b).map fun q => q.num.toNat.toUInt32

/-- The floats of the bounds of a clamp. -/
def floatBounds (op : Op) (upper : Bool) (bounds : Constants) : Quad (Option Float32) :=
  bounds.map fun b => (op.elem.effectiveBound? upper b).map Fraction.toFloat32

/-- Limits integers. -/
def clampInt : Setup := fun op =>
  match op.kind with
  | .atMost bounds => .ok (.compute (.intMin (intBounds op true bounds)))
  | .atLeast bounds => .ok (.compute (.intMax (intBounds op false bounds)))
  | _ => refuse .wrongOperation

/-- Limits floats. -/
def clampFloat : Setup := fun op =>
  match op.kind with
  | .atMost bounds => .ok (.compute (.floatMin (floatBounds op true bounds)))
  | .atLeast bounds => .ok (.compute (.floatMax (floatBounds op false bounds)))
  | _ => refuse .wrongOperation

end Setup

end PixelConv
