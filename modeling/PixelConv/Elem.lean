import PixelConv.Fraction.Float

/-!
# Element types

The numeric representation of one component in memory and in a register: unsigned integers of
8, 16 or 32 bits and single-precision floats. A register is a 32-bit word; it holds an integer as
it is and a float as its bit pattern.
-/

namespace PixelConv

/-- The representation an operation reads and writes. -/
inductive Elem where
  | u8
  | u16
  | u32
  | f32
deriving DecidableEq

namespace Elem

/-- Bytes of one element. -/
def size : Elem → Nat
  | u8 => 1
  | u16 => 2
  | u32 => 4
  | f32 => 4

/-- Bits of one element. -/
def bits (e : Elem) : Nat := 8 * e.size

/-- The element is an unsigned integer. -/
def isInt : Elem → Bool
  | f32 => false
  | _ => true

/-- The largest value of an integer element. -/
def top? (e : Elem) : Option Nat := if e.isInt then some (2 ^ e.bits - 1) else none

/-- The largest value of an integer element, as a fraction. -/
def max? (e : Elem) : Option Fraction := e.top?.map Fraction.ofNat

/-- The register contents that stand for `q`, when the element can hold it: an integer in range for
integer elements, the nearest float of a known value for floats. -/
def word? (e : Elem) (q : Fraction) : Option UInt32 :=
  match e.max? with
  | none => if q.isDefined then some q.toFloat32.toBits else none
  | some top =>
    if q.isInteger && !q.isNegative && q.le top then some q.num.toNat.toUInt32 else none

/-- The repunit with `n` digits in base `2 ^ b`. -/
def repunit (b : Nat) : Nat → Nat
  | 0 => 0
  | n + 1 => repunit b n * 2 ^ b + 1

/-- The factor that maps the full range of `source` onto the full range of `target`. Widening
replicates the integer, conversion to floats maps onto the unit interval, and every other pair has
no expansion. -/
def expansion (source target : Elem) : Fraction :=
  match source.isInt, target.isInt with
  | true, true =>
    if source.size < target.size then
      Fraction.ofNat (repunit source.bits (target.size / source.size))
    else Fraction.one
  | true, false => (Fraction.ofNat (2 ^ source.bits - 1)).recip
  | false, _ => Fraction.one

/-- The written form. -/
def text : Elem → String
  | u8 => "u8"
  | u16 => "u16"
  | u32 => "u32"
  | f32 => "f32"

end Elem

end PixelConv
