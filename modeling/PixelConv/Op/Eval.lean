import PixelConv.BitField
import PixelConv.Fault
import PixelConv.Op

/-!
# The meaning of an operation on exact values

`Op.eval` applies one operation to four fractions. Transfers and byte order do not change a value.
Undefined components stay undefined under arithmetic, and a clamp of an undefined component gives
its bound. On integer elements shifts and scales wrap around, conversions saturate, clamps round
their bounds inward. `Op.evalRaw` is the same without the wrap-around, and therefore monotone.
`Op.evaluate` is `Op.eval` with the fault that rounding a bound may run into.
-/

namespace PixelConv

/-- Four exact component values. -/
abbrev Value := Quad Fraction

namespace Fraction

/-- Limits a value to the range from zero to `top`. -/
def saturate (q top : Fraction) : Fraction :=
  if q.isNegative then zero else if top.lt q then top else q

/-- Reduces a whole number modulo `n`; other values stay. -/
def wrap (q : Fraction) (n : Nat) : Fraction :=
  if q.isInteger then ofInt (q.num % n) else q

/-- The word that stands for a whole number in its range. -/
def word? (q : Fraction) : Option UInt32 :=
  if q.isInteger && decide (0 ≤ q.num ∧ q.num < 2 ^ (32 : Nat)) then some q.num.toNat.toUInt32 else none

/-- A word as a value. -/
def ofWord (w : UInt32) : Fraction := ofNat w.toNat

/-- The factor of a left shift. The sign bit of a term is the highest place that can be reached,
and it counts as negative. -/
def shiftFactor (n : Nat) : Fraction :=
  if n < 63 then ofInt (2 ^ n) else if n = 63 then ofInt (-2 ^ (63 : Nat)) else undefined

/-- Rounds down after a division by `2 ^ n`; nothing is left of 64 places or more. -/
def shiftRight (q : Fraction) (n : Nat) : Fraction :=
  if q.isDefined then ofInt (if n < 64 then q.num / q.den / 2 ^ n else 0) else q

end Fraction

/-! ## 1. Bit fields -/

/-- The fields of the first component; a component without a field is undefined. -/
def Value.unpack (e : Elem) (widths : Quad Nat) (x : Value) : Value :=
  match x.c0.word? with
  | none => Quad.const Fraction.undefined
  | some w => (BitField.ofWidths widths e.bits).map fun f =>
      if f.len = 0 then Fraction.undefined else Fraction.ofWord (f.extract w)

/-- The word that the leading components of a pattern give, if all of them are words. -/
def Value.packed? (e : Elem) (widths : Quad Nat) (x : Value) : Option UInt32 :=
  let fields := (BitField.ofWidths widths e.bits).toList
  ((x.toList.zip fields).take (BitField.count widths)).foldlM
    (fun w (q, f) => (q.word?).map (f.insert w)) 0

/-- The packed word in the first component; the others become undefined. -/
def Value.pack (e : Elem) (widths : Quad Nat) (x : Value) : Value :=
  let q := match x.packed? e widths with
    | some w => Fraction.ofWord w
    | none => Fraction.undefined
  ⟨q, Fraction.undefined, Fraction.undefined, Fraction.undefined⟩

/-! ## 2. Conversions, transforms and clamps -/

/-- Converts one value: toward zero and into range for integers. -/
def Fraction.convert (source target : Elem) (expand : Bool) (q : Fraction) : Fraction :=
  let q := if target.isInt then q.trunc else q
  let q := if expand then q * source.expansion target else q
  match target.max? with
  | some top => q.saturate top
  | none => q

/-- The value of one output of an affine transform; inputs with weight zero are not looked at. -/
def AffineRow.eval (r : AffineRow) (x : Value) : Fraction :=
  Quad.indices.foldl (fun sum j =>
    if (r.weight j).isZero then sum else sum + r.weight j * x j) r.offset

/-- The bound a clamp on `e` applies. On integers it is rounded into the clamped range, down for an
upper bound and up for a lower one, and limited to the range of the element. -/
def Elem.effectiveBound? (e : Elem) (upper : Bool) (bound : Option Fraction) : Option Fraction :=
  match bound with
  | none => none
  | some b =>
    if b.isDefined then
      match e.max? with
      | none => some b
      | some top => some ((if upper then b.floor else b.ceil).saturate top)
    else none

/-- Limits one value from above or from below. -/
def Fraction.clamp (e : Elem) (upper : Bool) (bound : Option Fraction) (q : Fraction) : Fraction :=
  match e.effectiveBound? upper bound with
  | none => q
  | some b =>
    if !q.isDefined || (if upper then b.lt q else q.lt b) then b else q

/-! ## 3. Operations -/

/-- The effect of an operation on exact values, without wrap-around. -/
def Op.evalRaw (op : Op) (x : Value) : Value :=
  match op.kind with
  | .read _ => x
  | .write _ => x
  | .swapBytes => x
  | .unpack w => x.unpack op.elem w
  | .pack w => x.pack op.elem w
  | .clear values => Quad.zipWith (fun c q => c.getD q) values x
  | .shiftLeft n => x.map (· * Fraction.shiftFactor n)
  | .shiftRight n => x.map (·.shiftRight n)
  | .swizzle s => s.apply x
  | .convert target expand => x.map (Fraction.convert op.elem target expand)
  | .dither _ => x.map (· + Fraction.half)
  | .affine t => t.rows.map (·.eval x)
  | .scale factor => x.map fun q => if op.elem.isInt then (q * factor).floor else q * factor
  | .atMost bounds => Quad.zipWith (Fraction.clamp op.elem true) bounds x
  | .atLeast bounds => Quad.zipWith (Fraction.clamp op.elem false) bounds x

/-- The operation wraps around on integer elements. -/
def Kind.wraps : Kind → Bool
  | shiftLeft _ => true
  | scale _ => true
  | _ => false

/-- The effect of an operation on exact values. -/
def Op.eval (op : Op) (x : Value) : Value :=
  let y := op.evalRaw x
  match op.elem.top? with
  | some top => if op.kind.wraps then y.map (·.wrap (top + 1)) else y
  | none => y

/-- A lower bound on integers is negated to be rounded up, and one of them has no negative. -/
def Op.negatesLeast (op : Op) : Bool :=
  match op.kind with
  | .atLeast bounds => op.elem.isInt && bounds.any fun b => b.any (!·.hasNegative)
  | _ => false

/-- The effect of an operation on exact values, unless a bound of it cannot be rounded. -/
def Op.evaluate (op : Op) (x : Value) : Checked Value :=
  if op.negatesLeast then .error .overflow else .ok (op.eval x)

end PixelConv
