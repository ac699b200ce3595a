import PixelConv.Op.Eval
import PixelConv.Program

/-!
# Analysis

Derives the information of every operation from the operations and the source depths alone. A
forward pass follows what is known about each component and between which bounds it lies; a
backward pass finds out which components are read at all, and forgets everything about the others.
`Program.analyse` is what both passes find, with numbers of any size. `Program.analysis` faults where
the bounds of an operation leave the machine words that are to hold them.
-/

namespace PixelConv

/-! ## 1. Forward: what is certain -/

/-- What is certain about the components after an operation. -/
def Op.knownAfter (op : Op) (prev : Info) : Quad Known :=
  match op.kind with
  | .read l => Quad.ofFn fun i =>
    if i.val < l.count then (if op.elem.isInt then Known.whole else Known.nothing)
    else prev.known i
  | .write _ => prev.known
  | .swapBytes => prev.known
  | .shiftLeft _ => prev.known
  | .shiftRight _ => prev.known
  | .atMost bounds => Quad.zipWith clamped bounds prev.known
  | .atLeast bounds => Quad.zipWith clamped bounds prev.known
  | .dither _ => prev.known.map Known.nonzero
  | .unpack widths => widths.map fun w => if 0 < w then prev.known.c0 else Known.undefined
  | .pack widths =>
    ⟨(prev.known.toList.take (BitField.count widths)).foldl Known.merge Known.null,
      Known.undefined, Known.undefined, Known.undefined⟩
  | .clear values => Quad.zipWith (fun value known =>
      match value with
      | none => known
      | some q =>
        if q.isZero then Known.null else if q.isInteger then Known.whole else Known.nothing)
      values prev.known
  | .swizzle s => s.apply prev.known
  | .convert target _ =>
    if target.isInt then prev.known.map fun k => if k.garbage then k else { k with exact := true }
    else prev.known
  | .affine t => t.rows.map fun r => rowKnown r prev.known
  | .scale factor => if factor.isInteger then prev.known else prev.known.map Known.inexact
where
  /-- A clamp to a fractional bound may give a fraction. -/
  clamped (bound : Option Fraction) (known : Known) : Known :=
    match bound with
    | none => known
    | some b => if b.isInteger then known else known.inexact
  /-- The inputs that contribute to a row are merged; a fractional weight or offset makes the sum
  inexact, and an offset other than zero keeps it from being zero. -/
  rowKnown (r : AffineRow) (known : Quad Known) : Known :=
    let sum := Quad.indices.foldl (fun acc j =>
      if (r.weight j).isZero || (known j).zero then acc
      else
        let acc := acc.merge (known j)
        if (r.weight j).isInteger then acc else acc.inexact) Known.null
    let sum := if r.offset.isZero then sum else sum.nonzero
    if r.offset.isInteger then sum else sum.inexact

/-! ## 2. Forward: bounds -/

/-- Applies a monotone effect to the lower and to the upper ends. -/
def Op.evalBounds (op : Op) (b : Quad Bounds) : Quad Bounds :=
  let low := op.evalRaw (b.map Bounds.low)
  let high := op.evalRaw (b.map Bounds.high)
  Quad.ofFn fun i => ⟨low i, high i⟩

/-- Bounds that leave the range of an integer element cover all of it after a wrap-around. -/
def Bounds.wrapped (b : Bounds) (top : Fraction) : Bounds :=
  let (lo, hi) := if b.high.lt b.low then (b.high, b.low) else (b.low, b.high)
  if lo.isNegative || top.lt hi then ⟨Fraction.zero, top⟩ else b

/-- Bounds after an operation that wraps around on integer elements. -/
def Op.wrappedBounds (op : Op) (b : Quad Bounds) : Quad Bounds :=
  let b := op.evalBounds b
  match op.elem.max? with
  | some top => b.map (·.wrapped top)
  | none => b

/-- The bits that a source component uses: its depth if it is known and has its own plane, the
whole element otherwise. -/
def Layout.usedBits (l : Layout) (e : Elem) (depths : Option Depths) (i : Fin 4) : Nat :=
  let whole := e.bits / 2 ^ l.frac
  match depths with
  | some d => if 0 < d i && !l.packed then d i else whole
  | none => whole

/-- The bounds of an unsigned number with `bits` bits. They are one less than a power of two that has
to fit a term itself, see `Bounds.maxBits`. -/
def Bounds.ofBits (bits : Nat) : Bounds := ⟨Fraction.zero, Fraction.ofInt (2 ^ bits - 1)⟩

/-- The bounds of one output of an affine transform. -/
def AffineRow.bounds (r : AffineRow) (prev : Info) : Bounds :=
  Quad.indices.foldl (fun acc j =>
    let w := r.weight j
    if w.isZero || (prev.known j).zero then acc
    else
      let b := if w.isNegative then (prev.bounds j).swap else prev.bounds j
      ⟨acc.low + w * b.low, acc.high + w * b.high⟩) ⟨r.offset, r.offset⟩

/-- The bounds of the components after an operation. -/
def Op.boundsAfter (op : Op) (depths : Option Depths) (prev : Info) : Quad Bounds :=
  match op.kind with
  | .read l => Quad.ofFn fun i =>
    if i.val < l.count then
      (if op.elem.isInt then Bounds.ofBits (l.usedBits op.elem depths i) else Bounds.unknown)
    else prev.bounds i
  | .write _ => prev.bounds
  | .swapBytes =>
    match op.elem.max? with
    | some top => if 1 < op.elem.size then Quad.const ⟨Fraction.zero, top⟩ else prev.bounds
    | none => prev.bounds
  | .shiftLeft _ => op.wrappedBounds prev.bounds
  | .atMost bounds => Quad.ofFn fun i =>
    let b := op.evalBounds prev.bounds i
    if (bounds i).isSome && !(prev.bounds i).low.isDefined then
      { b with low := Fraction.undefined } else b
  | .atLeast bounds => Quad.ofFn fun i =>
    let b := op.evalBounds prev.bounds i
    if (bounds i).isSome && !(prev.bounds i).high.isDefined then
      { b with high := Fraction.undefined } else b
  | .dither d =>
    let lowest := d.lowest
    let highest := d.highest
    prev.bounds.map fun b => ⟨b.low + lowest, b.high + highest⟩
  | .unpack widths => widths.map fun w => if 0 < w then Bounds.ofBits w else Bounds.unknown
  | .affine t => t.rows.map (·.bounds prev)
  | .scale factor =>
    let b := op.wrappedBounds prev.bounds
    if factor.isNegative then b.map Bounds.swap else b
  | .shiftRight _ => op.evalBounds prev.bounds
  | .pack _ => op.evalBounds prev.bounds
  | .clear _ => op.evalBounds prev.bounds
  | .swizzle _ => op.evalBounds prev.bounds
  | .convert _ _ => op.evalBounds prev.bounds

/-- The information after an operation, from the information before it. -/
def Op.infoAfter (op : Op) (depths : Option Depths) (prev : Info) : Info :=
  let known := op.knownAfter prev
  let bounds := op.boundsAfter depths prev
  { known := known
    bounds := Quad.ofFn fun i => if (known i).garbage then Bounds.unknown else bounds i
    unused := Quad.const false }

/-! ## 3. Backward: what is read -/

/-- The input components an operation reads, from the output components that are read. -/
def Op.needs (op : Op) (out : Quad Bool) : Quad Bool :=
  match op.kind with
  | .read l => Quad.ofFn fun i => decide (l.count ≤ i.val) && out i
  | .write l => Quad.ofFn fun i => decide (i.val < l.count)
  | .unpack widths => ⟨(out.toList.take (BitField.count widths)).any id, false, false, false⟩
  | .pack widths => Quad.ofFn fun i => decide (i.val < BitField.count widths) && out.c0
  | .clear values => Quad.ofFn fun i => out i && (values i).isNone
  | .swizzle s => Quad.ofFn fun j => Quad.indices.any fun i => decide (s.source i = j) && out i
  | .affine t => Quad.ofFn fun j => Quad.indices.any fun i =>
      out i && !((t.rows i).weight j).isZero
  | .swapBytes => out
  | .shiftLeft _ => out
  | .shiftRight _ => out
  | .convert _ _ => out
  | .dither _ => out
  | .scale _ => out
  | .atMost _ => out
  | .atLeast _ => out

/-- Forgets everything about the components that nothing reads. -/
def Info.restrict (info : Info) (needed : Quad Bool) : Info where
  known := Quad.ofFn fun i => if needed i then info.known i else Known.undefined
  bounds := Quad.ofFn fun i => if needed i then info.bounds i else Bounds.unknown
  unused := needed.map (!·)

/-! ## 4. Programs -/

/-- The forward pass over a list of operations. -/
def forward (depths : Option Depths) : Info → List Op → List Op
  | _, [] => []
  | prev, op :: rest =>
    let info := op.infoAfter depths prev
    { op with info := info } :: forward depths info rest

/-- The backward pass: the operations with their unused components forgotten, and the components
that the list reads from what comes before it. After the last operation everything is read. -/
def backward : List Op → List Op × Quad Bool
  | [] => ([], Quad.const true)
  | op :: rest =>
    let (rest, needed) := backward rest
    ({ op with info := op.info.restrict needed } :: rest, op.needs needed)

/-- Derives the information of all operations anew. -/
def Program.analyse (p : Program) : Program :=
  { p with ops := (backward (forward p.depths Info.start p.ops)).1, analysed := true }

/-! ## 5. Bounds that leave their words -/

/-- The most bits whose bounds can be computed: `2 ^ 62` is a term and `2 ^ 63` is none. -/
def Bounds.maxBits : Nat := 62

/-- The width of the word that an element is cut in. -/
def Layout.cutBits : Nat := 32

/-- The bounds of a source component can be computed: its depth is not too large where it counts, and
elsewhere the element is cut by less than the width of its word. -/
def Layout.measures (l : Layout) (depths : Option Depths) (i : Fin 4) : Bool :=
  match depths with
  | some d =>
    if 0 < d i && !l.packed then decide (d i ≤ Bounds.maxBits) else decide (l.frac < Layout.cutBits)
  | none => decide (l.frac < Layout.cutBits)

/-- The bounds of some component after the operation cannot be computed. -/
def Op.overflows (op : Op) (depths : Option Depths) : Bool :=
  match op.kind with
  | .read l => op.elem.isInt && Quad.indices.any fun i =>
      decide (i.val < l.count) && !l.measures depths i
  | .unpack widths => widths.any fun w => decide (Bounds.maxBits < w)
  | _ => op.negatesLeast

/-- The information of all operations, unless some bounds cannot be computed. -/
def Program.analysis (p : Program) : Checked Program :=
  if p.ops.any (·.overflows p.depths) then .error .overflow else .ok p.analyse

end PixelConv
