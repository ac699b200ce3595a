import PixelConv.Bytes
import PixelConv.Program

/-!
# Byte shuffles

A program that only moves bytes is one fixed selection of bytes per lane of pixels. `Shuffle.solve`
finds it by following where each byte of each component comes from; a lane is at most 16 bytes.
-/

namespace PixelConv

/-- Bytes of a lane. -/
def laneBytes : Nat := 16

/-- What an output byte of a lane is. -/
inductive Cell where
  /-- The input byte at an offset. -/
  | copy (offset : Nat)
  /-- A byte of zeros. -/
  | zero
  /-- A byte of ones. -/
  | ones
deriving DecidableEq

/-- A selection of bytes, the same for every lane. -/
structure Shuffle where
  /-- What each output byte is. -/
  cells : Vector Cell 16
  /-- Pixels per lane. -/
  pixels : Nat
  /-- Input bytes that a lane consumes. -/
  read : Nat
  /-- Output bytes that a lane produces. -/
  write : Nat

namespace Shuffle

/-! ## 1. Applying a shuffle -/

/-- The value of a cell; input bytes that do not exist count as zero. -/
def cellByte (input : Bytes) : Cell → UInt8
  | .copy offset => input.getD offset 0
  | .zero => 0
  | .ones => 0xff

/-- All bytes that a lane stores, including those beyond its pixels. -/
def lane (s : Shuffle) (input : Bytes) : Bytes := (s.cells.map (cellByte input)).toArray

/-- Stores the pixels of one lane. -/
def apply (s : Shuffle) (input output : Bytes) : Bytes :=
  output.splice 0 ((s.lane input).extract 0 s.write)

/-- Stores `lanes` lanes one after the other. Each stores a whole lane and then goes on by the bytes
of its pixels only. -/
def runLanes (s : Shuffle) (lanes : Nat) (src dst : Bytes) : Bytes :=
  (List.range lanes).foldl (fun dst n =>
    dst.splice (n * s.write) (s.lane (src.after (n * s.read)))) dst

/-! ## 2. Text -/

/-- The written form of a cell. -/
def cellText : Cell → String
  | .copy offset => offset.repr
  | .zero => "00"
  | .ones => "ff"

/-- Pixels per lane and the cells of one lane. -/
def text (s : Shuffle) : String :=
  s.pixels.repr ++ " px/lane [" ++
    " ".intercalate ((s.cells.toList.take s.write).map cellText) ++ "]"

/-- The offset that a cell copies, or 128 for a byte that does not come from the input. -/
def cellOffset : Cell → Nat
  | .copy offset => offset
  | _ => 128

/-- What is added to the byte of a cell: everything for a byte of ones. -/
def cellOnes : Cell → Nat
  | .ones => 255
  | _ => 0

end Shuffle

/-! ## 3. Following bytes through a program -/

/-- Where a byte of a component comes from. -/
inductive ByteSource where
  | input (offset : Nat)
  | zero
  | ones
  | undefined
deriving DecidableEq

/-- The bytes of a component in memory order; the first `len` of the four places are in use. -/
structure ByteTrace where
  places : Quad ByteSource
  len : Nat
deriving DecidableEq

namespace ByteTrace

/-- The places in use, reversed. -/
def reversed (t : ByteTrace) : ByteTrace :=
  { t with places := Quad.ofFn fun k =>
      if k.val < t.len then t.places (Fin.ofNat 4 (t.len - 1 - k.val)) else t.places k }

/-- The first `source` places repeated until `target` are in use. -/
def replicated (t : ByteTrace) (source target : Nat) : ByteTrace where
  places := Quad.ofFn fun k =>
    if k.val < target then t.places (Fin.ofNat 4 (k.val % source)) else t.places k
  len := target

/-- The places in use, in order. -/
def toList (t : ByteTrace) : List ByteSource := t.places.toList.take t.len

end ByteTrace

namespace Shuffle

/-- Bytes per pixel of a transfer of whole bytes to or from a single plane. -/
def chunk? (s : Shape) : Option Nat :=
  if s.layout.frac = 0 && (s.layout.packed || s.layout.count == 1) then
    some (s.layout.count * s.elem.size)
  else none

/-- The components after the read. -/
def loaded (s : Shape) : Quad ByteTrace :=
  Quad.ofFn fun c =>
    { places := Quad.ofFn fun k =>
        if c.val < s.layout.count && k.val < s.elem.size then
          .input (c.val * s.elem.size + k.val)
        else .undefined
      len := s.elem.size }

/-- The byte that fills a component with a constant: zero and the largest value of an integer. -/
def fill? (e : Elem) (q : Fraction) : Option ByteSource :=
  if q.isZero then some .zero else if e.max? = some q then some .ones else none

/-- Sets components to constants, if each is zero or the largest value. -/
def cleared? (e : Elem) (values : Constants) (comps : Quad ByteTrace) : Option (Quad ByteTrace) :=
  if values.all fun v => v.all fun q => (fill? e q).isSome then
    some (Quad.zipWith (fun v t =>
      match v.bind (fill? e) with
      | some b => { t with places := Quad.const b }
      | none => t) values comps)
  else none

/-- The components after an operation that only moves bytes. -/
def follow? (op : Op) (comps : Quad ByteTrace) : Option (Quad ByteTrace) :=
  match op.kind with
  | .swizzle s => some (s.apply comps)
  | .swapBytes => some (comps.map ByteTrace.reversed)
  | .clear values => cleared? op.elem values comps
  | .convert target expand =>
    if expand && op.elem.isInt && target.isInt && decide (op.elem.size ≤ target.size) then
      some (comps.map (·.replicated op.elem.size target.size))
    else none
  | _ => none

/-- The cell of a byte in the pixel that starts at input offset `base`. -/
def cell? (base : Nat) : ByteSource → Option Cell
  | .input offset => some (.copy (base + offset))
  | .zero => some .zero
  | .ones => some .ones
  | .undefined => none

/-- The cells of all pixels of a lane. The bytes of a pixel are followed by zeros up to its chunk,
and the pixels by zeros up to the end of the lane. -/
def laneCells (bytes : List ByteSource) (pixels readChunk writeChunk : Nat) : Vector Cell 16 :=
  Vector.ofFn fun i =>
    if i.val < pixels * writeChunk then
      ((bytes[i.val % writeChunk]?).bind (cell? (i.val / writeChunk * readChunk))).getD .zero
    else .zero

/-- Reduces a program to a shuffle of lanes of `lane` bytes, if it only moves bytes. -/
def solve (p : Program) (lane : Nat) : Checked (Option Shuffle) :=
  match p.source?, p.destination?, p.ops.length with
  | some r, some w, _ + 2 =>
    match chunk? r, chunk? w, p.inner.foldlM (fun comps op => follow? op comps) (loaded r) with
    | some readChunk, some writeChunk, some comps =>
      if w.elem.size ≠ comps.c0.len then .ok none
      else if max readChunk writeChunk = 0 then .error .divisionByZero
      else
        let pixels := min lane laneBytes / max readChunk writeChunk
        let bytes := (comps.toList.take w.layout.count).flatMap ByteTrace.toList
        if pixels = 0 || bytes.contains .undefined then .ok none
        else .ok (some
          { cells := laneCells bytes pixels readChunk writeChunk
            pixels := pixels
            read := pixels * readChunk
            write := pixels * writeChunk })
    | _, _, _ => .ok none
  | _, _, _ => .ok none

end Shuffle

end PixelConv
