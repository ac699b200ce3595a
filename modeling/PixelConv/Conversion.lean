import PixelConv.Chain
import PixelConv.Shuffle
import PixelConv.View

/-!
# Conversions

A compiled conversion copies rows, or runs a kernel chain or a byte shuffle block by block. Blocks
whose whole footprint, margins included, lies within the rows are converted in place; all others go
through scratch buffers, from which only the bytes of their pixels are taken. So nothing outside
the pixels of a row is ever changed.
-/

namespace PixelConv

/-- How a conversion is carried out. -/
inductive Routine where
  /-- Rows are copied. -/
  | copy
  | chain (c : Chain)
  /-- Lanes of bytes are shuffled. -/
  | shuffle (s : Shuffle)

/-- A compiled conversion. -/
structure Conversion where
  routine : Routine
  read : Shape
  write : Shape
  /-- Pixels per block, zero for a copy. -/
  blockSize : Nat
  /-- Bytes read past the end of a block. -/
  readMargin : Nat
  /-- Bytes written past the end of a block. -/
  writeMargin : Nat
  /-- Processor features in use. -/
  cpu : CpuSet
  /-- The name of the backend that compiled it. -/
  backend : String

namespace Conversion

/-! ## 1. Building -/

/-- Lanes per block of a shuffle. -/
def lanes : Nat := 16

/-- Copies rows of a shape. -/
def ofCopy (shape : Shape) : Conversion :=
  ⟨.copy, shape, shape, 0, 0, 0, CpuSet.none, "copy"⟩

/-- Runs a chain that was built for a program. -/
def ofChain (p : Program) (c : Chain) (backend : String) : Except CompileError Conversion :=
  match p.ends with
  | .error e => .error (.invalid e)
  | .ok (r, w) => .ok ⟨.chain c, r, w, blockPixels, c.readMargin, c.writeMargin, c.needs, backend⟩

/-- Runs a shuffle that a program was reduced to. -/
def ofShuffle (p : Program) (s : Shuffle) (cpu : CpuSet) (backend : String) :
    Except CompileError Conversion :=
  match p.ends with
  | .error e => .error (.invalid e)
  | .ok (r, w) =>
    .ok ⟨.shuffle s, r, w, s.pixels * lanes, laneBytes - s.read, laneBytes - s.write, cpu, backend⟩

/-- The conversion copies rows. -/
def copiesRows (c : Conversion) : Bool :=
  match c.routine with
  | .copy => true
  | _ => false

/-- The shuffle, if there is one. -/
def shuffle? (c : Conversion) : Option Shuffle :=
  match c.routine with
  | .shuffle s => some s
  | _ => none

/-- The number of kernels, if there is a chain. -/
def chainLength? (c : Conversion) : Option Nat :=
  match c.routine with
  | .chain k => some k.links.length
  | _ => none

/-! ## 2. Blocks -/

/-- Bits of a machine word. -/
def wordBits : Nat := 64

/-- What is worked out from the bytes that pixels of a shape take. The elements that share a byte are
counted by a shift of a machine word, which has to stay below its width. -/
def measured (s : Shape) {α : Type} (answer : Checked α) : Checked α :=
  if s.layout.frac < wordBits then answer else .error .oversizedShift

/-- Bytes of scratch per plane. -/
def scratchBytes : Nat := 1024

/-- Runs the routine on the memory from the first pixel of a block on; the output after it. -/
def onBlock (c : Conversion) (src dst : Quad Bytes) (x y : Nat) : Checked (Quad Bytes) :=
  match c.routine with
  | .copy => .ok dst
  | .chain k => (k.run (Block.start src dst x y)).map Block.output
  | .shuffle s => .ok { dst with c0 := s.runLanes lanes src.c0 dst.c0 }

/-- The planes that a shape uses hold `pixels` pixels from column `x` on, and `margin` bytes
more. -/
def holds (s : Shape) (planes : Quad Bytes) (x pixels margin : Nat) : Checked Bool :=
  if s.layout.planes ≤ 4 then
    .ok ((planes.toList.take s.layout.planes).all fun b =>
      s.bytesPerPlane x + s.bytesPerPlane pixels + margin ≤ b.size)
  else .error .outOfRange

/-- A plane of scratch that starts like `b`. -/
def scratch (b : Bytes) : Bytes := (Bytes.zeros scratchBytes).splice 0 b

/-- The block can be converted in place: it is a whole one, and its footprint with the margins lies
within the rows. -/
def isDirect (c : Conversion) (input output : Quad Bytes) (x pixels : Nat) : Checked Bool :=
  if pixels ≠ c.blockSize then .ok false
  else
    match holds c.read input x c.blockSize c.readMargin with
    | .error f => .error f
    | .ok false => .ok false
    | .ok true => holds c.write output x c.blockSize c.writeMargin

/-- Converts a block in place. -/
def convertInPlace (c : Conversion) (input output : Quad Bytes) (x y : Nat) :
    Checked (Quad Bytes) :=
  let start := c.write.bytesPerPlane x
  let src := input.map (·.after (c.read.bytesPerPlane x))
  (c.onBlock src (output.map (·.after start)) x y).map fun out =>
    Quad.zipWith (fun b piece => b.splice start piece) output out

/-- The input of a block in scratch buffers. -/
def scratchInput (c : Conversion) (input : Quad Bytes) (x : Nat) : Quad Bytes :=
  Quad.ofFn fun p =>
    if p.val < c.read.layout.planes then scratch ((input p).after (c.read.bytesPerPlane x))
    else Bytes.zeros scratchBytes

/-- Takes the bytes of `pixels` pixels from a scratch buffer into plane `p` of the output, as far as
it has room. -/
def takeScratch (c : Conversion) (output out : Quad Bytes) (x pixels : Nat) (p : Fin 4) :
    Checked Bytes :=
  let start := c.write.bytesPerPlane x
  if p.val < c.write.layout.planes then
    ((out p).first (min ((output p).size - start) (c.write.bytesPerPlane pixels))).map
      ((output p).splice start)
  else .ok (output p)

/-- Converts a block of `pixels` pixels through scratch buffers. -/
def convertViaScratch (c : Conversion) (input output : Quad Bytes) (x y pixels : Nat) :
    Checked (Quad Bytes) :=
  match c.onBlock (c.scratchInput input x) (Quad.const (Bytes.zeros scratchBytes)) x y with
  | .error f => .error f
  | .ok out => Quad.ofFnM (c.takeScratch output out x pixels)

/-- Converts the block of `pixels` pixels that starts in column `x`. -/
def convertBlock (c : Conversion) (input output : Quad Bytes) (x y pixels : Nat) :
    Checked (Quad Bytes) :=
  measured c.read (match c.isDirect input output x pixels with
    | .error f => .error f
    | .ok true => c.convertInPlace input output x y
    | .ok false => c.convertViaScratch input output x y pixels)

/-! ## 3. Rows -/

/-- Copies the first `bytes` bytes of a plane onto another one; both have to have them. -/
def copyPlane (bytes : Nat) (input output : Bytes) : Checked Bytes :=
  if bytes ≤ output.size then (input.first bytes).map (output.splice 0) else .error .outOfRange

/-- Copies the pixels of a row. Rows that are too short are refused. -/
def copyRow (c : Conversion) (input output : Quad Bytes) (width : Nat) : Checked (Quad Bytes) :=
  Quad.ofFnM fun p =>
    if p.val < c.read.layout.planes then copyPlane (c.read.bytesPerPlane width) (input p) (output p)
    else .ok (output p)

/-- The first columns of the blocks of a row. -/
def blockStarts (block width : Nat) : List Nat :=
  (List.range ((width + block - 1) / block)).map (· * block)

/-- Converts the pixels of a row. -/
def convertRow (c : Conversion) (input output : Quad Bytes) (width y : Nat) :
    Checked (Quad Bytes) :=
  match c.routine with
  | .copy => measured c.read (c.copyRow input output width)
  | _ =>
    let block := max c.blockSize 1
    (blockStarts block width).foldlM
      (fun output x => c.convertBlock input output x y (min block (width - x))) output

/-- The part of a destination row that the pixels take, per plane in use. -/
def rowOutput (c : Conversion) (dst : View) (width row : Nat) : Quad Bytes :=
  Quad.ofFn fun p =>
    if p.val < c.write.layout.planes then
      (dst.planes p).extract (dst.cut row p) (dst.cut row p + c.write.bytesPerPlane width)
    else #[]

/-- Converts row `row` of both views; the destination after it. -/
def rowStep (c : Conversion) (src : View) (width : Nat) (dst : View) (row : Nat) :
    Checked View :=
  let input := Quad.ofFn fun p => (src.planes p).after (row * src.stride p)
  (c.convertRow input (c.rowOutput dst width row) width (dst.firstRow + row)).map fun out =>
    { dst with planes := Quad.ofFn fun p => (dst.planes p).splice (dst.cut row p) (out p) }

/-! ## 4. Views -/

/-- Converts `width` pixels of every row that both views have; the destination after it. -/
def run (c : Conversion) (src dst : View) (width : Nat) : Checked View :=
  measured c.write ((List.range (min src.rows dst.rows)).foldlM (c.rowStep src width) dst)

/-- Cuts off bands of rows of the given heights and converts each, and then the rows that are
left; the destination after it. -/
def runBands (c : Conversion) (width : Nat) : List Nat → View → View → Checked View
  | [], src, dst => c.run src dst width
  | rows :: heights, src, dst =>
    match c.run (src.splitRows rows).1 (dst.splitRows rows).1 width with
    | .error f => .error f
    | .ok top =>
      (c.runBands width heights (src.splitRows rows).2 (dst.splitRows rows).2).map top.append

end Conversion

end PixelConv
