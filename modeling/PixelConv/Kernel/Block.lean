import PixelConv.Bytes
import PixelConv.Kernel.Register
import PixelConv.Layout

/-!
# Kernels

A kernel works on a block of 32 pixels: it moves bytes between memory and the registers, or changes
the registers of every pixel in the same way. A kernel touches only the memory it was given; missing
input leaves registers as they are, and output that does not exist is not stored.
-/

namespace PixelConv

/-- Pixels per block. -/
def blockPixels : Nat := 32

/-- The state that the kernels of a chain work on. -/
structure Block where
  /-- The registers of every pixel. -/
  pixels : Vector Pixel 32
  /-- The input planes from the first pixel of the block on. -/
  input : Quad Bytes
  /-- The output planes from the first pixel of the block on. -/
  output : Quad Bytes
  /-- The column of the first pixel. -/
  x : Nat
  /-- The row in the whole image. -/
  y : Nat

namespace Block

/-- A block whose registers are all zero. -/
def start (input output : Quad Bytes) (x y : Nat) : Block :=
  ⟨Vector.replicate 32 (Quad.const 0), input, output, x, y⟩

/-- Changes the registers of every pixel, by its place in the block. -/
def mapPixels (b : Block) (f : Nat → Pixel → Pixel) : Block :=
  { b with pixels := b.pixels.mapIdx f }

/-- Register `c` of pixel `x`; pixels that do not exist have zeros. -/
def reg (b : Block) (x : Nat) (c : Fin 4) : UInt32 :=
  match b.pixels[x]? with
  | some q => q c
  | none => 0

/-- Changes the first output plane. -/
def mapFirst (b : Block) (f : Bytes → Bytes) : Block :=
  { b with output := { b.output with c0 := f b.output.c0 } }

end Block

/-! ## 1. Loading -/

namespace Load

/-- An element that takes `8 / 2 ^ frac` bits; the first pixel of a byte is in its highest bits. -/
def fraction (frac : Nat) (plane : Bytes) (x : Nat) : UInt32 :=
  let bits := 8 / 2 ^ frac
  let byte := (plane.getD (x / 2 ^ frac) 0).toNat
  (byte / 2 ^ (8 - bits * (x % 2 ^ frac + 1)) % 2 ^ bits).toUInt32

/-- Interleaved elements of `size` bytes, if the whole pixel exists. -/
def interleaved (size count : Nat) (plane : Bytes) (x : Nat) (q : Pixel) : Pixel :=
  let chunk := size * count
  if (x + 1) * chunk ≤ plane.size then
    Quad.ofFn fun c => if c.val < count then plane.word size (x * chunk + c.val * size) else q c
  else q

/-- Elements of `size` bytes from one plane each, where they exist. -/
def planar (size count : Nat) (planes : Quad Bytes) (x : Nat) (q : Pixel) : Pixel :=
  Quad.ofFn fun c =>
    if c.val < count && (x + 1) * size ≤ (planes c).size then (planes c).word size (x * size)
    else q c

/-- Three interleaved bytes, if the four bytes of a word exist there. -/
def triple (plane : Bytes) (x : Nat) (q : Pixel) : Pixel :=
  if 3 * x + 4 ≤ plane.size then
    let w := plane.word 4 (3 * x)
    { q with c0 := Word.byte w 0, c1 := Word.byte w 8, c2 := Word.byte w 16 }
  else q

end Load

/-! ## 2. Storing -/

namespace Store

/-- The byte that holds the first registers of `2 ^ frac` pixels. -/
def fractionByte (frac : Nat) (b : Block) (i : Nat) : UInt8 :=
  let bits : Nat := 8 / 2 ^ frac
  let digits := (List.range (2 ^ frac)).map fun k => (b.reg (i * 2 ^ frac + k) 0).toNat % 2 ^ bits
  (digits.foldl (fun (acc d : Nat) => acc * 2 ^ bits + d) 0).toUInt8

/-- Elements that take `8 / 2 ^ frac` bits, where their bytes exist. -/
def fraction (frac : Nat) (b : Block) (plane : Bytes) : Bytes :=
  plane.mapIdx fun i old => if i < blockPixels / 2 ^ frac then fractionByte frac b i else old

/-- Interleaved elements of `size` bytes, where the whole pixel exists. -/
def interleaved (size count : Nat) (b : Block) (plane : Bytes) : Bytes :=
  let chunk := size * count
  plane.mapIdx fun i old =>
    let x := i / chunk
    if x < blockPixels && (x + 1) * chunk ≤ plane.size then
      Bytes.ofWord (b.reg x (Fin.ofNat 4 (i % chunk / size))) (i % size)
    else old

/-- Elements of `size` bytes of register `c`, where they exist. -/
def planar (size : Nat) (b : Block) (c : Fin 4) (plane : Bytes) : Bytes :=
  plane.mapIdx fun i old =>
    let x := i / size
    if x < blockPixels && (x + 1) * size ≤ plane.size then Bytes.ofWord (b.reg x c) (i % size)
    else old

/-- Three interleaved bytes per pixel, each pixel stored as a word of four bytes where that exists.
The fourth byte is zero until the next pixel is stored. -/
def triples (b : Block) (plane : Bytes) : Bytes :=
  (List.range blockPixels).foldl (fun plane x =>
    if 3 * x + 4 ≤ plane.size then
      plane.splice (3 * x) #[Bytes.ofWord (b.reg x 0) 0, Bytes.ofWord (b.reg x 1) 0,
        Bytes.ofWord (b.reg x 2) 0, 0]
    else plane) plane

end Store

/-! ## 3. Kernels -/

/-- What a link of a chain does to a block. -/
inductive Kernel where
  /-- Loads elements of `size` bytes. -/
  | load (size : Nat) (layout : Layout)
  /-- Loads three interleaved bytes per pixel. -/
  | loadTriples
  /-- Stores elements of `size` bytes. -/
  | store (size : Nat) (layout : Layout)
  /-- Stores three interleaved bytes per pixel. -/
  | storeTriples
  /-- Changes the registers of every pixel. -/
  | compute (op : RegOp)
  /-- Any other effect. -/
  | custom (run : Block → Checked Block)

namespace Kernel

/-- Runs a kernel on a block. -/
def run (b : Block) : Kernel → Checked Block
  | load size l =>
    if 0 < l.frac then
      .ok (b.mapPixels fun x q => { q with c0 := Load.fraction l.frac b.input.c0 x })
    else if l.packed then
      if size * l.count = 0 then .error .zeroChunk
      else .ok (b.mapPixels (Load.interleaved size l.count b.input.c0))
    else .ok (b.mapPixels (Load.planar size l.count b.input))
  | loadTriples => .ok (b.mapPixels (Load.triple b.input.c0))
  | store size l =>
    if 0 < l.frac then .ok (b.mapFirst (Store.fraction l.frac b))
    else if l.packed then
      if size * l.count = 0 then .error .zeroChunk
      else .ok (b.mapFirst (Store.interleaved size l.count b))
    else .ok { b with output := Quad.ofFn fun c =>
        if c.val < l.count then Store.planar size b c (b.output c) else b.output c }
  | storeTriples => .ok (b.mapFirst (Store.triples b))
  | compute op => .ok (b.mapPixels fun x q => op.apply (b.x + x) b.y q)
  | custom f => f b

end Kernel

end PixelConv
