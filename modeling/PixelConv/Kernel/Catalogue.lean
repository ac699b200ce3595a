import PixelConv.Kernel.Table

/-!
# The portable kernels

Two tables: kernels for common ends, and kernels that take every operation of their verb.
-/

namespace PixelConv

namespace Catalogue

/-- An entry that takes every operation its set-up takes. -/
def any (name : String) (verb : Verb) (elem : Elem) (setup : Setup) : Entry :=
  { name := name, verb := verb, elem := elem, general := true, setup := setup }

/-- Kernels for common ends. -/
def specialized : Table where
  name := "scalar-specialized"
  needs := CpuSet.none
  blockSize := blockPixels
  entries := [
    { name := "read_u8x3", verb := .read, elem := .u8, params := .layout (.interleaved 3)
      setup := .fixed .loadTriples, readMargin := 1 },
    { name := "write_u8x3", verb := .write, elem := .u8, params := .layout (.interleaved 3)
      setup := .fixed .storeTriples, writeMargin := 1 },
    { name := "clear_alpha_u8", verb := .clear, elem := .u8
      params := .clear ⟨none, none, none, some (.ofNat 255)⟩
      setup := .fixed (.compute (.clear ⟨none, none, none, some 255⟩)) },
    { name := "swizzle_bgr", verb := .swizzle, elem := .u8
      params := .swizzle ⟨⟨2, 1, 0, 3⟩⟩
      setup := .fixed (.compute (.swizzle ⟨2, 1, 0, 3⟩)) },
    { name := "expand_u8_f32", verb := .convert, elem := .u8, params := .convert .f32 true
      setup := .fixed (.compute (.toUnit 255.0)) },
    { name := "dot3_f32", verb := .affine, elem := .f32
      params := .affineMask (EntryMask.row 0 &&& ~~~EntryMask.col 3)
      unused := ⟨false, true, true, true⟩
      setup := .dot3 }]

/-- Kernels that are configured by their set-up alone. -/
def generic : Table where
  name := "scalar-generic"
  needs := CpuSet.none
  blockSize := blockPixels
  entries := [
    any "read_8" .read .u8 (.load 1),
    any "read_16" .read .u16 (.load 2),
    any "read_32" .read .u32 (.load 4),
    any "write_8" .write .u8 (.store 1),
    any "write_16" .write .u16 (.store 2),
    any "write_32" .write .u32 (.store 4),
    { name := "swap_16", verb := .swapBytes, elem := .u16, setup := .fixed (.compute .swap16) },
    { name := "swap_32", verb := .swapBytes, elem := .u32, setup := .fixed (.compute .swap32) },
    any "unpack_8" .unpack .u8 .pattern,
    any "unpack_16" .unpack .u16 .pattern,
    any "unpack_32" .unpack .u32 .pattern,
    any "pack_8" .pack .u8 .pattern,
    any "pack_16" .pack .u16 .pattern,
    any "pack_32" .pack .u32 .pattern,
    any "clear" .clear .u8 .clear,
    any "lshift_8" .shiftLeft .u8 .shift,
    any "lshift_16" .shiftLeft .u16 .shift,
    any "lshift_32" .shiftLeft .u32 .shift,
    any "rshift_8" .shiftRight .u8 .shift,
    any "rshift_16" .shiftRight .u16 .shift,
    any "rshift_32" .shiftRight .u32 .shift,
    any "swizzle" .swizzle .u8 .swizzle,
    any "convert_8" .convert .u8 .convert,
    any "convert_16" .convert .u16 .convert,
    any "convert_32" .convert .u32 .convert,
    any "convert_f32" .convert .f32 .convert,
    any "dither_f32" .dither .f32 .dither,
    any "linear_f32" .affine .f32 .affine,
    any "scale_8" .scale .u8 .scaleInt,
    any "scale_16" .scale .u16 .scaleInt,
    any "scale_32" .scale .u32 .scaleInt,
    any "scale_f32" .scale .f32 .scaleFloat,
    any "min_8" .atMost .u8 .clampInt,
    any "min_16" .atMost .u16 .clampInt,
    any "min_32" .atMost .u32 .clampInt,
    any "min_f32" .atMost .f32 .clampFloat,
    any "max_8" .atLeast .u8 .clampInt,
    any "max_16" .atLeast .u16 .clampInt,
    any "max_32" .atLeast .u32 .clampInt,
    any "max_f32" .atLeast .f32 .clampFloat]

/-- All portable kernels, the special ones first. -/
def portable : List Table := [specialized, generic]

end Catalogue

end PixelConv
