import PixelConv.Program

/-!
# Places where a program can be simplified

A rule looks at one operation, at what is known before it, and at the operations that follow. When
it fires it gives the operations that take the place of the operation and everything after it.
-/

namespace PixelConv

/-- An operation of a program with its neighbours. -/
structure Site where
  before : Option Op
  op : Op
  after : List Op

namespace Site

/-- What is known about the input of the operation. -/
def input (s : Site) : Info :=
  match s.before with
  | some op => op.info
  | none => Info.start

/-- The next operation and what follows it, provided it works on the output of this one. -/
def next? (s : Site) : Option (Op × List Op) :=
  match s.after with
  | [] => none
  | next :: rest => if next.elem = s.op.target then some (next, rest) else none

/-- The operation with other parameters, before `rest`. -/
def become (s : Site) (kind : Kind) (rest : List Op) : List Op := { s.op with kind := kind } :: rest

end Site

/-- The rules, in the order in which they are tried at a place. -/
inductive Rule where
  | plainCopy
  | readSingleElement
  | readUnusedPlanes
  | writeSingleElement
  | swapBytesNoop
  | swapBytesPair
  | unpackPack
  | shiftNoop
  | shiftPairOverflow
  | shiftPair
  | clearNoop
  | clearUnused
  | clearPair
  | clearCommute
  | swizzleIdentity
  | swizzlePair
  | swizzleCommute
  | convertNoop
  | convertPair
  | convertExpand
  | ditherExact
  | affineIdentity
  | affinePair
  | affineResetUnused
  | affineConstantRows
  | affineScalar
  | affineSwizzle
  | scaleNoop
  | scalePair
  | scaleAfterConvert
  | scaleShift
  | clampNoop
deriving DecidableEq

namespace Rule

/-- The written name. -/
def name : Rule → String
  | plainCopy => "plain_copy"
  | readSingleElement => "read_single_element"
  | readUnusedPlanes => "read_unused_planes"
  | writeSingleElement => "write_single_element"
  | swapBytesNoop => "swap_bytes_noop"
  | swapBytesPair => "swap_bytes_pair"
  | unpackPack => "unpack_pack"
  | shiftNoop => "shift_noop"
  | shiftPairOverflow => "shift_pair_overflow"
  | shiftPair => "shift_pair"
  | clearNoop => "clear_noop"
  | clearUnused => "clear_unused"
  | clearPair => "clear_pair"
  | clearCommute => "clear_commute"
  | swizzleIdentity => "swizzle_identity"
  | swizzlePair => "swizzle_pair"
  | swizzleCommute => "swizzle_commute"
  | convertNoop => "convert_noop"
  | convertPair => "convert_pair"
  | convertExpand => "convert_expand"
  | ditherExact => "dither_exact"
  | affineIdentity => "linear_identity"
  | affinePair => "linear_pair"
  | affineResetUnused => "linear_reset_unused"
  | affineConstantRows => "linear_constant_rows"
  | affineScalar => "linear_scalar"
  | affineSwizzle => "linear_swizzle"
  | scaleNoop => "scale_noop"
  | scalePair => "scale_pair"
  | scaleAfterConvert => "scale_after_convert"
  | scaleShift => "scale_shift"
  | clampNoop => "clamp_noop"

/-- All rules, in the order in which they are tried. -/
def order : List Rule :=
  [plainCopy, readSingleElement, readUnusedPlanes, writeSingleElement, swapBytesNoop,
    swapBytesPair, unpackPack, shiftNoop, shiftPairOverflow, shiftPair, clearNoop, clearUnused,
    clearPair, clearCommute, swizzleIdentity, swizzlePair, swizzleCommute, convertNoop, convertPair,
    convertExpand, ditherExact, affineIdentity, affinePair, affineResetUnused, affineConstantRows,
    affineScalar, affineSwizzle, scaleNoop, scalePair, scaleAfterConvert, scaleShift, clampNoop]

end Rule

end PixelConv
