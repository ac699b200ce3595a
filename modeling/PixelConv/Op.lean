import PixelConv.Affine
import PixelConv.Dither
import PixelConv.Elem
import PixelConv.Info
import PixelConv.Layout
import PixelConv.Swizzle

/-!
# Operations

A conversion is a list of elementary operations on four components. A `Kind` is what an operation
does, with its parameters; an `Op` adds the element type it works on and what the analysis knows
about its output.
-/

namespace PixelConv

/-- A constant per component; a component without one is left as it is. -/
abbrev Constants := Quad (Option Fraction)

/-- What an operation does. -/
inductive Kind where
  /-- Loads the components of a pixel from memory. -/
  | read (layout : Layout)
  /-- Stores the components of a pixel to memory. -/
  | write (layout : Layout)
  /-- Reverses the bytes of every component. -/
  | swapBytes
  /-- Splits the first component into bit fields. -/
  | unpack (widths : Quad Nat)
  /-- Gathers bit fields into the first component. -/
  | pack (widths : Quad Nat)
  /-- Sets components to constants. -/
  | clear (values : Constants)
  | shiftLeft (n : Nat)
  | shiftRight (n : Nat)
  /-- Copies components among each other. -/
  | swizzle (s : Swizzle)
  /-- Changes the element type, optionally onto its full range. -/
  | convert (target : Elem) (expand : Bool)
  /-- Adds a tile of fractions by position. -/
  | dither (d : Dither)
  /-- Applies an affine transform. -/
  | affine (t : Affine)
  /-- Multiplies every component by a constant. -/
  | scale (factor : Fraction)
  /-- Limits components from above. -/
  | atMost (bounds : Constants)
  /-- Limits components from below. -/
  | atLeast (bounds : Constants)
deriving DecidableEq

/-- What an operation does, without its parameters. -/
inductive Verb where
  | read
  | write
  | swapBytes
  | unpack
  | pack
  | clear
  | shiftLeft
  | shiftRight
  | swizzle
  | convert
  | dither
  | affine
  | scale
  | atMost
  | atLeast
deriving DecidableEq

namespace Verb

/-- The operation acts on each component separately and in the same way. -/
def isComponentwise : Verb → Bool
  | swapBytes | shiftLeft | shiftRight | convert | dither | scale | atMost | atLeast => true
  | _ => false

/-- The written name. -/
def name : Verb → String
  | read => "read"
  | write => "write"
  | swapBytes => "swap_bytes"
  | unpack => "unpack"
  | pack => "pack"
  | clear => "clear"
  | shiftLeft => "lshift"
  | shiftRight => "rshift"
  | swizzle => "swizzle"
  | convert => "convert"
  | dither => "dither"
  | affine => "linear"
  | scale => "scale"
  | atMost => "min"
  | atLeast => "max"

end Verb

/-- The verb of a kind. -/
def Kind.verb : Kind → Verb
  | read _ => .read
  | write _ => .write
  | swapBytes => .swapBytes
  | unpack _ => .unpack
  | pack _ => .pack
  | clear _ => .clear
  | shiftLeft _ => .shiftLeft
  | shiftRight _ => .shiftRight
  | swizzle _ => .swizzle
  | convert _ _ => .convert
  | dither _ => .dither
  | affine _ => .affine
  | scale _ => .scale
  | atMost _ => .atMost
  | atLeast _ => .atLeast

/-- One operation of a program. -/
structure Op where
  /-- The element type it works on. -/
  elem : Elem
  kind : Kind
  /-- What is known about its output. -/
  info : Info
deriving DecidableEq

namespace Op

/-- An operation about whose output nothing was derived yet. -/
def ofKind (elem : Elem) (kind : Kind) : Op := ⟨elem, kind, Info.blank⟩

/-- The verb of an operation. -/
def verb (op : Op) : Verb := op.kind.verb

/-- The element type of the output. -/
def target (op : Op) : Elem :=
  match op.kind with
  | .convert e _ => e
  | _ => op.elem

/-- The component is read by a later operation. -/
def uses (op : Op) (i : Fin 4) : Bool := !op.info.unused i

/-- The layout of a transfer between memory and registers. -/
def transfer? (op : Op) : Option Layout :=
  match op.kind with
  | .read l => some l
  | .write l => some l
  | _ => none

end Op

end PixelConv
