import PixelConv.Fraction
import PixelConv.Quad

/-!
# What is known about a component

The analysis describes each component after each operation: whether its content is undefined, a
whole number or zero, between which bounds it lies, and whether anything later reads it.
-/

namespace PixelConv

/-- What is certain about the content of a component. -/
structure Known where
  /-- The content is undefined and must never be written out. -/
  garbage : Bool
  /-- The content is a whole number without rounding error. -/
  exact : Bool
  /-- The content is zero. -/
  zero : Bool
deriving DecidableEq

namespace Known

/-- Nothing is certain. -/
def nothing : Known := ⟨false, false, false⟩

/-- The content is undefined. -/
def undefined : Known := ⟨true, false, false⟩

/-- The content is a whole number. -/
def whole : Known := ⟨false, true, false⟩

/-- The content is zero: the neutral element of `merge`. -/
def null : Known := ⟨false, true, true⟩

/-- What is certain about a mixture of two components: certainties must hold for both, undefined
content spreads. -/
def merge (a b : Known) : Known :=
  ⟨a.garbage || b.garbage, a.exact && b.exact, a.zero && b.zero⟩

/-- Forgets that the content is whole. -/
def inexact (a : Known) : Known := { a with exact := false }

/-- Forgets that the content is zero. -/
def nonzero (a : Known) : Known := { a with zero := false }

/-- One bit per certainty. -/
def toBits (a : Known) : Nat :=
  (if a.garbage then 1 else 0) + (if a.exact then 2 else 0) + (if a.zero then 4 else 0)

/-- Reads the certainties off their bits. -/
def ofBits (n : Nat) : Known := ⟨n.testBit 0, n.testBit 1, n.testBit 2⟩

end Known

/-- The least and the greatest value of a component; an undefined bound is unknown. -/
structure Bounds where
  low : Fraction
  high : Fraction
deriving DecidableEq

namespace Bounds

/-- Nothing is known. -/
def unknown : Bounds := ⟨Fraction.undefined, Fraction.undefined⟩

/-- Applies a function to both ends. -/
def map (f : Fraction → Fraction) (b : Bounds) : Bounds := ⟨f b.low, f b.high⟩

/-- Exchanges the ends. -/
def swap (b : Bounds) : Bounds := ⟨b.high, b.low⟩

end Bounds

/-- What the analysis knows about the four components after an operation. -/
structure Info where
  known : Quad Known
  bounds : Quad Bounds
  /-- No later operation reads the component. -/
  unused : Quad Bool
deriving DecidableEq

namespace Info

/-- The information of an operation that was not analysed. -/
def blank : Info := ⟨Quad.const Known.nothing, Quad.const Bounds.unknown, Quad.const false⟩

/-- The information before the first operation: every component is undefined. -/
def start : Info := { blank with known := Quad.const Known.undefined }

instance : Inhabited Info := ⟨blank⟩

end Info

end PixelConv
