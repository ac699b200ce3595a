import PixelConv.Elem

/-!
# Memory layouts

How the components of a pixel lie in memory: interleaved in one plane or one plane each, and, for
elements smaller than a byte, how many of them share one.
-/

namespace PixelConv

/-- The shape of a transfer between memory and registers. -/
structure Layout where
  /-- Number of components. -/
  count : Nat
  /-- All components are interleaved in a single plane. -/
  packed : Bool
  /-- Each element takes its size divided by `2 ^ frac`. -/
  frac : Nat
deriving DecidableEq

namespace Layout

/-- Interleaved components; a single one needs no interleaving. -/
def interleaved (count : Nat) : Layout := ⟨count, decide (1 < count), 0⟩

/-- One plane per component. -/
def planar (count : Nat) : Layout := ⟨count, false, 0⟩

/-- One component whose elements take a fraction of a byte. -/
def fractional (frac : Nat) : Layout := ⟨1, false, frac⟩

/-- The number of planes touched. -/
def planes (l : Layout) : Nat := if l.packed then 1 else l.count

/-- Elements per pixel in each plane. -/
def perPlane (l : Layout) : Nat := if l.packed then l.count else 1

/-- Bytes that `pixels` pixels take in each plane, rounded up. -/
def bytesPerPlane (l : Layout) (e : Elem) (pixels : Nat) : Nat :=
  (pixels * l.perPlane * e.size + (2 ^ l.frac - 1)) / 2 ^ l.frac

/-- One to four components, and elements below a byte only one at a time. -/
def wellFormed (l : Layout) : Bool :=
  decide (1 ≤ l.count ∧ l.count ≤ 4) && !(decide (0 < l.frac ∧ 1 < l.count))

theorem wellFormed_iff {l : Layout} :
    l.wellFormed = true ↔ 0 < l.count ∧ l.count ≤ 4 ∧ (0 < l.frac → l.count = 1) := by
  simp only [wellFormed, Bool.and_eq_true, decide_eq_true_eq, Bool.not_eq_true',
    decide_eq_false_iff_not]
  omega

end Layout

/-- A layout together with the element it places. -/
structure Shape where
  elem : Elem
  layout : Layout
deriving DecidableEq

/-- Bytes that `pixels` pixels take in each plane. -/
def Shape.bytesPerPlane (s : Shape) (pixels : Nat) : Nat := s.layout.bytesPerPlane s.elem pixels

end PixelConv
