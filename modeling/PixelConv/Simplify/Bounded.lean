import PixelConv.Simplify.Site

/-!
# Simplifying by what is known about the input

A dither of whole numbers and a clamp of values within its bounds change nothing.
-/

namespace PixelConv

namespace Site

/-- Every component that is read is a whole number already. -/
def ditherExact (s : Site) : Option (List Op) :=
  match s.op.kind with
  | .dither _ =>
    if Quad.indices.all fun i => s.op.info.unused i || (s.input.known i).exact then some s.after
    else none
  | _ => none

/-- A component is within the bound of a clamp, or nothing reads it. -/
def withinBound (s : Site) (upper : Bool) (bounds : Constants) (i : Fin 4) : Bool :=
  match bounds i with
  | none => true
  | some b =>
    s.op.info.unused i ||
      (if upper then (s.input.bounds i).high.le b else b.le (s.input.bounds i).low)

/-- Every component that is read is within its bound already. -/
def clampNoop (s : Site) : Option (List Op) :=
  match s.op.kind with
  | .atMost bounds => if Quad.indices.all (s.withinBound true bounds) then some s.after else none
  | .atLeast bounds => if Quad.indices.all (s.withinBound false bounds) then some s.after else none
  | _ => none

end Site

end PixelConv
