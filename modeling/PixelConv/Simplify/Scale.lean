import PixelConv.Simplify.Site

/-!
# Simplifying conversions and scales
-/

namespace PixelConv

/-! ## 1. Conversions -/

/-- Two conversions in a row can be one. With expansion all three are integers that do not narrow;
without it the element between must hold every value of the first one. -/
def Elem.fusable (expand : Bool) (source mid target : Elem) : Bool :=
  if expand then
    source.isInt && mid.isInt && target.isInt &&
      decide (source.size ≤ mid.size) && decide (mid.size ≤ target.size)
  else
    source.isInt &&
      (if mid.isInt then decide (source.size ≤ mid.size) else decide (source.size ≤ 2))

namespace Site

/-- A conversion to the same element changes nothing. -/
def convertNoop (s : Site) : Option (List Op) :=
  match s.op.kind with
  | .convert target _ => if s.op.elem = target then some s.after else none
  | _ => none

/-- Two conversions of the same sort are one. -/
def convertPair (s : Site) : Option (List Op) :=
  match s.op.kind, s.next? with
  | .convert mid expand, some (⟨_, .convert target later, _⟩, rest) =>
    if later = expand && Elem.fusable expand s.op.elem mid target then
      some (s.become (.convert target expand) rest)
    else none
  | _, _ => none

/-- A conversion and a scale by its expansion factor are an expanding conversion. -/
def convertExpand (s : Site) : Option (List Op) :=
  match s.op.kind, s.next? with
  | .convert target false, some (⟨_, .scale factor, _⟩, rest) =>
    let expansion := s.op.elem.expansion target
    if factor = expansion && expansion != Fraction.one then
      some (s.become (.convert target true) rest)
    else none
  | _, _ => none

/-! ## 2. Scales -/

/-- A scale by one changes nothing. -/
def scaleNoop (s : Site) : Option (List Op) :=
  match s.op.kind with
  | .scale factor => if factor = Fraction.one then some s.after else none
  | _ => none

/-- Two scales are one. On integers each step rounds and wraps, so both factors have to be whole
and their product has to be a word. -/
def scalePair (s : Site) : Option (List Op) :=
  match s.op.kind, s.next? with
  | .scale factor, some (⟨_, .scale later, _⟩, rest) =>
    let fused := factor * later
    if !s.op.elem.isInt || (factor.isInteger && later.isInteger &&
        decide (0 ≤ fused.num ∧ fused.num < 2 ^ (32 : Nat))) then
      some (s.become (.scale fused) rest)
    else none
  | _, _ => none

/-- Scaling the components that are read stays within the integer element. -/
def staysInRange (s : Site) (factor : Fraction) : Bool :=
  match s.op.elem.max? with
  | none => true
  | some top => Quad.indices.all fun i =>
    let b := s.input.bounds i
    s.op.info.unused i || (b.high.isDefined && !b.low.isNegative && (b.high * factor).le top)

/-- A whole scale that cannot wrap moves past a conversion to an integer that is as wide. -/
def scaleAfterConvert (s : Site) : Option (List Op) :=
  match s.op.kind, s.next? with
  | .scale factor, some (next, rest) =>
    match next.kind with
    | .convert target _ =>
      if s.op.elem.isInt && target.isInt && decide (s.op.elem.size ≤ target.size) &&
          factor.isInteger && s.staysInRange factor then
        some (next :: Op.ofKind target (.scale factor) :: rest)
      else none
    | _ => none
  | _, _ => none

/-- An integer scale by a power of two is a shift. -/
def scaleShift (s : Site) : Option (List Op) :=
  match s.op.kind with
  | .scale factor =>
    if s.op.elem.isInt then
      match factor.powerOfTwo? with
      | some k =>
        if k.natAbs < s.op.elem.bits then
          some (s.become (if 0 < k then .shiftLeft k.natAbs else .shiftRight k.natAbs) s.after)
        else none
      | none => none
    else none
  | _ => none

end Site

end PixelConv
