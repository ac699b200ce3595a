import PixelConv.Simplify.Site

/-!
# Simplifying swizzles

A swizzle that moves nothing that is read goes away, two in a row are one, and a swizzle that copies
a component more than once moves toward the end, so that the work before it is done once.
-/

namespace PixelConv

namespace Site

/-- Every component that is read stays where it is. -/
def swizzleIdentity (s : Site) : Option (List Op) :=
  match s.op.kind with
  | .swizzle w =>
    if Quad.indices.all fun i => s.op.info.unused i || w.order i == i.val then some s.after
    else none
  | _ => none

/-- Two swizzles in a row are one. -/
def swizzlePair (s : Site) : Option (List Op) :=
  match s.op.kind, s.after with
  | .swizzle w, ⟨_, .swizzle later, _⟩ :: rest => some (s.become (.swizzle (w.andThen later)) rest)
  | _, _ => none

/-- The operation is a conversion. -/
def isConvert (op : Op) : Bool := op.verb == .convert

/-- The components that are read, in order. -/
def usedComponents (s : Site) : List (Fin 4) := Quad.indices.filter fun i => s.op.uses i

/-- Two components that are read are copies of one. -/
def copiesTwice (s : Site) (w : Swizzle) : Bool :=
  !decide ((s.usedComponents.map w.source).Nodup)

/-- Takes the bounds of a clamp back through a swizzle: each input gets the bound of the components
that copy it. Fails when two of them disagree. -/
def boundsBefore? (w : Swizzle) (bounds : Constants) :
    List (Fin 4) → Quad (Option (Option Fraction)) → Option Constants
  | [], acc => some (acc.map Option.join)
  | i :: rest, acc =>
    match acc (w.source i) with
    | some b => if b = bounds i then boundsBefore? w bounds rest acc else none
    | none => boundsBefore? w bounds rest (acc.set (w.source i) (some (bounds i)))

/-- The operation as it has to be before the swizzle. -/
def movedBefore? (s : Site) (w : Swizzle) (next : Op) : Option Op :=
  match next.kind with
  | .atMost bounds => (boundsBefore? w bounds s.usedComponents (Quad.const none)).map fun b =>
    { next with kind := .atMost b }
  | .atLeast bounds => (boundsBefore? w bounds s.usedComponents (Quad.const none)).map fun b =>
    { next with kind := .atLeast b }
  | _ => some next

/-- A swizzle between two conversions, or one that copies a component twice before an operation
that acts on each component alone, moves past that operation. -/
def swizzleCommute (s : Site) : Option (List Op) :=
  match s.op.kind, s.after with
  | .swizzle w, next :: rest =>
    let betweenConverts := s.before.any isConvert && isConvert next
    if betweenConverts || (s.copiesTwice w && next.verb.isComponentwise) then
      (s.movedBefore? w next).map fun moved =>
        moved :: Op.ofKind next.target (.swizzle w) :: rest
    else none
  | _, _ => none

end Site

end PixelConv
