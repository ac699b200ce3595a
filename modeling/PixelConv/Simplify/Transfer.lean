import PixelConv.Simplify.Site

/-!
# Simplifying transfers, byte order, bit fields and shifts
-/

namespace PixelConv

namespace Site

/-! ## 1. Transfers -/

/-- A read followed by a write of the same shape copies bytes. -/
def plainCopy (s : Site) : Option (List Op) :=
  match s.op.kind, s.next? with
  | .read l, some (next, rest) => if next.kind = .write l then some rest else none
  | _, _ => none

/-- A single component needs no interleaving. -/
def readSingleElement (s : Site) : Option (List Op) :=
  match s.op.kind with
  | .read l =>
    if l.packed && l.count == 1 then some (s.become (.read { l with packed := false }) s.after)
    else none
  | _ => none

/-- One more than the last of the first `count` components that is read, at least one. -/
def usedPlanes (unused : Quad Bool) (count : Nat) : Checked Nat :=
  if count ≤ 4 then
    .ok (match (Quad.indices.take count).reverse.find? fun i => !unused i with
      | some i => i.val + 1
      | none => 1)
  else .error .outOfRange

/-- Planes after the last one that is read need not be loaded. -/
def readUnusedPlanes (s : Site) : Checked (Option (List Op)) :=
  match s.op.kind with
  | .read l =>
    if l.packed then .ok none
    else
      match usedPlanes s.op.info.unused l.count with
      | .error f => .error f
      | .ok used =>
        .ok (if used < l.count then some (s.become (.read { l with count := used }) s.after)
          else none)
  | _ => .ok none

/-- A single component needs no interleaving. -/
def writeSingleElement (s : Site) : Option (List Op) :=
  match s.op.kind with
  | .write l =>
    if l.packed && l.count == 1 then some (s.become (.write { l with packed := false }) s.after)
    else none
  | _ => none

/-! ## 2. Byte order and bit fields -/

/-- A single byte has one order. -/
def swapBytesNoop (s : Site) : Option (List Op) :=
  match s.op.kind with
  | .swapBytes => if s.op.elem.size = 1 then some s.after else none
  | _ => none

/-- Reversing twice changes nothing. -/
def swapBytesPair (s : Site) : Option (List Op) :=
  match s.op.kind, s.next? with
  | .swapBytes, some (next, rest) => if next.kind = .swapBytes then some rest else none
  | _, _ => none

/-- Packing what was unpacked the same way changes nothing. -/
def unpackPack (s : Site) : Option (List Op) :=
  match s.op.kind, s.next? with
  | .unpack w, some (next, rest) => if next.kind = .pack w then some rest else none
  | _, _ => none

/-! ## 3. Shifts -/

/-- A shift by nothing changes nothing. -/
def shiftNoop (s : Site) : Option (List Op) :=
  match s.op.kind with
  | .shiftLeft n => if n = 0 then some s.after else none
  | .shiftRight n => if n = 0 then some s.after else none
  | _ => none

/-- The sum of two shifts in one direction, which counts up to 255, and what follows them. -/
def shiftSum? (s : Site) : Option (Nat × Kind × List Op) :=
  match s.op.kind, s.next? with
  | .shiftLeft n, some (⟨_, .shiftLeft m, _⟩, rest) =>
    let sum := min 255 (n + m)
    some (sum, .shiftLeft sum, rest)
  | .shiftRight n, some (⟨_, .shiftRight m, _⟩, rest) =>
    let sum := min 255 (n + m)
    some (sum, .shiftRight sum, rest)
  | _, _ => none

/-- Two shifts that move every bit out leave zero. -/
def shiftPairOverflow (s : Site) : Option (List Op) :=
  match s.shiftSum? with
  | some (sum, _, rest) =>
    if s.op.elem.bits ≤ sum then
      some (Op.ofKind s.op.elem (.clear (Quad.const (some Fraction.zero))) :: rest)
    else none
  | none => none

/-- Two shifts in one direction are one. -/
def shiftPair (s : Site) : Option (List Op) :=
  match s.shiftSum? with
  | some (_, kind, rest) => some (s.become kind rest)
  | none => none

end Site

end PixelConv
