import PixelConv.Program.Analysis
import PixelConv.Simplify.Affine
import PixelConv.Simplify.Bounded
import PixelConv.Simplify.Clear
import PixelConv.Simplify.Scale
import PixelConv.Simplify.Swizzle
import PixelConv.Simplify.Transfer

/-!
# Simplification

A program is simplified by local rules. At each step the program is analysed, and the first rule
that fires at the first place where one does replaces the operations there; this goes on until no
rule fires anywhere. The number of steps is bounded by `Program.budget`: every step lowers, in this
order, the weight of the operations, the number of scales, the number of operations that stand
before one they can move past, or the number of constants.
-/

namespace PixelConv

/-! ## 1. One step -/

/-- What a rule makes of a place: the operations from there on, if it fires. -/
def Rule.apply (s : Site) : Rule → Checked (Option (List Op))
  | plainCopy => .ok s.plainCopy
  | readSingleElement => .ok s.readSingleElement
  | readUnusedPlanes => s.readUnusedPlanes
  | writeSingleElement => .ok s.writeSingleElement
  | swapBytesNoop => .ok s.swapBytesNoop
  | swapBytesPair => .ok s.swapBytesPair
  | unpackPack => .ok s.unpackPack
  | shiftNoop => .ok s.shiftNoop
  | shiftPairOverflow => .ok s.shiftPairOverflow
  | shiftPair => .ok s.shiftPair
  | clearNoop => .ok s.clearNoop
  | clearUnused => .ok s.clearUnused
  | clearPair => .ok s.clearPair
  | clearCommute => s.clearCommute
  | swizzleIdentity => .ok s.swizzleIdentity
  | swizzlePair => .ok s.swizzlePair
  | swizzleCommute => .ok s.swizzleCommute
  | convertNoop => .ok s.convertNoop
  | convertPair => .ok s.convertPair
  | convertExpand => .ok s.convertExpand
  | ditherExact => .ok s.ditherExact
  | affineIdentity => .ok s.affineIdentity
  | affinePair => .ok s.affinePair
  | affineResetUnused => .ok s.affineResetUnused
  | affineConstantRows => .ok s.affineConstantRows
  | affineScalar => .ok s.affineScalar
  | affineSwizzle => .ok s.affineSwizzle
  | scaleNoop => .ok s.scaleNoop
  | scalePair => .ok s.scalePair
  | scaleAfterConvert => .ok s.scaleAfterConvert
  | scaleShift => .ok s.scaleShift
  | clampNoop => .ok s.clampNoop

/-- The first rule of a list that fires at a place, with what it makes of it. -/
def Site.first (s : Site) : List Rule → Checked (Option (Rule × List Op))
  | [] => .ok none
  | rule :: rules =>
    match rule.apply s with
    | .error f => .error f
    | .ok (some ops) => .ok (some (rule, ops))
    | .ok none => s.first rules

/-- A rule that fired, and the place where it did. -/
structure Applied where
  rule : Rule
  index : Nat
deriving DecidableEq

/-- The first place in a list of operations where a rule fires, with the operations after it did. -/
def stepFrom (before : Option Op) : List Op → Checked (Option (Applied × List Op))
  | [] => .ok none
  | op :: rest =>
    match (Site.mk before op rest).first Rule.order with
    | .error f => .error f
    | .ok (some (rule, ops)) => .ok (some (⟨rule, 0⟩, ops))
    | .ok none =>
      match stepFrom (some op) rest with
      | .error f => .error f
      | .ok (some (applied, ops)) => .ok (some (⟨applied.rule, applied.index + 1⟩, op :: ops))
      | .ok none => .ok none

/-- One step on an analysed program: the rule that fires first, and the program it leaves. -/
def Program.step (p : Program) : Checked (Option (Applied × Program)) :=
  match stepFrom none p.ops with
  | .error f => .error f
  | .ok (some (applied, ops)) => .ok (some (applied, { p with ops := ops, analysed := false }))
  | .ok none => .ok none

/-! ## 2. The bound on the number of steps -/

/-- The weight of an operation. A transfer weighs more with every component and when it is
interleaved, a transform with every entry of its mask and when it mixes components. -/
def Op.weight (op : Op) : Nat :=
  match op.kind with
  | .read l => 1 + l.count + (if l.packed then 1 else 0)
  | .write l => 1 + l.count + (if l.packed then 1 else 0)
  | .affine t => 1 + 2 * (64 + (EntryMask.card t.mask + if t.mixes then 24 else 0))
  | _ => 1

/-- The weight of a program. -/
def Program.weight (p : Program) : Nat := (p.ops.map Op.weight).sum

/-- A bound on the number of steps. With a weight of at most `n` there are at most `n` operations,
of which at most `n` are scales, in at most `n * n` pairs, with at most `4 * n` constants. -/
def Program.budget (p : Program) : Nat :=
  let n := p.weight
  (n + 1) * (n + 1) * (n * n + 1) * (4 * n + 1)

/-! ## 3. All steps -/

/-- Analyses and steps until nothing fires, at most `fuel` times; the rules that fired, in order,
and the analysed result. -/
def Program.steps : Nat → Program → Checked (List Applied × Program)
  | 0, p => p.analysis.map fun q => ([], q)
  | fuel + 1, p =>
    match p.analysis with
    | .error f => .error f
    | .ok q =>
      match q.step with
      | .error f => .error f
      | .ok none => .ok ([], q)
      | .ok (some (applied, r)) =>
        match r.steps fuel with
        | .error f => .error f
        | .ok (rest, s) => .ok (applied :: rest, s)

/-- Simplifies a program until no rule fires; the rules that fired, in order, and the result. A
result without operations is a plain copy. -/
def Program.simplify (p : Program) : Checked (List Applied × Program) := p.steps p.budget

end PixelConv
