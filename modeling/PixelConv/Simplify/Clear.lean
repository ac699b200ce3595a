import PixelConv.Op.Eval
import PixelConv.Simplify.Site

/-!
# Simplifying constants

Constants that nothing reads or that change nothing go away, neighbouring ones are merged, and the
others move toward the end of the program, past operations whose effect on a constant is known
exactly.
-/

namespace PixelConv

/-- The constants that are read and that are not already there. -/
def Constants.pruned (values : Constants) (unused : Quad Bool) (known : Quad Known) : Constants :=
  Quad.ofFn fun i =>
    match values i with
    | none => none
    | some q => if unused i || (q.isZero && (known i).zero) then none else some q

/-- An operation acts on each component alone, and its effect on a constant is its evaluation. -/
def Verb.passesConstants (v : Verb) : Bool :=
  v.isComponentwise && v != .swapBytes && v != .dither

/-- A register of the element holds the value exactly; floats hold whole numbers up to `2 ^ 24`. -/
def Elem.represents (e : Elem) (q : Fraction) : Bool :=
  if e.isInt then (e.word? q).isSome else q.isInteger && decide (q.num.natAbs ≤ 2 ^ (24 : Nat))

/-- Tests whether a register of the element holds a value. For a whole number as a float this takes the
absolute value, which one number does not have. -/
def Elem.represents? (e : Elem) (q : Fraction) : Checked Bool :=
  if !e.isInt && q.isInteger && !q.hasNegative then .error .overflow else .ok (e.represents q)

/-- Tests all constants of a list, up to the first that registers of the element do not hold. -/
def Elem.representsAll? (e : Elem) : List (Option Fraction) → Checked Bool
  | [] => .ok true
  | none :: rest => e.representsAll? rest
  | some q :: rest =>
    match e.represents? q with
    | .error f => .error f
    | .ok false => .ok false
    | .ok true => e.representsAll? rest

/-- The operation multiplies floats by a factor that need not be exact. -/
def Op.mayRound (op : Op) : Bool :=
  match op.kind with
  | .scale _ => !op.elem.isInt
  | .convert target expand => expand && !target.isInt
  | _ => false

/-- The constants after an operation that acts on each component alone, if its effect on them is
exact. Those before it and those after it are both tested, whatever comes out of the first test. -/
def Op.foldConsts? (op : Op) (values : Constants) : Checked (Option Constants) :=
  match op.evaluate (values.map fun v => v.getD Fraction.undefined) with
  | .error f => .error f
  | .ok y =>
    let moved : Constants := Quad.zipWith (fun v q => v.map fun _ => q) values y
    match op.elem.representsAll? values.toList, op.target.representsAll? moved.toList with
    | .error f, _ => .error f
    | .ok _, .error f => .error f
    | .ok before, .ok after => .ok (if before && after && !op.mayRound then some moved else none)

namespace Site

/-- Constants of which none is needed. -/
def clearNoop (s : Site) : Option (List Op) :=
  match s.op.kind with
  | .clear values =>
    if (values.pruned s.op.info.unused s.input.known).all Option.isNone then some s.after else none
  | _ => none

/-- Constants of which some are not needed. -/
def clearUnused (s : Site) : Option (List Op) :=
  match s.op.kind with
  | .clear values =>
    let pruned := values.pruned s.op.info.unused s.input.known
    if pruned = values then none else some (s.become (.clear pruned) s.after)
  | _ => none

/-- Of two constants in a row the later one counts. -/
def clearPair (s : Site) : Option (List Op) :=
  match s.op.kind, s.after with
  | .clear values, ⟨_, .clear later, _⟩ :: rest =>
    some (s.become (.clear (Quad.zipWith (fun l v => l <|> v) later values)) rest)
  | _, _ => none

/-- Constants move past a swizzle or past an operation that acts on each component alone. -/
def clearCommute (s : Site) : Checked (Option (List Op)) :=
  match s.op.kind, s.after with
  | .clear values, next :: rest =>
    let moved? : Checked (Option Constants) := match next.kind with
      | .swizzle w => .ok (some (w.apply values))
      | kind => if kind.verb.passesConstants then next.foldConsts? values else .ok none
    moved?.map (Option.map fun moved => next :: Op.ofKind next.target (.clear moved) :: rest)
  | _, _ => .ok none

end Site

end PixelConv
