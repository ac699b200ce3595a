import PixelConv.Simplify.Site

/-!
# Simplifying affine transforms

Rows that nothing reads and columns of zeros are reset to the identity; what is left is split into
constants, a scale or a swizzle where that is possible.
-/

namespace PixelConv

namespace Affine

/-- Resets the columns whose input is zero and then the rows whose output is not read. -/
def restricted (t : Affine) (nullInputs unused : Quad Bool) : Affine :=
  let t := Quad.indices.foldl (fun t j =>
    if nullInputs j && EntryMask.meets t.mask (EntryMask.col j.val) then t.withUnitCol j.castSucc
    else t) t
  Quad.indices.foldl (fun t i =>
    if unused i && EntryMask.meets t.mask (EntryMask.row i.val) then t.withUnitRow i else t) t

/-- The weight in column `j` contributes nothing. -/
def silent (r : AffineRow) (nullInputs : Quad Bool) (j : Fin 4) : Bool :=
  (r.weight j).isZero || nullInputs j

/-- The row is read, is not the identity, and gives a whole constant whatever the input is. -/
def isConstantRow (t : Affine) (nullInputs unused : Quad Bool) (i : Fin 4) : Bool :=
  let r := t.rows i
  !unused i && EntryMask.meets t.mask (EntryMask.row i.val) &&
    Quad.indices.all (silent r nullInputs) && r.offset.isInteger

/-- Splits off the rows that are constants. -/
def constantRows? (t : Affine) (nullInputs unused : Quad Bool) : Option (Affine × Constants) :=
  let rows := Quad.indices.filter (t.isConstantRow nullInputs unused)
  if rows.isEmpty then none
  else some (rows.foldl withUnitRow t,
    Quad.ofFn fun i => if rows.contains i then some (t.rows i).offset else none)

/-- One factor for every component that is read, if nothing but the diagonal contributes. -/
def scalar? (t : Affine) (nullInputs unused : Quad Bool) : Option Fraction :=
  let rows := Quad.indices.filter fun i => !unused i
  let diagonal (i : Fin 4) : Bool :=
    (Quad.indices.all fun j => decide (j = i) || silent (t.rows i) nullInputs j) &&
      (t.rows i).offset.isZero
  if rows.all diagonal then
    match (rows.filter fun i => !nullInputs i).map fun i => (t.rows i).weight i with
    | [] => some Fraction.one
    | q :: rest => if rest.all (· = q) then some q else none
  else none

/-- The row reduced to the diagonal: its offset and the weight of its only input `j`. -/
def aligned (r : AffineRow) (i : Fin 4) (j : Option (Fin 4)) : AffineRow :=
  let weight := Quad.const Fraction.zero
  match j with
  | none => ⟨weight, r.offset⟩
  | some j => ⟨weight.set i (r.weight j), r.offset⟩

/-- The inputs that contribute to a row. -/
def sources (r : AffineRow) (nullInputs : Quad Bool) : List (Fin 4) :=
  Quad.indices.filter fun j => !silent r nullInputs j

/-- Splits off a swizzle when every row that is read has at most one input, and some row takes its
input from another component. -/
def swizzle? (t : Affine) (nullInputs unused : Quad Bool) : Option (Swizzle × Affine) :=
  let rows := Quad.indices.filter fun i => !unused i
  let source (i : Fin 4) : Option (Fin 4) := (sources (t.rows i) nullInputs).head?
  if rows.all (fun i => (sources (t.rows i) nullInputs).length ≤ 1) &&
      rows.any (fun i => (source i).any (· ≠ i)) then
    let order := Quad.ofFn fun i =>
      if unused i then i.val else ((source i).getD i).val
    some (⟨order⟩, ofRows (Quad.ofFn fun i =>
      if unused i then unitRow i else aligned (t.rows i) i (source i)))
  else none

end Affine

namespace Site

/-- The components that are zero before the operation. -/
def nullInputs (s : Site) : Quad Bool := s.input.known.map Known.zero

/-- The identity changes nothing. -/
def affineIdentity (s : Site) : Option (List Op) :=
  match s.op.kind with
  | .affine t => if t.mask = 0#32 then some s.after else none
  | _ => none

/-- Two transforms in a row are one. -/
def affinePair (s : Site) : Option (List Op) :=
  match s.op.kind, s.next? with
  | .affine t, some (⟨_, .affine later, _⟩, rest) =>
    some (s.become (.affine (t.andThen later)) rest)
  | _, _ => none

/-- Parts of the matrix that do not matter are reset. -/
def affineResetUnused (s : Site) : Option (List Op) :=
  match s.op.kind with
  | .affine t =>
    let r := t.restricted s.nullInputs s.op.info.unused
    if r.mask = t.mask then none else some (s.become (.affine r) s.after)
  | _ => none

/-- Constant rows become constants. -/
def affineConstantRows (s : Site) : Option (List Op) :=
  match s.op.kind with
  | .affine t =>
    (t.constantRows? s.nullInputs s.op.info.unused).map fun (remaining, values) =>
      s.become (.affine remaining) (Op.ofKind s.op.elem (.clear values) :: s.after)
  | _ => none

/-- A uniform diagonal is a scale. -/
def affineScalar (s : Site) : Option (List Op) :=
  match s.op.kind with
  | .affine t =>
    (t.scalar? s.nullInputs s.op.info.unused).map fun factor => s.become (.scale factor) s.after
  | _ => none

/-- A transform with one input per row is a swizzle and a diagonal. -/
def affineSwizzle (s : Site) : Option (List Op) :=
  match s.op.kind with
  | .affine t =>
    (t.swizzle? s.nullInputs s.op.info.unused).map fun (w, remaining) =>
      Op.ofKind s.op.elem (.swizzle w) :: s.become (.affine remaining) s.after
  | _ => none

end Site

end PixelConv
