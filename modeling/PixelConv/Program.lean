import PixelConv.Error
import PixelConv.Fault
import PixelConv.Op.Text

/-!
# Programs

A program is a list of operations that turns one pixel format into another: a read first, a write
last, register operations between them. It also carries what is known about the source and whether
the information of its operations is current.
-/

namespace PixelConv

/-- The number of bits in use in each source plane; zero stands for unknown. -/
abbrev Depths := Quad Nat

/-- A conversion between pixel formats. -/
structure Program where
  ops : List Op
  /-- Bit depths of the source planes, where they are known. -/
  depths : Option Depths
  /-- The information of all operations is current. -/
  analysed : Bool
deriving DecidableEq

namespace Program

/-! ## 1. Building and editing

Every edit makes the information of the operations stale. -/

/-- The program of the given operations. -/
def ofOps (ops : List Op) : Program := ⟨ops, none, false⟩

/-- Sets the bit depths of the source. -/
def withDepths (p : Program) (depths : Depths) : Program :=
  { p with depths := some depths, analysed := false }

/-- Appends an operation. -/
def push (p : Program) (op : Op) : Program :=
  { p with ops := p.ops ++ [op], analysed := false }

/-- Inserts an operation before place `i`. -/
def insertIdx (p : Program) (i : Nat) (op : Op) : Checked Program :=
  if i ≤ p.ops.length then .ok { p with ops := p.ops.insertIdx i op, analysed := false }
  else .error .outOfRange

/-- Removes the operation at place `i`. -/
def removeIdx (p : Program) (i : Nat) : Checked (Op × Program) :=
  match p.ops[i]? with
  | some op => .ok (op, { p with ops := p.ops.eraseIdx i, analysed := false })
  | none => .error .outOfRange

/-! ## 2. Shape -/

/-- The shape of the first read. -/
def source? (p : Program) : Option Shape :=
  match p.ops.head? with
  | some op => match op.kind with
    | .read l => some ⟨op.elem, l⟩
    | _ => none
  | none => none

/-- The shape of the last write. -/
def destination? (p : Program) : Option Shape :=
  match p.ops.getLast? with
  | some op => match op.kind with
    | .write l => some ⟨op.elem, l⟩
    | _ => none
  | none => none

/-- Both ends, or what is missing. -/
def ends (p : Program) : Except Malformed (Shape × Shape) :=
  match p.source?, p.destination? with
  | none, _ => .error .noRead
  | some _, none => .error .noWrite
  | some r, some w => .ok (r, w)

/-- The size of the widest element any operation works on. -/
def widestSize (p : Program) : Nat :=
  p.ops.foldl (fun m op => max m (max op.elem.size op.target.size)) 0

/-! ## 3. Structural check -/

/-- Some component that a write of this layout takes is undefined. -/
def writesGarbage (known : Quad Known) (l : Layout) : Checked Bool :=
  if l.count ≤ 4 then .ok ((known.toList.take l.count).any Known.garbage) else .error .outOfRange

/-- No write takes an undefined component from the operation right before it. -/
def checkWritten : List Op → Checked (Except Malformed Unit)
  | before :: op :: rest =>
    match op.kind with
    | .write l =>
      match writesGarbage before.info.known l with
      | .error f => .error f
      | .ok true => .ok (.error .undefinedWrite)
      | .ok false => checkWritten (op :: rest)
    | _ => checkWritten (op :: rest)
  | _ => .ok (.ok ())

/-- The operations strictly between the first and the last one. -/
def inner (p : Program) : List Op := p.ops.tail.dropLast

/-- Some transfer has a layout that does not exist. -/
def hasBadLayout (p : Program) : Bool :=
  p.ops.any fun op => op.transfer?.any fun l => !l.wellFormed

/-- Checks the structure: a read first, a write last, neither between, and layouts that exist. When
the information of the operations is current, no undefined component may be written. -/
def check (p : Program) : Checked (Except Malformed Unit) :=
  if p.ops.length < 2 then .ok (.error .tooShort)
  else if p.source?.isNone then .ok (.error .noRead)
  else if p.destination?.isNone then .ok (.error .noWrite)
  else if p.inner.any (·.transfer?.isSome) then .ok (.error .innerTransfer)
  else
    match (if p.analysed then checkWritten p.ops else .ok (.ok ())) with
    | .error f => .error f
    | .ok (.error e) => .ok (.error e)
    | .ok (.ok ()) => .ok (if p.hasBadLayout then .error .badShape else .ok ())

/-! ## 4. Text -/

/-- One line per operation; a program without operations copies. -/
def text (p : Program) : String :=
  if p.ops.isEmpty then "  (empty, plain copy)\n"
  else String.join (p.ops.map fun op => "  " ++ op.text ++ "\n")

end Program

end PixelConv
