import PixelConv.Op
import PixelConv.Text

/-!
# The written form of an operation

One line: element type and a mark per component in brackets, the name, the parameters, and the
bounds of the output where some are known.
-/

namespace PixelConv

/-- The mark of a component: unused, undefined, zero, whole, or anything else. -/
def Info.mark (info : Info) (i : Fin 4) : Char :=
  if info.unused i then '.'
  else if (info.known i).garbage then 'X'
  else if (info.known i).zero then '0'
  else if (info.known i).exact then '+'
  else '~'

/-- The marks of all components. -/
def Info.marks (info : Info) : String := String.ofList (Quad.indices.map info.mark)

/-- The bounds of all components, nothing if none is known. -/
def Info.boundsText (info : Info) : String :=
  let lows := info.bounds.toList.map Bounds.low
  let highs := info.bounds.toList.map Bounds.high
  if (lows ++ highs).any Fraction.isDefined then
    "    min " ++ Text.braced lows ++ ", max " ++ Text.braced highs
  else ""

/-- The name of a mask, or its hexadecimal digits. -/
def EntryMask.text (m : EntryMask) : String :=
  match m.name? with
  | some name => name
  | none => "0x" ++ Text.hex 5 m.toNat

/-- The name of the mask and the rows of the matrix. -/
def Affine.text (t : Affine) : String :=
  let row (r : AffineRow) : String := "[" ++ Text.fractions r.toList ++ "]"
  t.mask.text ++ " [" ++ " ".intercalate (t.rows.toList.map row) ++ "]"

/-- Components, interleaving and divided bytes. -/
def Layout.text (l : Layout) : String :=
  l.count.repr ++ " elem(s) " ++ (if l.packed then "packed" else "planar") ++ " >> " ++ l.frac.repr

/-- The parameters of an operation on elements of type `e`, with a leading blank. -/
def Kind.parameters (e : Elem) : Kind → String
  | read l => " " ++ l.text
  | write l => " " ++ l.text
  | swapBytes => ""
  | unpack w => " " ++ "+".intercalate (w.toList.map Nat.repr)
  | pack w => " " ++ "+".intercalate (w.toList.map Nat.repr)
  | clear c => " " ++ Text.constants c
  | shiftLeft n => " << " ++ n.repr
  | shiftRight n => " >> " ++ n.repr
  | swizzle s => " " ++ "".intercalate (s.order.toList.map Nat.repr)
  | convert target expand =>
    " " ++ e.text ++ " -> " ++ target.text ++ (if expand then " (expand)" else "")
  | dither d => " " ++ d.size.repr ++ "x" ++ d.size.repr ++ " matrix"
  | affine t => " " ++ t.text
  | scale q => " * " ++ q.text
  | atMost c => " x <= " ++ Text.constants c
  | atLeast c => " x >= " ++ Text.constants c

/-- The written form of an operation. -/
def Op.text (op : Op) : String :=
  "[" ++ Text.padLeft 3 op.elem.text ++ " " ++ op.info.marks ++ "] " ++
    Text.padRight 10 op.verb.name ++ op.kind.parameters op.elem ++ op.info.boundsText

end PixelConv
