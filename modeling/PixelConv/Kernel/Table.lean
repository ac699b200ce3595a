import PixelConv.CpuSet
import PixelConv.Kernel.Setup

/-!
# Kernel tables

A table lists kernels with what each of them implements. An entry is scored against an operation:
zero if it cannot implement it, and higher the more it is made for it. The first entry of the
highest score is taken.
-/

namespace PixelConv

/-- The parameters an entry is made for. -/
inductive Params where
  | none
  | layout (l : Layout)
  | widths (w : Quad Nat)
  | clear (values : Constants)
  | shift (n : Nat)
  | swizzle (s : Swizzle)
  | convert (target : Elem) (expand : Bool)
  | ditherSize (sideLog2 : Nat)
  | affineMask (mask : EntryMask)
deriving DecidableEq

/-- One kernel of a table. -/
structure Entry where
  name : String
  verb : Verb
  elem : Elem
  /-- Implements every operation of the verb that its set-up takes. -/
  general : Bool := false
  /-- Components that the kernel may leave undefined. -/
  unused : Quad Bool := Quad.const false
  params : Params := .none
  setup : Setup
  /-- Bytes read beyond the pixels of a block. -/
  readMargin : Nat := 0
  /-- Bytes written beyond the pixels of a block. -/
  writeMargin : Nat := 0

/-- Kernels with common requirements. -/
structure Table where
  name : String
  /-- Processor features the kernels need. -/
  needs : CpuSet
  /-- Pixels per block, zero if any number will do. -/
  blockSize : Nat
  entries : List Entry

/-! ## 1. Operations on registers of any element -/

/-- The operation only moves register contents. -/
def Verb.ignoresElem (v : Verb) : Bool := v == .swizzle || v == .clear

/-- The operation only depends on the size of its element. -/
def Verb.needsSizeOnly (v : Verb) : Bool := v == .read || v == .write || v == .swapBytes

/-- The register contents that constants of an element stand for, as whole numbers. -/
def Constants.words? (e : Elem) (values : Constants) : Option Constants :=
  let words := values.map fun v => v.map e.word?
  if words.all fun w => w.all Option.isSome then
    some (words.map fun w => (w.bind id).map Fraction.ofWord)
  else none

/-- Moves an operation that only moves register contents onto 32-bit words. -/
def Op.onWords (op : Op) : Except CompileError Op :=
  if op.verb.ignoresElem then
    match op.kind with
    | .clear values => match values.words? op.elem with
      | some words => .ok { op with elem := .u32, kind := .clear words }
      | none => .error (.unsupported .clearOutOfRange)
    | _ => .ok { op with elem := .u32 }
  else .ok op

/-! ## 2. Scores -/

namespace Entry

/-- The entry works on the element of the operation. -/
def elemMatches (e : Entry) (op : Op) : Bool :=
  if e.verb.ignoresElem then true
  else if e.verb.needsSizeOnly then e.elem.size == op.elem.size
  else e.elem == op.elem

/-- The matrix entries that the kernel always evaluates. -/
def mask (e : Entry) : EntryMask :=
  match e.params with
  | .affineMask m => m
  | _ => 0#32

/-- The kernel of a transform multiplies an input that may be undefined. -/
def readsUndefined (e : Entry) (op : Op) (unread : Quad Bool) : Bool :=
  match op.kind with
  | .affine _ => Quad.indices.any fun j =>
    EntryMask.meets e.mask (EntryMask.col j.val) && unread j
  | _ => false

/-- Two quads agree on the components that are read. -/
def agreeOnUsed {α : Type} [DecidableEq α] (op : Op) (a b : Quad α) : Bool :=
  Quad.indices.all fun i => op.info.unused i || decide (a i = b i)

/-- How much better than a general one an entry with these parameters is, if it implements the
operation at all. -/
def paramsScore? (e : Entry) (op : Op) : Option Nat :=
  let when (b : Bool) : Option Nat := if b then some 0 else none
  match op.kind, e.params with
  | .read l, .layout m => when (layoutMatches l m)
  | .write l, .layout m => when (layoutMatches l m)
  | .unpack w, .widths v => when (w = v)
  | .pack w, .widths v => when (w = v)
  | .clear values, .clear mine =>
    match values.words? op.elem, mine.words? e.elem with
    | some a, some b => when (agreeOnUsed op a b)
    | _, _ => none
  | .shiftLeft n, .shift m => when (n = m)
  | .shiftRight n, .shift m => when (n = m)
  | .swizzle s, .swizzle t => when (agreeOnUsed op s.order t.order)
  | .convert target expand, .convert t x => when (target = t && expand = x)
  | .dither d, .ditherSize n => when (d.sideLog2 = n)
  | .affine t, .affineMask m =>
    if EntryMask.subset t.mask m then some (EntryMask.card (EntryMask.full ^^^ m)) else none
  | .swapBytes, .none => some 0
  | _, _ => none
where
  /-- Interleaving does not matter for a single component. -/
  layoutMatches (l m : Layout) : Bool :=
    l.count == m.count && l.frac == m.frac && (l.count == 1 || l.packed == m.packed)

/-- How well the entry implements an operation, zero if it cannot. The components in `unread`
may be undefined before the operation. -/
def score (e : Entry) (op : Op) (unread : Quad Bool) : Nat :=
  let required := e.unused.toList.countP id
  if e.verb ≠ op.verb then 0
  else if !e.elemMatches op then 0
  else if Quad.indices.any fun i => e.unused i && !op.info.unused i then 0
  else if e.readsUndefined op unread then 0
  else if e.general then 10 + required - 5
  else match e.paramsScore? op with
    | some bonus => 10 + required + bonus
    | none => 0

end Entry

/-! ## 3. Choosing -/

/-- Every entry of the tables with its table, in order. -/
def Table.candidates (tables : List Table) : List (Entry × Table) :=
  tables.flatMap fun t => t.entries.map fun e => (e, t)

/-- Takes the candidate if it scores higher than the best one so far. -/
def Table.better (op : Op) (unread : Quad Bool) (best : Nat × Option (Entry × Table))
    (c : Entry × Table) : Nat × Option (Entry × Table) :=
  let score := c.1.score op unread
  if best.1 < score then (score, some c) else best

/-- The first entry of the highest score among all tables, if one scores at all. -/
def Table.find? (tables : List Table) (op : Op) (unread : Quad Bool) : Option (Entry × Table) :=
  ((candidates tables).foldl (better op unread) (0, none)).2

end PixelConv
