import PixelConv.Kernel.Table
import PixelConv.Program

/-!
# Kernel chains

A chain is a list of at most 16 kernels that work on a block one after the other. `Chain.link`
builds the chain of a program from kernel tables, and reports which entry was matched for each
operation, also when it fails.
-/

namespace PixelConv

/-- Kernels in order, with what they need altogether. -/
structure Chain where
  links : List Kernel
  /-- Processor features the kernels need. -/
  needs : CpuSet
  /-- Bytes read beyond the pixels of a block. -/
  readMargin : Nat
  /-- Bytes written beyond the pixels of a block. -/
  writeMargin : Nat

namespace Chain

/-- The longest chain. -/
def maxLength : Nat := 16

/-- The chain without kernels. -/
def empty : Chain := ⟨[], CpuSet.none, 0, 0⟩

/-- Appends a kernel. -/
def push (c : Chain) (k : Kernel) : Except CompileError Chain :=
  if c.links.length < maxLength then .ok { c with links := c.links ++ [k] }
  else .error (.unsupported .chainFull)

/-- Runs all kernels on a block. -/
def run (c : Chain) (b : Block) : Checked Block := c.links.foldlM (fun b k => k.run b) b

/-- Adds what an entry of a table needs. -/
def require (c : Chain) (e : Entry) (t : Table) : Chain :=
  { c with
    needs := c.needs.union t.needs
    readMargin := max c.readMargin e.readMargin
    writeMargin := max c.writeMargin e.writeMargin }

end Chain

/-- An entry that was chosen for the operation at a place of the program. -/
structure Match where
  index : Nat
  kernel : String
  table : String
deriving DecidableEq

namespace Chain

/-- Links the operations from place `index` on. The components in `unread` may be undefined
before the first of them. -/
def linkFrom (tables : List Table) (index : Nat) (unread : Quad Bool) (chain : Chain) :
    List Op → List Match × Except CompileError Chain
  | [] => ([], .ok chain)
  | op :: rest =>
    match op.onWords with
    | .error e => ([], .error e)
    | .ok op =>
      match Table.find? tables op unread with
      | none => ([], .error (.noKernel index))
      | some (entry, table) =>
        let found : Match := ⟨index, entry.name, table.name⟩
        match entry.setup op >>= chain.push with
        | .error e => ([found], .error e)
        | .ok chain =>
          let (matched, result) :=
            linkFrom tables (index + 1) op.info.unused (chain.require entry table) rest
          (found :: matched, result)

/-- The tables whose features are available and whose blocks have the right size. -/
def usable (tables : List Table) (cpu : CpuSet) (blockSize : Nat) : List Table :=
  tables.filter fun t => cpu.contains t.needs && (t.blockSize == 0 || t.blockSize == blockSize)

/-- Builds the chain of an analysed program. Before the first operation nothing is in the
registers. -/
def link (p : Program) (tables : List Table) (cpu : CpuSet) (blockSize : Nat) :
    List Match × Except CompileError Chain :=
  linkFrom (usable tables cpu blockSize) 0 (Quad.const true) empty p.ops

end Chain

end PixelConv
