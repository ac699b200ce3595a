import PixelConv.Conversion
import PixelConv.Kernel.Catalogue
import PixelConv.Simplify

/-!
# The compiler

Checks and simplifies a program and hands it to the first backend that takes it. What happened on
the way is kept in a log: the rules that fired, the kernels that were matched, the backends that
were skipped or declined, and what to report when nothing fits.
-/

namespace PixelConv

/-! ## 1. Backends -/

/-- One way to turn an analysed program into a conversion. -/
structure Backend where
  name : String
  /-- Processor features without which it is not tried. -/
  needs : CpuSet
  /-- The kernels that were matched, and the conversion or why there is none. -/
  build : Program → CpuSet → Checked (List Match × Except CompileError Conversion)

namespace Backend

/-- Kernels of the given tables. -/
def ofTables (name : String) (needs : CpuSet) (blockSize : Nat) (tables : List Table) :
    Backend where
  name := name
  needs := needs
  build p cpu :=
    let (matched, result) := Chain.link p tables cpu blockSize
    .ok (matched, result >>= fun chain => Conversion.ofChain p chain name)

/-- The portable backend: a shuffle where the program is one, a chain of portable kernels
otherwise. -/
def portable : Backend where
  name := "scalar"
  needs := CpuSet.none
  build p cpu :=
    match Shuffle.solve p laneBytes with
    | .error f => .error f
    | .ok (some s) => .ok ([], Conversion.ofShuffle p s CpuSet.none "scalar")
    | .ok none => (ofTables "scalar" CpuSet.none blockPixels Catalogue.portable).build p cpu

/-- Vector shuffles for programs that only move bytes. The wide ones are for lanes without gaps. -/
def vectorShuffle : Backend where
  name := "x86-shuffle"
  needs := ⟨true, false⟩
  build p cpu :=
    match Shuffle.solve p laneBytes with
    | .error f => .error f
    | .ok none => .ok ([], .error (.unsupported .notPermutation))
    | .ok (some s) =>
      let wide := s.read == laneBytes && s.write == laneBytes
      .ok ([], Conversion.ofShuffle p s (cpu.inter ⟨true, wide⟩) "x86-shuffle")

end Backend

/-! ## 2. The log -/

/-- What happened during a compilation. -/
structure Log where
  /-- The rules that fired. -/
  applied : List Applied := []
  /-- The kernels that were matched, by all backends. -/
  matched : List Match := []
  /-- Backends that lack processor features. -/
  skipped : List String := []
  /-- Backends that did not take the program, and why. -/
  declined : List (String × CompileError) := []
  /-- Reports on a program that no backend takes. -/
  errors : List String := []
  /-- The program after simplification. -/
  simplified : Option String := none

/-- The outcome of a compilation. -/
structure Report where
  result : Except CompileError Conversion
  log : Log

/-! ## 3. Compiling -/

/-- The backends in order of preference, and what they may use. -/
structure Compiler where
  backends : List Backend
  cpu : CpuSet
  /-- Simplify programs first. -/
  simplify : Bool

namespace Compiler

/-- The reports on a program that no backend takes: the program, and the operations from the place
on where the last backend without a kernel gave up, if that is a place of the program. -/
def reports (p : Program) (place : Option Nat) : List String :=
  ("no backend supports the program:\n" ++ p.text) ::
    match place with
    | some i => if i ≤ p.ops.length then
        ["unconverted operations:\n" ++ (Program.ofOps (p.ops.drop i)).text] else []
    | none => []

/-- The place of an operation without a kernel, or the one found before. -/
def lastPlace (e : CompileError) (place : Option Nat) : Option Nat :=
  match e with
  | .noKernel i => some i
  | _ => place

/-- Tries the backends in order. `failure` is the refusal to return if none is left, and `place`
where the last backend without a kernel gave up. -/
def tryBackends (cpu : CpuSet) (p : Program) (log : Log) (failure : CompileError)
    (place : Option Nat) : List Backend → Checked Report
  | [] => .ok ⟨.error failure, { log with errors := log.errors ++ reports p place }⟩
  | b :: rest =>
    if cpu.contains b.needs then
      match b.build p cpu with
      | .error f => .error f
      | .ok (matched, .ok conversion) =>
        .ok ⟨.ok conversion, { log with matched := log.matched ++ matched }⟩
      | .ok (matched, .error e) =>
        let log := { log with matched := log.matched ++ matched }
        if e.isRefusal then
          tryBackends cpu p { log with declined := log.declined ++ [(b.name, e)] } e
            (lastPlace e place) rest
        else .ok ⟨.error e, log⟩
    else tryBackends cpu p { log with skipped := log.skipped ++ [b.name] } failure place rest

/-- What the backends get to see: the simplified program and the rules that fired, or the program
with its information only. -/
def prepare (c : Compiler) (p : Program) : Checked (List Applied × Program) :=
  if c.simplify then p.simplify else p.analysis.map fun q => ([], q)

/-- Hands a prepared program on. Without operations it is a copy of the shape `read`; otherwise its
structure is checked once more. -/
def finish (c : Compiler) (read : Shape) (log : Log) (p : Program) : Checked Report :=
  if p.ops.isEmpty then .ok ⟨.ok (Conversion.ofCopy read), log⟩
  else
    match p.check with
    | .error f => .error f
    | .ok (.error e) => .ok ⟨.error (.invalid e), log⟩
    | .ok (.ok ()) => tryBackends c.cpu p log (.unsupported .noBackend) none c.backends

/-- Compiles a program. -/
def compile (c : Compiler) (p : Program) : Checked Report :=
  match p.check with
  | .error f => .error f
  | .ok (.error e) => .ok ⟨.error (.invalid e), {}⟩
  | .ok (.ok ()) =>
    match p.ends with
    | .error e => .ok ⟨.error (.invalid e), {}⟩
    | .ok (read, _) =>
      match c.prepare p with
      | .error f => .error f
      | .ok (applied, q) =>
        c.finish read
          { applied := applied, simplified := if c.simplify then some q.text else none } q

end Compiler

end PixelConv
