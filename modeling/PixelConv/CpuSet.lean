/-!
# Processor features

Kernel tables and backends can require features of the processor; a compiler is told which ones it
may use.
-/

namespace PixelConv

/-- A set of processor features. -/
structure CpuSet where
  ssse3 : Bool
  avx2 : Bool
deriving DecidableEq

namespace CpuSet

/-- No feature. -/
def none : CpuSet := ⟨false, false⟩

/-- Every feature of `b` is in `a`. -/
def contains (a b : CpuSet) : Bool := (!b.ssse3 || a.ssse3) && (!b.avx2 || a.avx2)

/-- The features of both sets together. -/
def union (a b : CpuSet) : CpuSet := ⟨a.ssse3 || b.ssse3, a.avx2 || b.avx2⟩

/-- The common features. -/
def inter (a b : CpuSet) : CpuSet := ⟨a.ssse3 && b.ssse3, a.avx2 && b.avx2⟩

/-- The names of the features. -/
def names (a : CpuSet) : List String :=
  (if a.ssse3 then ["ssse3"] else []) ++ (if a.avx2 then ["avx2"] else [])

end CpuSet

end PixelConv
