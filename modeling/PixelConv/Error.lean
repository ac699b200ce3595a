/-!
# Why a program cannot be compiled

Each cause is a constructor; the wording of all of them is in the `message` functions. A backend
that refuses a program lets the next backend try, every other cause ends the compilation.
-/

namespace PixelConv

/-- What is wrong with the structure of a program. -/
inductive Malformed where
  | tooShort
  | noRead
  | noWrite
  | innerTransfer
  | undefinedWrite
  | badShape
  | other (text : String)
deriving DecidableEq

namespace Malformed

def message : Malformed → String
  | tooShort => "a program needs at least a read and a write"
  | noRead => "program does not begin with a read"
  | noWrite => "program does not end with a write"
  | innerTransfer => "read and write may only appear at the ends"
  | undefinedWrite => "write of a component with undefined content"
  | badShape => "invalid read or write shape"
  | other text => text

end Malformed

/-- Why a backend or a kernel does not take a program. -/
inductive Refusal where
  | noBackend
  | notPermutation
  | chainFull
  | clearOutOfRange
  | wrongOperation
  | wideFraction
  | patternTooWide
  | shiftTooWide
  | malformedDither
  | scaleOutOfRange
  | other (text : String)
deriving DecidableEq

namespace Refusal

def message : Refusal → String
  | noBackend => "no backend available"
  | notPermutation => "not a byte permutation"
  | chainFull => "kernel chain too long"
  | clearOutOfRange => "clear value out of range"
  | wrongOperation => "kernel setup for a different operation"
  | wideFraction => "sub-byte access of wide elements"
  | patternTooWide => "pack pattern wider than its element"
  | shiftTooWide => "shift by the element width or more"
  | malformedDither => "malformed dither matrix"
  | scaleOutOfRange => "integer scale factor out of range"
  | other text => text

end Refusal

/-- Why a program was not turned into a conversion. -/
inductive CompileError where
  /-- No kernel implements the operation at this place of the program. -/
  | noKernel (index : Nat)
  | unsupported (why : Refusal)
  | outOfMemory
  | invalid (why : Malformed)
deriving DecidableEq

namespace CompileError

/-- Another backend may still take the program. -/
def isRefusal : CompileError → Bool
  | noKernel _ => true
  | unsupported _ => true
  | _ => false

def message : CompileError → String
  | noKernel index => "unsupported: no kernel for operation " ++ index.repr
  | unsupported why => "unsupported: " ++ why.message
  | outOfMemory => "out of memory while building the kernel chain"
  | invalid why => "invalid program: " ++ why.message

end CompileError

end PixelConv
