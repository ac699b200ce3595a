/-!
# Faults

What can go wrong while a total answer is being computed although the request itself was well
formed: an index or a slice that leaves its buffer, a chunk of no bytes, a division by zero, a shift
or another result that leaves its word.
Functions that can meet one of these return `Checked`, so that "no fault" is a statement about a
value and not about the host.
-/

namespace PixelConv

/-- A request that leaves the range of the data it was made on. -/
inductive Fault where
  /-- An index or a slice end lies outside its buffer. -/
  | outOfRange
  /-- A buffer was to be cut into chunks of no bytes. -/
  | zeroChunk
  /-- The divisor is zero. -/
  | divisionByZero
  /-- A machine word is shifted by its width or more. -/
  | oversizedShift
  /-- A result leaves the machine word that is to hold it. -/
  | overflow
deriving DecidableEq

/-- A result, or the fault that prevented it. -/
abbrev Checked (α : Type) := Except Fault α

end PixelConv
