/-!
# Exact fractions with bounded terms

The constants of a conversion, and the bounds derived from them, are fractions whose terms stay
below `2 ^ 63`. A fraction is in lowest terms with a positive denominator, or it is the undefined
value `0 / 0`, which absorbs every operation. A result whose lowest terms are too large is replaced
by the last convergent of its continued fraction that still fits, and by the largest fraction when
no convergent does.
-/

namespace PixelConv

-- powers and sums of numbers are those of the core library, whatever else is imported; exponents that
-- are numerals say their type for the same reason
attribute [scoped instance (high)] instPowNat
attribute [scoped instance (high)] Zero.ofOfNat0

/-- A fraction `num / den`; a zero denominator stands for the undefined value. -/
structure Fraction where
  num : Int
  den : Nat
deriving DecidableEq

namespace Fraction

/-! ## 1. Values and tests -/

/-- The largest term of a fraction. -/
def limit : Nat := 2 ^ (63 : Nat) - 1

/-- The undefined value: an unknown bound, an unset constant. -/
def undefined : Fraction := ⟨0, 0⟩

/-- A whole number. -/
def ofInt (n : Int) : Fraction := ⟨n, 1⟩

/-- A natural number. -/
def ofNat (n : Nat) : Fraction := ofInt n

def zero : Fraction := ofInt 0
def one : Fraction := ofInt 1
def half : Fraction := ⟨1, 2⟩

instance : Inhabited Fraction := ⟨undefined⟩

/-- The value is known. -/
def isDefined (q : Fraction) : Bool := q.den != 0

/-- The value is a whole number. -/
def isInteger (q : Fraction) : Bool := q.den == 1

/-- The value is known to be zero. -/
def isZero (q : Fraction) : Bool := q.den != 0 && q.num == 0

/-- The value is known to be negative. -/
def isNegative (q : Fraction) : Bool := q.den != 0 && decide (q.num < 0)

/-- The negated value is a fraction again. The word of a term holds one number below those of the
limit, and that one has no negative. -/
def hasNegative (q : Fraction) : Bool := decide (-(limit : Int) ≤ q.num)

/-! ## 2. Lowest terms -/

/-- Walks the continued fraction of `num / den` from the convergents `p₀ / q₀` and `p₁ / q₁`, and
stops at the last convergent whose terms are both within the limit. -/
def lastConvergent (num den p₀ q₀ p₁ q₁ : Nat) : Nat × Nat :=
  if _h : den = 0 then (p₁, q₁)
  else
    let x := num / den
    let p₂ := x * p₁ + p₀
    let q₂ := x * q₁ + q₀
    if p₂ ≤ limit ∧ q₂ ≤ limit then lastConvergent den (num % den) p₁ q₁ p₂ q₂
    else (p₁, q₁)
termination_by den
decreasing_by exact Nat.mod_lt num (Nat.pos_of_ne_zero _h)

/-- The replacement for `num / den` when its lowest terms are too large: the last convergent that
fits, or the largest fraction when the value itself is beyond the limit. -/
def nearest (num den : Nat) : Nat × Nat :=
  let (p, q) := lastConvergent num den 0 1 1 0
  if q = 0 then (limit, 1) else (p, q)

/-- The fraction `num / den` in lowest terms, brought within the limit. -/
def reduce (num den : Int) : Fraction :=
  if den = 0 then undefined
  else
    let sign : Int := if decide (num < 0) = decide (den < 0) then 1 else -1
    let g := Nat.gcd num.natAbs den.natAbs
    let n := num.natAbs / g
    let d := den.natAbs / g
    if n ≤ limit ∧ d ≤ limit then ⟨sign * n, d⟩
    else
      let (p, q) := nearest n d
      ⟨sign * p, q⟩

/-! ## 3. Arithmetic -/

/-- The sum, undefined if a summand is. -/
def add (a b : Fraction) : Fraction :=
  if a.isDefined && b.isDefined then
    reduce (a.num * b.den + b.num * a.den) (a.den * b.den)
  else undefined

/-- The product, undefined if a factor is. -/
def mul (a b : Fraction) : Fraction :=
  if a.isDefined && b.isDefined then reduce (a.num * b.num) (a.den * b.den) else undefined

/-- The negated value; the terms stay as they are. -/
def neg (a : Fraction) : Fraction := ⟨-a.num, a.den⟩

/-- The reciprocal, undefined at zero. -/
def recip (a : Fraction) : Fraction := reduce a.den a.num

/-- The difference. -/
def sub (a b : Fraction) : Fraction := a.add b.neg

/-- The quotient, undefined if a term is or if the divisor is zero. -/
def div (a b : Fraction) : Fraction :=
  if a.isDefined && b.isDefined then a.mul b.recip else undefined

instance : Add Fraction := ⟨add⟩
instance : Mul Fraction := ⟨mul⟩
instance : Neg Fraction := ⟨neg⟩
instance : Sub Fraction := ⟨sub⟩
instance : Div Fraction := ⟨div⟩

/-- Rounds toward zero. -/
def trunc (q : Fraction) : Fraction :=
  if q.isDefined then ofInt (q.num.tdiv q.den) else q

/-- Rounds down. -/
def floor (q : Fraction) : Fraction :=
  if q.isDefined then ofInt (q.num / q.den) else q

/-- Rounds up. -/
def ceil (q : Fraction) : Fraction := -(-q).floor

/-- The exponent `k` when a number above one is `2 ^ k`. -/
def log2? (n : Int) : Option Nat :=
  if 1 < n ∧ 2 ^ n.toNat.log2 = n.toNat then some n.toNat.log2 else none

/-- The exponent `k` when the value is `2 ^ k` and `k` is not zero. -/
def powerOfTwo? (q : Fraction) : Option Int :=
  if q.den = 1 then (log2? q.num).map Int.ofNat
  else if q.num = 1 then (log2? q.den).map fun k => -(k : Int)
  else none

/-! ## 4. Order

Undefined values are not comparable with anything. -/

/-- Compares two known values. -/
def cmp? (a b : Fraction) : Option Ordering :=
  if a.isDefined && b.isDefined then some (compare (a.num * b.den) (b.num * a.den)) else none

/-- Both values are known and `a` is the smaller one. -/
def lt (a b : Fraction) : Bool := a.cmp? b == some .lt

/-- Both values are known and `a` does not exceed `b`. -/
def le (a b : Fraction) : Bool := a.cmp? b == some .lt || a.cmp? b == some .eq

/-- The smaller of two values, the first one if they are not comparable. -/
def least (a b : Fraction) : Fraction := if b.lt a then b else a

/-- The larger of two values, the first one if they are not comparable. -/
def greatest (a b : Fraction) : Fraction := if a.lt b then b else a

/-! ## 5. Text -/

/-- The written form: `_` for the undefined value, a whole number without its denominator. -/
def text (q : Fraction) : String :=
  match q.den with
  | 0 => "_"
  | 1 => q.num.repr
  | d => q.num.repr ++ "/" ++ d.repr

end Fraction

end PixelConv
