import PixelConv.Proofs.Approximation

/-!
# Arithmetic in words of 128 bits

Terms are 64-bit numbers, and a sum, a product or a reduction works on 128-bit intermediates. The
checked forms below compute the same steps and fail at the first intermediate that does not fit its
word. They never fail on operands (`Fraction.reduce?_eq`, `Fraction.add?_eq`, `Fraction.mul?_eq`), and
what they give is the exact value, rounded as `Fraction.Rounds` says.
-/

namespace PixelConv

namespace Fraction

/-! ## 1. Words -/

/-- A term: a signed number of 64 bits. -/
def IsTerm (n : Int) : Prop := -2 ^ 63 ≤ n ∧ n < 2 ^ 63

instance (n : Int) : Decidable (IsTerm n) := inferInstanceAs (Decidable (_ ∧ _))

/-- A fraction of terms; the undefined value has one form. -/
structure Operand (q : Fraction) : Prop where
  num : IsTerm q.num
  den : q.den ≤ limit
  undef : q.den = 0 → q.num = 0

/-- The number, if it is a term. -/
def term? (n : Int) : Option Int := if IsTerm n then some n else none

/-- The number, if it has 128 bits with its sign. -/
def signed? (n : Int) : Option Int := if -2 ^ 127 ≤ n ∧ n < 2 ^ 127 then some n else none

/-- The number, if it has 128 bits. -/
def unsigned? (n : Nat) : Option Nat := if n < 2 ^ 128 then some n else none

theorem term?_eq {n : Int} (h : n.natAbs ≤ limit) : term? n = some n := by
  have hlimit : limit = 2 ^ 63 - 1 := rfl
  exact if_pos ⟨by omega, by omega⟩

theorem signed?_eq {n : Int} (h : n.natAbs < 2 ^ 127) : signed? n = some n :=
  if_pos ⟨by omega, by omega⟩

theorem unsigned?_eq {n : Nat} (h : n < 2 ^ 128) : unsigned? n = some n := if_pos h

theorem IsTerm.natAbs_le {n : Int} (h : IsTerm n) : n.natAbs ≤ 2 ^ 63 := by
  obtain ⟨hlow, hhigh⟩ := h
  omega

/-! ## 2. The walk -/

/-- The next convergent, if both terms can be computed and are within the limit. -/
def nextConvergent? (x p₀ q₀ p₁ q₁ : Nat) : Option (Nat × Nat) := do
  let p₂ ← (unsigned? (x * p₁)).bind fun v => unsigned? (v + p₀)
  let q₂ ← (unsigned? (x * q₁)).bind fun v => unsigned? (v + q₀)
  if p₂ ≤ limit ∧ q₂ ≤ limit then some (p₂, q₂) else none

/-- The walk with its products and differences checked; it ends where a next term overflows. -/
def lastConvergent? (num den p₀ q₀ p₁ q₁ : Nat) : Option (Nat × Nat) :=
  if _h : den = 0 then some (p₁, q₁)
  else
    match nextConvergent? (num / den) p₀ q₀ p₁ q₁ with
    | none => some (p₁, q₁)
    | some (p₂, q₂) =>
      if den * (num / den) < 2 ^ 128 ∧ den * (num / den) ≤ num then
        lastConvergent? den (num - den * (num / den)) p₁ q₁ p₂ q₂
      else none
termination_by den
decreasing_by
  rw [← Nat.mod_eq_sub]
  exact Nat.mod_lt num (Nat.pos_of_ne_zero _h)

/-- Product and sum are checked one after the other; the sum decides, as it is not smaller. -/
theorem nextTerm_eq (x a b : Nat) :
    ((unsigned? (x * a)).bind fun v => unsigned? (v + b)) =
      if x * a + b < 2 ^ 128 then some (x * a + b) else none := by
  by_cases hmul : x * a < 2 ^ 128
  · rw [unsigned?_eq hmul]
    rfl
  · rw [unsigned?, if_neg hmul, if_neg (by omega)]
    rfl

theorem nextConvergent?_eq (x p₀ q₀ p₁ q₁ : Nat) : nextConvergent? x p₀ q₀ p₁ q₁ =
    if x * p₁ + p₀ ≤ limit ∧ x * q₁ + q₀ ≤ limit then some (x * p₁ + p₀, x * q₁ + q₀) else none := by
  have hlimit : limit < 2 ^ 128 := by decide
  rw [nextConvergent?, nextTerm_eq, nextTerm_eq]
  by_cases hp : x * p₁ + p₀ < 2 ^ 128
  · -- a term that overflows is beyond the limit, so the walk ends there in any case
    by_cases hq : x * q₁ + q₀ < 2 ^ 128
    · rw [if_pos hp, if_pos hq]
      rfl
    · rw [if_pos hp, if_neg hq, if_neg (by omega)]
      rfl
  · rw [if_neg hp, if_neg (show ¬(x * p₁ + p₀ ≤ limit ∧ x * q₁ + q₀ ≤ limit) by omega)]
    rfl

/-- **The walk never overflows**: quotient times divisor is at most the dividend. -/
theorem lastConvergent?_eq {num den p₀ q₀ p₁ q₁ : Nat} (hnum : num < 2 ^ 128)
    (hden : den < 2 ^ 128) :
    lastConvergent? num den p₀ q₀ p₁ q₁ = some (lastConvergent num den p₀ q₀ p₁ q₁) := by
  fun_induction lastConvergent num den p₀ q₀ p₁ q₁ with
  | case1 num p₀ q₀ p₁ q₁ =>
    rw [lastConvergent?, dif_pos rfl]
  | case2 num den p₀ q₀ p₁ q₁ h x p₂ q₂ hlimit ih =>
    have hle : den * (num / den) ≤ num := Nat.mul_div_le num den
    rw [lastConvergent?, dif_neg h, nextConvergent?_eq, if_pos hlimit]
    simp only
    rw [if_pos ⟨Nat.lt_of_le_of_lt hle hnum, hle⟩, ← Nat.mod_eq_sub]
    exact ih hden (Nat.lt_trans (Nat.mod_lt num (Nat.pos_of_ne_zero h)) hden)
  | case3 num den p₀ q₀ p₁ q₁ h x p₂ q₂ hlimit =>
    rw [lastConvergent?, dif_neg h, nextConvergent?_eq, if_neg hlimit]

/-- The replacement for terms that are too large. -/
def nearest? (num den : Nat) : Option (Nat × Nat) :=
  (lastConvergent? num den 0 1 1 0).map fun r => if r.2 = 0 then (limit, 1) else r

theorem nearest?_eq {num den : Nat} (hnum : num < 2 ^ 128) (hden : den < 2 ^ 128) :
    nearest? num den = some (nearest num den) := by
  rw [nearest?, lastConvergent?_eq hnum hden]
  rfl

/-- The lowest terms of a quotient of words, or their replacement. -/
def lowestTerms? (num den : Nat) : Option (Nat × Nat) :=
  let g := num.gcd den
  if num / g ≤ limit ∧ den / g ≤ limit then some (num / g, den / g) else nearest? (num / g) (den / g)

theorem lowestTerms?_eq {num den : Nat} (hpos : 0 < den) (hnum : num < 2 ^ 128)
    (hden : den < 2 ^ 128) : lowestTerms? num den = some (nearest num den) := by
  unfold lowestTerms?
  simp only
  split
  · rename_i hfits
    rw [nearest_of_div_fits hpos hfits.1 hfits.2]
  · rw [nearest?_eq (Nat.lt_of_le_of_lt (Nat.div_le_self _ _) hnum)
      (Nat.lt_of_le_of_lt (Nat.div_le_self _ _) hden), nearest_div_gcd _ hpos]

/-! ## 3. Arithmetic -/

/-- Lowest terms, with the magnitudes as words and the signed numerator as a term. -/
def reduce? (num den : Int) : Option Fraction :=
  if den = 0 then some undefined
  else do
    let n ← unsigned? num.natAbs
    let d ← unsigned? den.natAbs
    let r ← lowestTerms? n d
    let p ← term? (quotientSign num den * r.1)
    some ⟨p, r.2⟩

/-- The checked reciprocal. -/
def recip? (a : Fraction) : Option Fraction := reduce? a.den a.num

/-- The checked sum. -/
def add? (a b : Fraction) : Option Fraction :=
  if a.isDefined && b.isDefined then do
    let x ← signed? (a.num * b.den)
    let y ← signed? (b.num * a.den)
    let num ← signed? (x + y)
    let den ← signed? (a.den * b.den)
    reduce? num den
  else some undefined

/-- The checked product. -/
def mul? (a b : Fraction) : Option Fraction :=
  if a.isDefined && b.isDefined then do
    let num ← signed? (a.num * b.num)
    let den ← signed? (a.den * b.den)
    reduce? num den
  else some undefined

/-- **Reduction never overflows** on 128-bit terms. -/
theorem reduce?_eq {num den : Int} (hnum : num.natAbs < 2 ^ 128) (hden : den.natAbs < 2 ^ 128) :
    reduce? num den = some (reduce num den) := by
  by_cases hzero : den = 0
  · rw [reduce?, reduce, if_pos hzero, if_pos hzero]
  have hterm := @term?_eq (quotientSign num den * (nearest num.natAbs den.natAbs).1) (by
    rw [natAbs_quotientSign_mul]
    exact (nearest_lowest _ _).2.1)
  rw [reduce?, if_neg hzero, unsigned?_eq hnum, unsigned?_eq hden]
  simp only [Option.bind_eq_bind, Option.bind_some]
  rw [lowestTerms?_eq (Int.natAbs_pos.mpr hzero) hnum hden, Option.bind_some, hterm,
    Option.bind_some, reduce_eq_nearest num hzero]

theorem natAbs_mul_le {m n : Int} {k l : Nat} (hm : m.natAbs ≤ k) (hn : n.natAbs ≤ l) :
    (m * n).natAbs ≤ k * l := by
  rw [Int.natAbs_mul]
  exact Nat.mul_le_mul hm hn

section Operands

variable {a b : Fraction}

theorem Operand.natAbs_den (ha : a.Operand) : (a.den : Int).natAbs ≤ limit := ha.den

/-- A numerator times a denominator leaves room for a sum of two. -/
theorem Operand.natAbs_cross (ha : a.Operand) (hb : b.Operand) :
    (a.num * b.den).natAbs ≤ 2 ^ 63 * limit :=
  natAbs_mul_le ha.num.natAbs_le hb.natAbs_den

theorem recip?_eq (ha : a.Operand) : a.recip? = some a.recip := by
  have hnum := ha.num.natAbs_le
  have hden := ha.natAbs_den
  have hlimit : limit = 2 ^ 63 - 1 := rfl
  exact reduce?_eq (by omega) (by omega)

/-- **Sums never overflow.** The two products are below `2 ^ 126` by at least `2 ^ 63`. -/
theorem add?_eq (ha : a.Operand) (hb : b.Operand) : a.add? b = some (a + b) := by
  have hx := ha.natAbs_cross hb
  have hy := hb.natAbs_cross ha
  have hden := natAbs_mul_le ha.natAbs_den hb.natAbs_den
  rw [show limit = 2 ^ 63 - 1 from rfl] at hx hy hden
  show a.add? b = some (Fraction.add a b)
  rw [add?, Fraction.add]
  split
  · rw [signed?_eq (by omega), signed?_eq (by omega), signed?_eq (by omega)]
    simp only [Option.bind_eq_bind, Option.bind_some]
    rw [signed?_eq (by omega), Option.bind_some]
    exact reduce?_eq (by omega) (by omega)
  · rfl

/-- **Products never overflow.** -/
theorem mul?_eq (ha : a.Operand) (hb : b.Operand) : a.mul? b = some (a * b) := by
  have hnum := natAbs_mul_le ha.num.natAbs_le hb.num.natAbs_le
  have hden := natAbs_mul_le ha.natAbs_den hb.natAbs_den
  rw [show limit = 2 ^ 63 - 1 from rfl] at hden
  show a.mul? b = some (Fraction.mul a b)
  rw [mul?, Fraction.mul]
  split
  · rw [signed?_eq (by omega), signed?_eq (by omega)]
    exact reduce?_eq (by omega) (by omega)
  · rfl

end Operands

/-! ## 4. Exact values -/

/-- The number that a fraction stands for, if it is defined. -/
def value? (q : Fraction) : Option ℚ := if q.isDefined then some q.value else none

/-- The quotient of two numbers. -/
def quotient? (x y : ℚ) : Option ℚ := if y = 0 then none else some (x / y)

/-- A result for an exact one: undefined where that is, and the number rounded elsewhere. -/
structure Represents (e : Option ℚ) (r : Fraction) : Prop where
  undefined_iff : r = undefined ↔ e = none
  rounds : ∀ x, e = some x → Rounds x r

theorem value?_of_defined {q : Fraction} (h : q.isDefined = true) : q.value? = some q.value := if_pos h

theorem value?_eq_none_iff {q : Fraction} : q.value? = none ↔ ¬q.isDefined = true := by
  refine ⟨fun h hdef => ?_, fun h => if_neg h⟩
  rw [value?_of_defined hdef] at h
  cases h

theorem cast_den_ne_zero {q : Fraction} (h : q.isDefined = true) : (q.den : ℚ) ≠ 0 :=
  Nat.cast_ne_zero.mpr (Nat.ne_of_gt (isDefined_iff.mp h))

theorem represents_none : Represents none undefined :=
  ⟨iff_of_true rfl rfl, fun x h => absurd h.symm (Option.some_ne_none x)⟩

theorem represents_reduce (num den : Int) : Represents (quotient? num den) (reduce num den) := by
  by_cases hden : den = 0
  · rw [quotient?, if_pos (by rw [hden, Int.cast_zero]), reduce, if_pos hden]
    exact represents_none
  · rw [quotient?, if_neg (Int.cast_ne_zero.mpr hden)]
    refine ⟨iff_of_false (fun hundef => ?_) (Option.some_ne_none _), fun x hx => ?_⟩
    · have hdefined := isDefined_reduce num hden
      rw [hundef] at hdefined
      cases hdefined
    · rw [← Option.some.inj hx]
      exact reduce_rounds num hden

section Operations

variable {a b : Fraction}

theorem represents_recip (ha : a.Operand) : Represents (a.value?.bind (quotient? 1)) a.recip := by
  have hrecip := represents_reduce a.den a.num
  by_cases hdef : a.isDefined = true
  · have hvalue : quotient? 1 a.value = quotient? ((a.den : Int) : ℚ) a.num := by
      rw [quotient?, quotient?, value, one_div_div, Int.cast_natCast]
      refine if_congr ?_ rfl rfl
      rw [div_eq_zero_iff, or_iff_left (cast_den_ne_zero hdef)]
    rw [value?_of_defined hdef, Option.bind_some, hvalue]
    exact hrecip
  · have hden : a.den = 0 := Nat.eq_zero_of_not_pos fun hpos => hdef (isDefined_iff.mpr hpos)
    rw [value?_eq_none_iff.mpr hdef, Option.bind_none, recip, ha.undef hden]
    exact represents_none

/-- Sums and products: undefined with an operand, a quotient over the common denominator else. -/
theorem represents_both {f : ℚ → ℚ → ℚ} {num : Int}
    (hf : (a.den : ℚ) ≠ 0 → (b.den : ℚ) ≠ 0 → f a.value b.value = num / (a.den * b.den)) :
    Represents (Option.map₂ f a.value? b.value?)
      (if a.isDefined && b.isDefined then reduce num (a.den * b.den) else undefined) := by
  by_cases hdef : (a.isDefined && b.isDefined) = true
  · obtain ⟨ha, hb⟩ := Bool.and_eq_true_iff.mp hdef
    have hda := cast_den_ne_zero ha
    have hdb := cast_den_ne_zero hb
    have hreduce := represents_reduce num (a.den * b.den)
    rw [quotient?, if_neg (by push_cast; exact mul_ne_zero hda hdb)] at hreduce
    rw [if_pos hdef, value?_of_defined ha, value?_of_defined hb, Option.map₂_some_some, hf hda hdb]
    push_cast at hreduce
    exact hreduce
  · have hnone : Option.map₂ f a.value? b.value? = none := by
      rw [Option.map₂_eq_none_iff, value?_eq_none_iff, value?_eq_none_iff, ← not_and_or,
        ← Bool.and_eq_true_iff]
      exact hdef
    rw [if_neg hdef, hnone]
    exact represents_none

theorem represents_add (a b : Fraction) :
    Represents (Option.map₂ (· + ·) a.value? b.value?) (a + b) :=
  represents_both fun ha hb => by
    rw [value, value, div_add_div _ _ ha hb]
    push_cast
    rw [Rat.mul_comm a.den b.num]

theorem represents_mul (a b : Fraction) :
    Represents (Option.map₂ (· * ·) a.value? b.value?) (a * b) :=
  represents_both fun _ _ => by
    rw [value, value, div_mul_div_comm]
    push_cast
    rfl

end Operations

/-! ## 5. Equality of results -/

/-- What one operation on terms or on operands gives. -/
inductive Result : Fraction → Prop where
  | quotient {num den : Int} (hnum : IsTerm num) (hden : IsTerm den) : Result (reduce num den)
  | recip {a : Fraction} (ha : a.Operand) : Result a.recip
  | add {a b : Fraction} (ha : a.Operand) (hb : b.Operand) : Result (a + b)
  | mul {a b : Fraction} (ha : a.Operand) (hb : b.Operand) : Result (a * b)

section Results

variable {r s : Fraction}

theorem Result.lowest (hr : Result r) : r.Lowest := by
  cases hr with
  | quotient => exact lowest_reduce _ _
  | recip => exact lowest_reduce _ _
  | add => exact lowest_add _ _
  | mul => exact lowest_mul _ _

/-- A result is an operand again. -/
theorem Lowest.operand (hr : r.Lowest) : r.Operand := by
  rcases hr with rfl | ⟨hpos, -, hnum, hden⟩
  · exact ⟨by decide, by decide, fun _ => rfl⟩
  · rw [show limit = 2 ^ 63 - 1 from rfl] at hnum
    exact ⟨⟨by omega, by omega⟩, hden, fun h => absurd h (Nat.ne_of_gt hpos)⟩

/-- **Lowest terms are determined by the value.** -/
theorem Lowest.eq_iff_value (hr : r.Lowest) (hs : s.Lowest) : r = s ↔ r.value? = s.value? := by
  refine ⟨fun h => by rw [h], fun h => ?_⟩
  rcases hr with rfl | ⟨hposR, hgcdR, -⟩
  · rcases hs with rfl | ⟨hposS, -⟩
    · rfl
    · rw [value?_of_defined (isDefined_iff.mpr hposS)] at h
      exact absurd h.symm (Option.some_ne_none _)
  · rw [value?_of_defined (isDefined_iff.mpr hposR)] at h
    rcases hs with rfl | ⟨hposS, hgcdS, -⟩
    · exact absurd h (Option.some_ne_none _)
    · rw [value?_of_defined (isDefined_iff.mpr hposS)] at h
      exact eq_of_value ⟨hposR, hgcdR⟩ ⟨hposS, hgcdS⟩ (Option.some.inj h)

/-- Comparison finds two values equal where the numbers are. -/
theorem cmp?_eq_iff : r.cmp? s = some .eq ↔ r.isDefined = true ∧ r.value? = s.value? := by
  by_cases hdef : (r.isDefined && s.isDefined) = true
  · obtain ⟨hr, hs⟩ := Bool.and_eq_true_iff.mp hdef
    rw [cmp?, if_pos hdef, Option.some.injEq, Int.compare_eq_eq, value?_of_defined hr,
      value?_of_defined hs, Option.some.injEq, value, value,
      div_eq_div_iff (cast_den_ne_zero hr) (cast_den_ne_zero hs)]
    exact ⟨fun h => ⟨hr, by exact_mod_cast h⟩, fun h => by exact_mod_cast h.2⟩
  · rw [cmp?, if_neg hdef]
    refine iff_of_false (fun h => absurd h.symm (Option.some_ne_none _)) ?_
    rintro ⟨hr, hvalue⟩
    have hs : ¬s.value? = none := by
      rw [← hvalue, value?_of_defined hr]
      exact Option.some_ne_none _
    rw [value?_eq_none_iff, not_not] at hs
    exact hdef (by rw [hr, hs]; rfl)

end Results

/-- **Arithmetic on terms**: quotients, reciprocals, sums and products never overflow a word. A result
is undefined where the exact one is, and else it is the exact one rounded. Results are operands again,
and two of them are the same fraction where they are the same number. -/
theorem arithmetic_rounds :
    (∀ num den : Int, IsTerm num → IsTerm den →
      reduce? num den = some (reduce num den) ∧ Represents (quotient? num den) (reduce num den)) ∧
    (∀ a : Fraction, a.Operand →
      a.recip? = some a.recip ∧ Represents (a.value?.bind (quotient? 1)) a.recip) ∧
    (∀ a b : Fraction, a.Operand → b.Operand →
      a.add? b = some (a + b) ∧ Represents (Option.map₂ (· + ·) a.value? b.value?) (a + b)) ∧
    (∀ a b : Fraction, a.Operand → b.Operand →
      a.mul? b = some (a * b) ∧ Represents (Option.map₂ (· * ·) a.value? b.value?) (a * b)) ∧
    (∀ r : Fraction, Result r → r.Operand) ∧
    ∀ r s : Fraction, Result r → Result s →
      (r = s ↔ r.value? = s.value?) ∧ (r.cmp? s = some .eq ↔ r.isDefined = true ∧ r = s) := by
  refine ⟨fun num den hnum hden => ⟨?_, represents_reduce num den⟩,
    fun a ha => ⟨recip?_eq ha, represents_recip ha⟩,
    fun a b ha hb => ⟨add?_eq ha hb, represents_add a b⟩,
    fun a b ha hb => ⟨mul?_eq ha hb, represents_mul a b⟩,
    fun r hr => hr.lowest.operand, fun r s hr hs => ?_⟩
  · have hn := hnum.natAbs_le
    have hd := hden.natAbs_le
    exact reduce?_eq (by omega) (by omega)
  · have heq := hr.lowest.eq_iff_value hs.lowest
    exact ⟨heq, by rw [heq]; exact cmp?_eq_iff⟩

/-- The least term is a whole quotient of itself, its reciprocal is close to zero, and its double and its
square are beyond every term. A third and a sixth are the same as two quarters. -/
theorem least_term_rounds :
    IsTerm (-2 ^ 63) ∧ (ofInt (-2 ^ 63)).Operand ∧
      reduce? (-2 ^ 63) (-2 ^ 63) = some one ∧
      |(ofInt (-2 ^ 63)).recip.value - 1 / -2 ^ 63| ≤ 1 / (2 ^ 63 - 1) ∧
      (ofInt (-2 ^ 63)).add? (ofInt (-2 ^ 63)) = some (ofInt (-limit)) ∧
      (ofInt (-2 ^ 63)).mul? (ofInt (-2 ^ 63)) = some (ofInt limit) ∧
      ((⟨1, 3⟩ : Fraction) + ⟨1, 6⟩).value? = (reduce 2 4).value? := by
  have hterm : IsTerm (-2 ^ 63) := by decide
  have hleast : (ofInt (-2 ^ 63)).Operand := ⟨by decide, by decide, by decide⟩
  have hthird : (⟨1, 3⟩ : Fraction).Operand := ⟨by decide, by decide, by decide⟩
  have hsixth : (⟨1, 6⟩ : Fraction).Operand := ⟨by decide, by decide, by decide⟩
  obtain ⟨hquotient, hrecip, hadd, hmul, -, hsame⟩ := arithmetic_rounds
  refine ⟨hterm, hleast, ?_, ?_, ?_, ?_, ?_⟩
  · rw [(hquotient _ _ hterm hterm).1]
    rfl
  · have hexact : (ofInt (-2 ^ 63)).value?.bind (quotient? 1) = some (1 / -2 ^ 63) := by
      norm_num [value?, quotient?, value, ofInt, isDefined]
    have hclose := ((hrecip _ hleast).2.rounds _ hexact).close (by norm_num)
    norm_num at hclose ⊢
    exact hclose
  · obtain ⟨hchecked, hexact⟩ := hadd _ _ hleast hleast
    have hdouble := (hexact.rounds _ rfl).beyond (by norm_num [value, ofInt])
    rw [hchecked, hdouble, if_pos (by norm_num [value, ofInt])]
  · obtain ⟨hchecked, hexact⟩ := hmul _ _ hleast hleast
    have hsquare := (hexact.rounds _ rfl).beyond (by norm_num [value, ofInt])
    rw [hchecked, hsquare, if_neg (by norm_num [value, ofInt])]
  · exact (hsame _ _ (.add hthird hsixth) (.quotient (by decide) (by decide))).1.mp rfl

end Fraction

end PixelConv
