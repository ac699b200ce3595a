import Mathlib.Algebra.Order.Field.Basic
import Mathlib.Algebra.Order.Field.Rat
import Mathlib.Data.Nat.Cast.Field
import Mathlib.Data.Rat.Lemmas
import Mathlib.Tactic.FieldSimp
import Mathlib.Tactic.Linarith
import PixelConv.Proofs.Agreement
import PixelConv.Proofs.Convergents

/-!
# How far a replaced fraction is from its value

The walk through the convergents of `N / D` ends before the first term that is too large. The distance
left is the divisor at hand over the common denominator, and the term that did not fit bounds this
divisor: by `D` if it is a denominator, by `N` if it is a numerator (`Fraction.lastConvergent_close`).
So reduction gives the exact quotient where its terms fit, one that is off by at most
`max 1 |e| / (2 ^ 63 - 1)` below `2 ^ 63`, and the limit from there on (`Fraction.reduce_rounds`).
-/

namespace PixelConv

namespace Fraction

/-! ## 1. The last convergent -/

/-- **The last convergent is close.** The walk for `N / D` keeps the value between the two convergents
at hand, so it ends at a distance that the next denominator bounds, and the next numerator as well. -/
theorem lastConvergent_close {num den p₀ q₀ p₁ q₁ : Nat}
    (hdet : ((p₁ : Int) * q₀ - p₀ * q₁).natAbs = 1) :
    (((p₁ * num + p₀ * den : Nat) : Int) * (lastConvergent num den p₀ q₀ p₁ q₁).2 -
        (lastConvergent num den p₀ q₀ p₁ q₁).1 * (q₁ * num + q₀ * den : Nat)).natAbs * limit ≤
      max (p₁ * num + p₀ * den) (q₁ * num + q₀ * den) := by
  fun_induction lastConvergent num den p₀ q₀ p₁ q₁ with
  | case1 num p₀ q₀ p₁ q₁ =>
    have hzero : ((p₁ * num + p₀ * 0 : Nat) : Int) * q₁ - p₁ * (q₁ * num + q₀ * 0 : Nat) = 0 := by
      simp only [Nat.mul_zero, Nat.add_zero, Int.natCast_mul]
      grind
    rw [hzero, Int.natAbs_zero, Nat.zero_mul]
    exact Nat.zero_le _
  | case2 num den p₀ q₀ p₁ q₁ hden x p₂ q₂ hlimit ih =>
    have hkeepP : p₂ * den + p₁ * (num % den) = p₁ * num + p₀ * den := step_keeps num den p₀ p₁
    have hkeepQ : q₂ * den + q₁ * (num % den) = q₁ * num + q₀ * den := step_keeps num den q₀ q₁
    rw [← hkeepP, ← hkeepQ]
    exact ih (det_step x hdet)
  | case3 num den p₀ q₀ p₁ q₁ hden x p₂ q₂ hlimit =>
    have hkeepP : p₂ * den + p₁ * (num % den) = p₁ * num + p₀ * den := step_keeps num den p₀ p₁
    have hkeepQ : q₂ * den + q₁ * (num % den) = q₁ * num + q₀ * den := step_keeps num den q₀ q₁
    have hdist : (((p₁ * num + p₀ * den : Nat) : Int) * q₁ -
        p₁ * (q₁ * num + q₀ * den : Nat)).natAbs = den := by
      have hsplit : ((p₁ * num + p₀ * den : Nat) : Int) * q₁ - p₁ * (q₁ * num + q₀ * den : Nat) =
          -(((p₁ : Int) * q₀ - p₀ * q₁) * den) := by
        simp only [Int.natCast_add, Int.natCast_mul]
        grind
      rw [hsplit, Int.natAbs_neg, Int.natAbs_mul, hdet, Nat.one_mul, Int.natAbs_natCast]
    -- the term that is too large bounds the distance
    have hterm : ∀ {t rest : Nat}, limit < t → den * limit ≤ t * den + rest := by
      intro t rest ht
      have hmul := Nat.mul_le_mul_left den (Nat.le_of_lt ht)
      rw [Nat.mul_comm t den]
      omega
    rw [hdist, ← hkeepP, ← hkeepQ]
    rcases Decidable.not_and_iff_or_not.mp hlimit with hp | hq
    · exact Nat.le_trans (hterm (Nat.lt_of_not_le hp)) (Nat.le_max_left _ _)
    · exact Nat.le_trans (hterm (Nat.lt_of_not_le hq)) (Nat.le_max_right _ _)

/-- The distance of a replacement from a value within the limit, over the common denominator. -/
theorem nearest_close {num den : Nat} (hden : 0 < den) (hquot : num / den ≤ limit) :
    ((num : Int) * (nearest num den).2 - (nearest num den).1 * den).natAbs * limit ≤ max num den := by
  have hclose := @lastConvergent_close num den 0 1 1 0 rfl
  rw [nearest_within hden hquot]
  simpa only [Nat.one_mul, Nat.zero_mul, Nat.add_zero, Nat.zero_add] using hclose

/-! ## 2. Values -/

/-- The number that a defined fraction stands for. -/
def value (q : Fraction) : ℚ := q.num / q.den

theorem value_signed (s : Int) (n d : Nat) : value ⟨s * n, d⟩ = s * (n / d) := by
  rw [value]
  push_cast
  rw [mul_div_assoc]

section Lowest

variable {q : Fraction} (hden : 0 < q.den) (hgcd : q.num.natAbs.gcd q.den = 1)

include hden hgcd

/-- In lowest terms the numerator is that of the value, -/
theorem num_value : q.value.num = q.num :=
  Rat.num_div_eq_of_coprime (Int.natCast_pos.mpr hden) hgcd

/-- and so is the denominator. -/
theorem den_value : q.value.den = q.den :=
  Int.natCast_inj.mp (Rat.den_div_eq_of_coprime (Int.natCast_pos.mpr hden) hgcd)

end Lowest

/-- Lowest terms are those of the value. -/
theorem eq_of_value {r s : Fraction} (hr : 0 < r.den ∧ r.num.natAbs.gcd r.den = 1)
    (hs : 0 < s.den ∧ s.num.natAbs.gcd s.den = 1) (h : r.value = s.value) : r = s := by
  have hnum : r.num = s.num := by rw [← num_value hr.1 hr.2, h, num_value hs.1 hs.2]
  have hden : r.den = s.den := by rw [← den_value hr.1 hr.2, h, den_value hs.1 hs.2]
  cases r
  cases s
  exact Fraction.mk.injEq .. ▸ ⟨hnum, hden⟩

/-- The terms of a number in lowest terms are within the limit. -/
def Fits (e : ℚ) : Prop := e.num.natAbs ≤ limit ∧ e.den ≤ limit

/-- What stands for a number as the result of arithmetic: a fraction in lowest terms, the number itself
where its terms fit, close to it below `2 ^ 63`, and the limit with its sign from there on. -/
structure Rounds (e : ℚ) (r : Fraction) : Prop where
  den_pos : 0 < r.den
  coprime : r.num.natAbs.gcd r.den = 1
  num_le : r.num.natAbs ≤ limit
  den_le : r.den ≤ limit
  exact : Fits e → r.value = e
  close : |e| < 2 ^ 63 → |r.value - e| ≤ max 1 |e| / (2 ^ 63 - 1)
  beyond : 2 ^ 63 ≤ |e| → r = ofInt (if e < 0 then -limit else limit)

theorem cast_limit : (limit : ℚ) = 2 ^ 63 - 1 := by
  norm_num [limit]

/-- Distances over the common denominator, as distances of values. -/
theorem abs_sub_le_of_cross {n d p q : Nat} (hd : 0 < d) (hq : 0 < q)
    (h : ((n : Int) * q - p * d).natAbs * limit ≤ max n d) :
    |(p : ℚ) / q - n / d| ≤ max 1 ((n : ℚ) / d) / limit := by
  have hd' : (0 : ℚ) < d := by exact_mod_cast hd
  have hq' : (1 : ℚ) ≤ q := by exact_mod_cast hq
  have hlimit : (0 : ℚ) < limit := by norm_num [limit]
  have hdist : |(p : ℚ) / q - n / d| = ((n : Int) * q - p * d).natAbs / (q * d) := by
    rw [div_sub_div _ _ (by positivity) (by positivity), abs_div,
      abs_of_pos (show (0 : ℚ) < q * d by positivity), Nat.cast_natAbs, abs_sub_comm,
      Rat.mul_comm q]
    push_cast
    rfl
  have hmax : max 1 ((n : ℚ) / d) * d = max (n : ℚ) d := by
    rw [max_mul_of_nonneg _ _ hd'.le, one_mul, div_mul_cancel₀ _ hd'.ne', max_comm]
  have hcross : ((((n : Int) * q - p * d).natAbs : ℚ)) * limit ≤ max (n : ℚ) d := by
    exact_mod_cast h
  rw [hdist, div_le_div_iff₀ (by positivity) hlimit]
  calc ((((n : Int) * q - p * d).natAbs : ℚ)) * limit ≤ max (n : ℚ) d := hcross
    _ = max 1 ((n : ℚ) / d) * d * 1 := by rw [hmax, mul_one]
    _ ≤ max 1 ((n : ℚ) / d) * d * q := by
      exact mul_le_mul_of_nonneg_left hq' (by positivity)
    _ = max 1 ((n : ℚ) / d) * (q * d) := by rw [Rat.mul_assoc, Rat.mul_comm d]

/-! ## 3. Reduction -/

/-- A quotient as its sign and its magnitude. -/
theorem quotientSign_mul (num den : Int) :
    (num : ℚ) / den = quotientSign num den * (num.natAbs / den.natAbs) := by
  rw [quotientSign, Nat.cast_natAbs, Nat.cast_natAbs]
  rcases Int.lt_or_le num 0 with hn | hn
  · rcases Int.lt_or_le den 0 with hd | hd
    · rw [decide_eq_true hn, decide_eq_true hd, if_pos rfl, abs_of_neg hn, abs_of_neg hd]
      push_cast
      rw [neg_div_neg_eq, one_mul]
    · rw [decide_eq_true hn, decide_eq_false (Int.not_lt.mpr hd), if_neg (by decide), abs_of_neg hn,
        abs_of_nonneg hd]
      push_cast
      rw [neg_div, neg_mul_neg, one_mul]
  · rcases Int.lt_or_le den 0 with hd | hd
    · rw [decide_eq_false (Int.not_lt.mpr hn), decide_eq_true hd, if_neg (by decide),
        abs_of_nonneg hn, abs_of_neg hd]
      push_cast
      rw [div_neg, neg_mul_neg, one_mul]
    · rw [decide_eq_false (Int.not_lt.mpr hn), decide_eq_false (Int.not_lt.mpr hd), if_pos rfl,
        abs_of_nonneg hn, abs_of_nonneg hd]
      push_cast
      rw [one_mul]

/-- A quotient is replaced by its magnitude's replacement with its sign, also where its terms fit. -/
theorem reduce_eq_nearest (num : Int) {den : Int} (hden : den ≠ 0) :
    reduce num den = ⟨quotientSign num den * (nearest num.natAbs den.natAbs).1,
      (nearest num.natAbs den.natAbs).2⟩ := by
  have hpos : 0 < den.natAbs := Int.natAbs_pos.mpr hden
  rw [reduce, if_neg hden]
  simp only
  split
  · rename_i hfits
    rw [nearest_of_div_fits hpos hfits.1 hfits.2]
    rfl
  · rw [nearest_div_gcd _ hpos]
    rfl

section Magnitudes

variable (num den : Int) {n d : Nat}

/-- A quotient whose lowest terms fit is its own replacement. -/
theorem nearest_of_fits_signed (hd : 0 < d) (h : Fits (quotientSign num den * (n / d))) :
    ((nearest n d).1 : ℚ) / (nearest n d).2 = n / d := by
  have habs := natAbs_quotientSign_mul num den (n / n.gcd d)
  have hd' := div_gcd_pos n hd
  have hcop : (quotientSign num den * (n / n.gcd d : Nat)).natAbs.gcd (d / n.gcd d) = 1 := by
    rw [habs, Nat.gcd_div_gcd_div_gcd_of_pos_right hd]
  have hquot : ((n / n.gcd d : Nat) : ℚ) / (d / n.gcd d : Nat) = n / d :=
    Nat.cast_div_div_div_cancel_right (Nat.gcd_dvd_right n d) (Nat.gcd_dvd_left n d)
  rw [← hquot, Fits, ← value_signed, num_value hd' hcop, den_value hd' hcop, habs] at h
  rw [nearest_of_div_fits hd h.1 h.2, hquot]

theorem abs_quotientSign_mul (x : ℚ) : |quotientSign num den * x| = |x| := by
  rcases quotientSign_cases num den with h | h
  · rw [h, Int.cast_one, one_mul]
  · rw [h, Int.cast_neg, Int.cast_one, neg_mul, one_mul, abs_neg]

/-- The whole part is within the limit below `2 ^ 63`. -/
theorem div_le_limit_iff (hd : 0 < d) : n / d ≤ limit ↔ (n : ℚ) / d < 2 ^ 63 := by
  have hd' : (0 : ℚ) < d := Nat.cast_pos.mpr hd
  rw [div_lt_iff₀ hd', show limit = 2 ^ 63 - 1 from rfl, ← Nat.lt_iff_le_pred (by decide),
    Nat.div_lt_iff_lt_mul hd]
  exact_mod_cast Iff.rfl

end Magnitudes

/-- **Reduction rounds.** The exact quotient where its terms fit, a close one below `2 ^ 63`, and the
limit with the sign of the quotient beyond. -/
theorem reduce_rounds (num : Int) {den : Int} (hden : den ≠ 0) :
    Rounds (num / den) (reduce num den) := by
  have hdefined := isDefined_iff.mp (isDefined_reduce num hden)
  have hlowest := (lowest_reduce num den).resolve_left fun hundef => by
    rw [hundef] at hdefined
    exact absurd hdefined (by decide)
  have hd : 0 < den.natAbs := Int.natAbs_pos.mpr hden
  have hreduce := reduce_eq_nearest num hden
  have he := quotientSign_mul num den
  generalize num.natAbs = n, den.natAbs = d at hreduce he hd
  have habs : |(num : ℚ) / den| = n / d := by
    rw [he, abs_quotientSign_mul, abs_of_nonneg (by positivity)]
  have hvalue : (reduce num den).value =
      quotientSign num den * ((nearest n d).1 / (nearest n d).2) := by
    rw [hreduce, value_signed]
  refine ⟨hlowest.1, hlowest.2.1, hlowest.2.2.1, hlowest.2.2.2, fun hfits => ?_, fun hbelow => ?_,
    fun hbeyond => ?_⟩
  · rw [he] at hfits
    rw [hvalue, he, nearest_of_fits_signed num den hd hfits]
  · rw [habs] at hbelow
    rw [habs, hvalue, he, ← mul_sub, abs_quotientSign_mul, ← cast_limit]
    exact abs_sub_le_of_cross hd (nearest_spec n hd).1
      (nearest_close hd ((div_le_limit_iff hd).mpr hbelow))
  · rw [habs] at hbeyond
    have hquot : limit < n / d := by
      rw [← Nat.not_le, div_le_limit_iff hd]
      exact not_lt.mpr hbeyond
    have hpos : (0 : ℚ) < n / d := lt_of_lt_of_le (by positivity) hbeyond
    rw [hreduce, nearest_beyond hd hquot, he, ofInt]
    rcases quotientSign_cases num den with h | h
    · rw [h, if_neg (by push_cast; linarith), Int.one_mul]
    · rw [h, if_pos (by push_cast; linarith), Int.neg_mul, Int.one_mul]

end Fraction

end PixelConv
