import PixelConv.Op.Eval

/-!
# Fractions that stand for natural numbers

Bounds and constants of integer elements are natural numbers, and so is what the exact evaluation
makes of them, as long as no term leaves the limit. Beyond it a product is replaced by a convergent,
which is never far below (`Fraction.nearest_spec`); that is enough for an upper bound.
-/

namespace PixelConv

namespace Fraction

/-! ## 1. Order -/

theorem lt_eq_true_iff {a b : Fraction} :
    a.lt b = true ↔ a.isDefined = true ∧ b.isDefined = true ∧ a.num * b.den < b.num * a.den := by
  unfold lt cmp?
  by_cases hdef : (a.isDefined && b.isDefined) = true
  · rw [if_pos hdef]
    rw [Bool.and_eq_true] at hdef
    rw [beq_iff_eq, Option.some.injEq, Int.compare_eq_lt]
    exact ⟨fun h => ⟨hdef.1, hdef.2, h⟩, fun h => h.2.2⟩
  · rw [if_neg hdef]
    constructor
    · intro h
      cases h
    · rintro ⟨ha, hb, -⟩
      exact absurd (by rw [ha, hb]; rfl) hdef

theorem le_eq_true_iff {a b : Fraction} :
    a.le b = true ↔ a.isDefined = true ∧ b.isDefined = true ∧ a.num * b.den ≤ b.num * a.den := by
  unfold le cmp?
  by_cases hdef : (a.isDefined && b.isDefined) = true
  · rw [if_pos hdef]
    rw [Bool.and_eq_true] at hdef
    rw [Bool.or_eq_true, beq_iff_eq, beq_iff_eq, Option.some.injEq, Option.some.injEq,
      Int.compare_eq_lt, Int.compare_eq_eq]
    constructor
    · rintro (h | h)
      · exact ⟨hdef.1, hdef.2, Int.le_of_lt h⟩
      · exact ⟨hdef.1, hdef.2, Int.le_of_eq h⟩
    · rintro ⟨-, -, h⟩
      exact Int.lt_or_eq_of_le h
  · rw [if_neg hdef]
    constructor
    · intro h
      cases h
    · rintro ⟨ha, hb, -⟩
      exact absurd (by rw [ha, hb]; rfl) hdef

theorem lt_ofInt (a b : Int) : (ofInt a).lt (ofInt b) = decide (a < b) := by
  rw [Bool.eq_iff_iff, lt_eq_true_iff, decide_eq_true_iff]
  show (_ ∧ _ ∧ a * 1 < b * 1) ↔ _
  rw [Int.mul_one, Int.mul_one]
  exact ⟨fun h => h.2.2, fun h => ⟨rfl, rfl, h⟩⟩

theorem isDefined_of_isInteger {q : Fraction} (h : q.isInteger = true) : q.isDefined = true := by
  rw [isDefined, beq_iff_eq.mp h]
  rfl

theorem isNegative_of_num {q : Fraction} (h : 0 ≤ q.num) : q.isNegative = false := by
  rw [isNegative, decide_eq_false (Int.not_lt.mpr h), Bool.and_false]

theorem num_nonneg {q : Fraction} (hd : q.isDefined = true) (h : q.isNegative = false) :
    0 ≤ q.num := by
  have hnum : (q.isDefined && decide (q.num < 0)) = false := h
  rw [hd, Bool.true_and, decide_eq_false_iff_not] at hnum
  exact Int.not_lt.mp hnum

/-- A whole number limited to the range from zero to `top`. -/
theorem saturate_ofInt (a : Int) (top : Nat) :
    (ofInt a).saturate (ofNat top) = ofNat (min a.toNat top) := by
  unfold saturate
  have hneg : (ofInt a).isNegative = decide (a < 0) := by
    show ((1 : Nat) != 0 && decide (a < 0)) = decide (a < 0)
    rfl
  rw [hneg, show (ofNat top).lt (ofInt a) = decide ((top : Int) < a) from lt_ofInt _ _]
  by_cases ha : a < 0
  · rw [if_pos (decide_eq_true ha), show a.toNat = 0 by omega, Nat.zero_min]
    rfl
  · rw [if_neg (by rw [decide_eq_true_iff]; exact ha)]
    by_cases htop : (top : Int) < a
    · rw [if_pos (decide_eq_true htop), Nat.min_eq_right (by omega)]
    · rw [if_neg (by rw [decide_eq_true_iff]; exact htop), Nat.min_eq_left (by omega), ofNat,
        Int.toNat_of_nonneg (by omega)]

/-! ## 2. Products -/

/-- A convergent is not below the whole part of the value when the first two are not. -/
theorem lastConvergent_ge {a num den p₀ q₀ p₁ q₁ : Nat} (h₀ : a * q₀ ≤ p₀) (h₁ : a * q₁ ≤ p₁) :
    a * (lastConvergent num den p₀ q₀ p₁ q₁).2 ≤ (lastConvergent num den p₀ q₀ p₁ q₁).1 := by
  fun_induction lastConvergent num den p₀ q₀ p₁ q₁ with
  | case1 => exact h₁
  | case2 num den p₀ q₀ p₁ q₁ hden x p₂ q₂ hlimit ih =>
    refine ih h₁ ?_
    show a * (x * q₁ + q₀) ≤ x * p₁ + p₀
    rw [Nat.mul_add, Nat.mul_left_comm]
    exact Nat.add_le_add (Nat.mul_le_mul_left x h₁) h₀
  | case3 => exact h₁

/-- **The replacement of a fraction with large terms**: its denominator is positive, and it is not
below the whole part of the value, as far as that is within the limit. -/
theorem nearest_spec (num : Nat) {den : Nat} (hden : 0 < den) :
    0 < (nearest num den).2 ∧ min (num / den) limit ≤ (nearest num den).1 / (nearest num den).2 := by
  unfold nearest
  simp only
  by_cases hq : (lastConvergent num den 0 1 1 0).2 = 0
  · rw [if_pos hq]
    refine ⟨Nat.one_pos, ?_⟩
    show min (num / den) limit ≤ limit / 1
    rw [Nat.div_one]
    exact Nat.min_le_right _ _
  · rw [if_neg hq]
    refine ⟨Nat.pos_of_ne_zero hq, ?_⟩
    rw [Nat.le_div_iff_mul_le (Nat.pos_of_ne_zero hq)]
    rw [lastConvergent, dif_neg (Nat.ne_of_gt hden)] at hq ⊢
    simp only [Nat.mul_one, Nat.mul_zero, Nat.add_zero, Nat.zero_add] at hq ⊢
    by_cases hx : num / den ≤ limit ∧ 1 ≤ limit
    · rw [if_pos hx]
      rw [Nat.min_eq_left hx.1]
      refine lastConvergent_ge ?_ ?_
      · rw [Nat.mul_zero]
        exact Nat.zero_le 1
      · exact Nat.le_of_eq (Nat.mul_one _)
    · rw [if_neg hx] at hq
      exact absurd rfl hq

/-- The lowest terms of a quotient are within the limit. -/
def TermsFit (num den : Nat) : Prop := num / num.gcd den ≤ limit ∧ den / num.gcd den ≤ limit

instance (num den : Nat) : Decidable (TermsFit num den) :=
  inferInstanceAs (Decidable (num / num.gcd den ≤ limit ∧ den / num.gcd den ≤ limit))

theorem termsFit_of_le {num den : Nat} (hnum : num ≤ limit) (hden : den ≤ limit) :
    TermsFit num den :=
  ⟨Nat.le_trans (Nat.div_le_self _ _) hnum, Nat.le_trans (Nat.div_le_self _ _) hden⟩

theorem reduce_nat (num : Nat) {den : Nat} (hden : 0 < den) :
    reduce num den =
      if TermsFit num den then ⟨(num / num.gcd den : Nat), den / num.gcd den⟩
      else ⟨((nearest (num / num.gcd den) (den / num.gcd den)).1 : Nat),
        (nearest (num / num.gcd den) (den / num.gcd den)).2⟩ := by
  unfold reduce
  rw [if_neg (by omega)]
  have hnum : decide ((num : Int) < 0) = false := decide_eq_false (by omega)
  have hd : decide ((den : Int) < 0) = false := decide_eq_false (by omega)
  simp only [hnum, hd, if_true, Int.natAbs_natCast, Int.one_mul]
  rfl

/-- A value beyond the limit is replaced by the limit. -/
theorem nearest_beyond {num den : Nat} (hden : 0 < den) (h : limit < num / den) :
    nearest num den = (limit, 1) := by
  -- the first convergent is already too large
  have hlast : lastConvergent num den 0 1 1 0 = (1, 0) := by
    rw [lastConvergent, dif_neg (Nat.ne_of_gt hden)]
    simp only [Nat.mul_one, Nat.mul_zero, Nat.add_zero, Nat.zero_add]
    rw [if_neg fun hle => Nat.not_le.mpr h hle.1]
  unfold nearest
  rw [hlast]
  rfl

theorem nearest_one {num : Nat} (h : limit < num) : nearest num 1 = (limit, 1) :=
  nearest_beyond Nat.one_pos (by rwa [Nat.div_one])

/-- The product of two natural numbers, at most the limit. -/
theorem ofNat_mul_ofNat (a b : Nat) : ofNat a * ofNat b = ofNat (min (a * b) limit) := by
  show reduce ((a : Int) * b) (((1 : Nat) : Int) * ((1 : Nat) : Int)) = _
  have hfit : TermsFit (a * b) 1 ↔ a * b ≤ limit := by
    rw [TermsFit, Nat.gcd_one_right, Nat.div_one, Nat.div_one]
    exact ⟨fun h => h.1, fun h => ⟨h, by decide⟩⟩
  rw [← Int.natCast_mul, ← Int.natCast_mul, reduce_nat _ Nat.one_pos]
  rw [Nat.gcd_one_right, Nat.div_one, Nat.div_one]
  by_cases hle : a * b ≤ limit
  · rw [if_pos (hfit.mpr hle), Nat.min_eq_left hle]
    rfl
  · rw [if_neg (hle ∘ hfit.mp), Nat.min_eq_right (by omega), nearest_one (Nat.not_le.mp hle)]
    rfl

/-- The whole part of a quotient once it is brought within the limit. -/
def wholePart (num den : Nat) : Nat :=
  if TermsFit num den then num / den
  else (nearest (num / num.gcd den) (den / num.gcd den)).1 /
    (nearest (num / num.gcd den) (den / num.gcd den)).2

theorem wholePart_of_fits {num den : Nat} (h : TermsFit num den) : wholePart num den = num / den :=
  if_pos h

theorem div_gcd_div (num den : Nat) :
    num / num.gcd den / (den / num.gcd den) = num / den := by
  rw [Nat.div_div_eq_div_mul, Nat.mul_div_cancel' (Nat.gcd_dvd_right num den)]

theorem div_gcd_pos (num : Nat) {den : Nat} (hden : 0 < den) : 0 < den / num.gcd den :=
  Nat.div_pos (Nat.gcd_le_right _ hden) (Nat.gcd_pos_of_pos_right _ hden)

/-- The whole part is never below the smaller of the exact one and the limit. -/
theorem le_wholePart (num : Nat) {den : Nat} (hden : 0 < den) :
    min (num / den) limit ≤ wholePart num den := by
  unfold wholePart
  split
  · exact Nat.min_le_left _ _
  · rw [← div_gcd_div]
    exact (nearest_spec _ (div_gcd_pos num hden)).2

/-- **The whole part of a product** is that of the quotient. -/
theorem floor_ofNat_mul (a : Nat) {f : Fraction} (hden : 0 < f.den) (hnum : 0 ≤ f.num) :
    (ofNat a * f).floor = ofNat (wholePart (a * f.num.natAbs) f.den) := by
  have hmul : ofNat a * f = reduce ((a * f.num.natAbs : Nat) : Int) ((f.den : Nat) : Int) := by
    show Fraction.mul (ofNat a) f = _
    unfold Fraction.mul
    have hdef : f.isDefined = true := by
      unfold isDefined
      rw [bne_iff_ne]
      omega
    rw [if_pos (by rw [hdef]; rfl)]
    show reduce ((a : Int) * f.num) (((1 : Nat) : Int) * f.den) = _
    rw [Int.natCast_mul, Int.natAbs_of_nonneg hnum, Int.natCast_one, Int.one_mul]
  have hfloor : ∀ {n d : Nat}, 0 < d → (Fraction.mk n d).floor = ofNat (n / d) := by
    intro n d hd
    unfold floor
    rw [if_pos (by unfold isDefined; rw [bne_iff_ne]; exact Nat.ne_of_gt hd)]
    rfl
  rw [hmul, reduce_nat _ hden, wholePart]
  generalize a * f.num.natAbs = x
  have hdpos := div_gcd_pos x hden
  by_cases hin : TermsFit x f.den
  · rw [if_pos hin, if_pos hin, hfloor hdpos, div_gcd_div]
  · rw [if_neg hin, if_neg hin, hfloor (nearest_spec _ hdpos).1]

end Fraction

/-! ## 3. Integer elements -/

namespace Elem

variable {e : Elem}

theorem bits_le (e : Elem) : e.bits ≤ 32 := by
  cases e <;> decide

theorem two_pow_bits_le (e : Elem) : 2 ^ e.bits ≤ 2 ^ (32 : Nat) :=
  Nat.pow_le_pow_right (by decide) e.bits_le

/-- A product of a narrow integer and a word is within the limit of fractions. -/
theorem mul_le_limit (he : e.isInt = true) (hne : e ≠ .u32) {n m : Nat} (hn : n < 2 ^ e.bits)
    (hm : m ≤ 2 ^ (32 : Nat)) : n * m ≤ Fraction.limit := by
  have hbits : 2 ^ e.bits ≤ 2 ^ 16 := by
    cases e with
    | u8 | u16 => decide
    | u32 => exact absurd rfl hne
    | f32 => cases he
  calc n * m ≤ 2 ^ 16 * 2 ^ 32 := Nat.mul_le_mul (Nat.le_trans (Nat.le_of_lt hn) hbits) hm
    _ ≤ Fraction.limit := by decide

theorem top?_of_isInt (he : e.isInt = true) : e.top? = some (2 ^ e.bits - 1) := by
  rw [top?, if_pos he]

theorem max?_of_isInt (he : e.isInt = true) : e.max? = some (Fraction.ofNat (2 ^ e.bits - 1)) := by
  rw [max?, top?_of_isInt he]
  rfl

/-- The constants that an integer element holds are the natural numbers in its range. -/
theorem word?_eq_some_iff (he : e.isInt = true) {q : Fraction} {w : UInt32} :
    e.word? q = some w ↔ q = Fraction.ofNat w.toNat ∧ w.toNat < 2 ^ e.bits := by
  have hpos : 0 < 2 ^ e.bits := Nat.two_pow_pos _
  have hle := e.two_pow_bits_le
  simp only [word?, max?_of_isInt he]
  constructor
  · intro h
    split at h
    · rename_i hc
      simp only [Bool.and_eq_true, Bool.not_eq_true'] at hc
      obtain ⟨⟨hint, hneg⟩, hmax⟩ := hc
      have hden : q.den = 1 := beq_iff_eq.mp hint
      have hnum : 0 ≤ q.num := by
        simp only [Fraction.isNegative, hden] at hneg
        exact Int.not_lt.mp (of_decide_eq_false hneg)
      obtain ⟨-, -, htop⟩ := Fraction.le_eq_true_iff.mp hmax
      rw [hden] at htop
      have htop : q.num * (1 : Nat) ≤ ((2 ^ e.bits - 1 : Nat) : Int) * (1 : Nat) := htop
      cases h
      have htoNat : q.num.toNat.toUInt32.toNat = q.num.toNat := by
        rw [Nat.toUInt32, UInt32.toNat_ofNat']
        exact Nat.mod_eq_of_lt (by omega)
      rw [htoNat]
      refine ⟨?_, by omega⟩
      obtain ⟨num, den⟩ := q
      simp only at hden hnum
      subst hden
      rw [Fraction.ofNat, Int.toNat_of_nonneg hnum]
      rfl
    · cases h
  · rintro ⟨rfl, hlt⟩
    have hmax : (Fraction.ofNat w.toNat).le (Fraction.ofNat (2 ^ e.bits - 1)) = true := by
      refine Fraction.le_eq_true_iff.mpr ⟨rfl, rfl, ?_⟩
      show (w.toNat : Int) * (1 : Nat) ≤ ((2 ^ e.bits - 1 : Nat) : Int) * (1 : Nat)
      omega
    have hneg : (Fraction.ofNat w.toNat).isNegative = false :=
      Fraction.isNegative_of_num (Int.natCast_nonneg _)
    rw [hmax, hneg, show (Fraction.ofNat w.toNat).isInteger = true from rfl]
    show some (w.toNat : Int).toNat.toUInt32 = some w
    rw [Int.toNat_natCast, Nat.toUInt32, UInt32.ofNat_toNat]

/-- The whole bound that a clamp applies: rounded toward the values that it lets through. -/
def wholeBound (upper : Bool) (b : Fraction) : Int :=
  if upper then b.num / b.den else -(-b.num / b.den)

/-- The bound of a clamp on integers: a natural number in the range of the element. -/
theorem effectiveBound?_of_isInt (he : e.isInt = true) (upper : Bool) (bound : Option Fraction) :
    e.effectiveBound? upper bound = (bound.filter Fraction.isDefined).map fun b =>
      Fraction.ofNat (min (wholeBound upper b).toNat (2 ^ e.bits - 1)) := by
  unfold effectiveBound?
  cases bound with
  | none => rfl
  | some b =>
    by_cases hdef : b.isDefined = true
    · simp only [hdef, if_true, max?_of_isInt he, Option.filter_some, Option.map_some]
      rw [← Fraction.saturate_ofInt]
      have hneg : (-b).isDefined = true := hdef
      cases upper with
      | true =>
        simp only [if_true, Fraction.floor, hdef, wholeBound]
      | false =>
        simp only [Bool.false_eq_true, if_false, Fraction.ceil, Fraction.floor, hneg, if_true,
          wholeBound]
        rfl
    · simp only [hdef, Bool.false_eq_true, if_false, Option.filter_some, Option.map_none]

end Elem

end PixelConv
