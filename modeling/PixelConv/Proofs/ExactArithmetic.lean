import PixelConv.Proofs.Fractions

/-!
# Zero, whole and defined fractions

Arithmetic with fractions keeps zero, whole numbers and defined values, also where it replaces a
result whose terms are too large. All of its results are in lowest terms (`Fraction.lowest_reduce`),
and adding zero to such a value changes nothing.
-/

namespace PixelConv

namespace Fraction

/-! ## 1. Lowest terms -/

theorem isDefined_iff {q : Fraction} : q.isDefined = true ↔ 0 < q.den := by
  rw [isDefined, bne_iff_ne]
  omega

theorem isInteger_iff {q : Fraction} : q.isInteger = true ↔ q = ofInt q.num := by
  obtain ⟨num, den⟩ := q
  simp only [isInteger, beq_iff_eq, ofInt, Fraction.mk.injEq, true_and]

/-- Only zero has no numerator, in lowest terms. -/
theorem reduce_zero {den : Int} (h : den ≠ 0) : reduce 0 den = zero := by
  have hpos : 0 < den.natAbs := Int.natAbs_pos.mpr h
  unfold reduce
  rw [if_neg h, show (0 : Int).natAbs = 0 from rfl, Nat.gcd_zero_left]
  simp only [Nat.zero_div, Nat.div_self hpos]
  rw [if_pos ⟨Nat.zero_le _, by decide⟩, Int.natCast_zero, Int.mul_zero]
  rfl

/-- A quotient by something other than zero is defined. -/
theorem isDefined_reduce (num : Int) {den : Int} (h : den ≠ 0) :
    (reduce num den).isDefined = true := by
  have hpos : 0 < den.natAbs := Int.natAbs_pos.mpr h
  have hquot : 0 < den.natAbs / num.natAbs.gcd den.natAbs :=
    Nat.div_pos (Nat.gcd_le_right _ hpos) (Nat.gcd_pos_of_pos_right _ hpos)
  unfold reduce
  rw [if_neg h, isDefined_iff]
  simp only
  split
  · exact hquot
  · exact (nearest_spec _ hquot).1

/-- A whole number stays one, even if it is too large. -/
theorem isInteger_reduce_one (num : Int) : (reduce num 1).isInteger = true := by
  unfold reduce
  rw [if_neg (by decide), show (1 : Int).natAbs = 1 from rfl, Nat.gcd_one_right]
  simp only [isInteger, beq_iff_eq, Nat.div_one]
  split
  · rfl
  · rename_i hlarge
    have hlast : lastConvergent num.natAbs 1 0 1 1 0 = (1, 0) := by
      rw [lastConvergent, dif_neg Nat.one_ne_zero]
      simp only [Nat.div_one, Nat.mul_one, Nat.mul_zero, Nat.add_zero, Nat.zero_add]
      exact if_neg hlarge
    simp only [nearest, hlast, if_true]

/-! ## 2. Arithmetic -/

variable {a b : Fraction}

theorem isDefined_mul (ha : a.isDefined = true) (hb : b.isDefined = true) :
    (a * b).isDefined = true := by
  show (Fraction.mul a b).isDefined = true
  rw [Fraction.mul, if_pos (by rw [ha, hb]; rfl)]
  refine isDefined_reduce _ ?_
  have := Nat.mul_pos (isDefined_iff.mp ha) (isDefined_iff.mp hb)
  omega

theorem isDefined_add (ha : a.isDefined = true) (hb : b.isDefined = true) :
    (a + b).isDefined = true := by
  show (Fraction.add a b).isDefined = true
  rw [Fraction.add, if_pos (by rw [ha, hb]; rfl)]
  refine isDefined_reduce _ ?_
  have := Nat.mul_pos (isDefined_iff.mp ha) (isDefined_iff.mp hb)
  omega

theorem mul_comm (a b : Fraction) : a * b = b * a := by
  show Fraction.mul a b = Fraction.mul b a
  rw [Fraction.mul, Fraction.mul, Bool.and_comm, Int.mul_comm a.num, Int.mul_comm (a.den : Int)]

theorem zero_mul (hb : b.isDefined = true) : zero * b = zero := by
  show Fraction.mul zero b = zero
  rw [Fraction.mul, if_pos (by rw [hb]; rfl)]
  show reduce (0 * b.num) _ = zero
  rw [Int.zero_mul]
  refine reduce_zero ?_
  have := isDefined_iff.mp hb
  show ((1 : Nat) : Int) * b.den ≠ 0
  omega

theorem mul_zero (ha : a.isDefined = true) : a * zero = zero := by
  show Fraction.mul a zero = zero
  rw [Fraction.mul, if_pos (by rw [ha]; rfl)]
  show reduce (a.num * 0) _ = zero
  rw [Int.mul_zero]
  refine reduce_zero ?_
  have := isDefined_iff.mp ha
  show a.den * ((1 : Nat) : Int) ≠ 0
  omega

theorem isInteger_mul (ha : a.isInteger = true) (hb : b.isInteger = true) :
    (a * b).isInteger = true := by
  rw [isInteger_iff.mp ha, isInteger_iff.mp hb]
  exact isInteger_reduce_one _

theorem isInteger_add (ha : a.isInteger = true) (hb : b.isInteger = true) :
    (a + b).isInteger = true := by
  rw [isInteger_iff.mp ha, isInteger_iff.mp hb]
  exact isInteger_reduce_one _

/-! ## 3. Whole values -/

/-- The value is a whole number, if it is defined. -/
def Whole (q : Fraction) : Prop := q.isDefined = true → q.isInteger = true

theorem whole_of_isInteger (h : a.isInteger = true) : a.Whole := fun _ => h

theorem whole_ofInt (n : Int) : (ofInt n).Whole := whole_of_isInteger rfl

theorem whole_undefined : undefined.Whole := fun h => by cases h

theorem Whole.mul (ha : a.Whole) (hb : b.Whole) : (a * b).Whole := by
  show (Fraction.mul a b).Whole
  by_cases h : (a.isDefined && b.isDefined) = true
  · obtain ⟨hda, hdb⟩ := Bool.and_eq_true_iff.mp h
    exact whole_of_isInteger (isInteger_mul (ha hda) (hb hdb))
  · rw [Fraction.mul, if_neg h]
    exact whole_undefined

theorem Whole.add (ha : a.Whole) (hb : b.Whole) : (a + b).Whole := by
  show (Fraction.add a b).Whole
  by_cases h : (a.isDefined && b.isDefined) = true
  · obtain ⟨hda, hdb⟩ := Bool.and_eq_true_iff.mp h
    exact whole_of_isInteger (isInteger_add (ha hda) (hb hdb))
  · rw [Fraction.add, if_neg h]
    exact whole_undefined

theorem whole_trunc (a : Fraction) : a.trunc.Whole := by
  unfold trunc
  split
  · exact whole_of_isInteger rfl
  · exact fun h => absurd h ‹_›

theorem whole_floor (a : Fraction) : a.floor.Whole := by
  unfold floor
  split
  · exact whole_of_isInteger rfl
  · exact fun h => absurd h ‹_›

theorem whole_ceil (q : Fraction) : q.ceil.Whole := whole_floor (-q)

theorem Whole.wrap (ha : a.Whole) (n : Nat) : (a.wrap n).Whole := by
  unfold Fraction.wrap
  split
  · exact whole_of_isInteger rfl
  · exact ha

theorem Whole.saturate (ha : a.Whole) (top : Nat) : (a.saturate (ofNat top)).Whole := by
  unfold Fraction.saturate
  split
  · exact whole_of_isInteger rfl
  · split
    · exact whole_of_isInteger rfl
    · exact ha

/-- A whole number is wrapped around into the range. -/
theorem wrap_of_isInteger (h : a.isInteger = true) {n : Nat} (hn : 0 < n) :
    ∃ m, m < n ∧ a.wrap n = ofNat m := by
  have hnonneg := Int.emod_nonneg a.num (show (n : Int) ≠ 0 by omega)
  have hlt := Int.emod_lt_of_pos a.num (show (0 : Int) < n by omega)
  refine ⟨(a.num % n).toNat, by omega, ?_⟩
  rw [wrap, if_pos h, ofNat, Int.toNat_of_nonneg hnonneg]

/-! ## 4. Fractions in lowest terms -/

/-- The value is undefined, or in lowest terms and within the limit. -/
def Lowest (q : Fraction) : Prop :=
  q = undefined ∨ 0 < q.den ∧ q.num.natAbs.gcd q.den = 1 ∧ q.num.natAbs ≤ limit ∧ q.den ≤ limit

instance (q : Fraction) : Decidable q.Lowest :=
  inferInstanceAs (Decidable (q = undefined ∨ 0 < q.den ∧ q.num.natAbs.gcd q.den = 1 ∧
    q.num.natAbs ≤ limit ∧ q.den ≤ limit))

/-- The determinant of two neighbouring convergents changes its sign in a step. -/
theorem det_step (x : Nat) {p₀ q₀ p₁ q₁ : Nat} (hdet : ((p₁ : Int) * q₀ - p₀ * q₁).natAbs = 1) :
    (((x * p₁ + p₀ : Nat) : Int) * q₁ - p₁ * ((x * q₁ + q₀ : Nat) : Int)).natAbs = 1 := by
  have hstep : ((x * p₁ + p₀ : Nat) : Int) * q₁ - p₁ * ((x * q₁ + q₀ : Nat) : Int) =
      -((p₁ : Int) * q₀ - p₀ * q₁) := by
    simp only [Int.natCast_add, Int.natCast_mul]
    grind
  rw [hstep, Int.natAbs_neg]
  exact hdet

/-- Neighbouring convergents have determinant one, so each of them is in lowest terms. -/
theorem lastConvergent_lowest {num den p₀ q₀ p₁ q₁ : Nat} (hp : p₁ ≤ limit) (hq : q₁ ≤ limit)
    (hdet : ((p₁ : Int) * q₀ - p₀ * q₁).natAbs = 1) :
    (lastConvergent num den p₀ q₀ p₁ q₁).1.gcd (lastConvergent num den p₀ q₀ p₁ q₁).2 = 1 ∧
      (lastConvergent num den p₀ q₀ p₁ q₁).1 ≤ limit ∧
      (lastConvergent num den p₀ q₀ p₁ q₁).2 ≤ limit := by
  have hcoprime : ∀ {p₀ q₀ p₁ q₁ : Nat}, ((p₁ : Int) * q₀ - p₀ * q₁).natAbs = 1 →
      p₁.gcd q₁ = 1 := by
    intro p₀ q₀ p₁ q₁ hdet
    have hleft : ((p₁.gcd q₁ : Nat) : Int) ∣ (p₁ : Int) * q₀ :=
      Int.dvd_mul_of_dvd_left (Int.natCast_dvd_natCast.mpr (Nat.gcd_dvd_left p₁ q₁))
    have hright : ((p₁.gcd q₁ : Nat) : Int) ∣ (p₀ : Int) * q₁ :=
      Int.dvd_mul_of_dvd_right (Int.natCast_dvd_natCast.mpr (Nat.gcd_dvd_right p₁ q₁))
    have hdvd := Int.natAbs_dvd_natAbs.mpr (Int.dvd_sub hleft hright)
    rw [hdet, Int.natAbs_natCast] at hdvd
    exact Nat.dvd_one.mp hdvd
  fun_induction lastConvergent num den p₀ q₀ p₁ q₁ with
  | case1 => exact ⟨hcoprime hdet, hp, hq⟩
  | case2 num den p₀ q₀ p₁ q₁ hden x p₂ q₂ hlimit ih =>
    exact ih hlimit.1 hlimit.2 (det_step x hdet)
  | case3 => exact ⟨hcoprime hdet, hp, hq⟩

theorem nearest_lowest (num den : Nat) :
    (nearest num den).1.gcd (nearest num den).2 = 1 ∧ (nearest num den).1 ≤ limit ∧
      (nearest num den).2 ≤ limit := by
  unfold nearest
  simp only
  split
  · exact ⟨Nat.gcd_one_right _, Nat.le_refl _, by decide⟩
  · exact lastConvergent_lowest (by decide) (by decide) rfl

/-- The sign of a quotient, `1` for zero over a positive number. -/
def quotientSign (num den : Int) : Int := if decide (num < 0) = decide (den < 0) then 1 else -1

theorem quotientSign_cases (num den : Int) : quotientSign num den = 1 ∨ quotientSign num den = -1 := by
  unfold quotientSign
  split
  · exact .inl rfl
  · exact .inr rfl

theorem natAbs_quotientSign_mul (num den : Int) (n : Nat) :
    (quotientSign num den * n).natAbs = n := by
  rcases quotientSign_cases num den with h | h
  · rw [h, Int.one_mul, Int.natAbs_natCast]
  · rw [h, Int.neg_mul, Int.one_mul, Int.natAbs_neg, Int.natAbs_natCast]

/-- **Every result of arithmetic** is in lowest terms. -/
theorem lowest_reduce (num den : Int) : (reduce num den).Lowest := by
  by_cases hden : den = 0
  · rw [reduce, if_pos hden]
    exact .inl rfl
  have hdefined := isDefined_iff.mp (isDefined_reduce num hden)
  refine .inr ⟨hdefined, ?_⟩
  have hpos : 0 < den.natAbs := Int.natAbs_pos.mpr hden
  have hsign : ∀ n : Nat,
      ((if decide (num < 0) = decide (den < 0) then (1 : Int) else -1) * n).natAbs = n :=
    natAbs_quotientSign_mul num den
  unfold reduce
  rw [if_neg hden]
  simp only
  split
  · rename_i hlimit
    rw [hsign]
    exact ⟨Nat.gcd_div_gcd_div_gcd_of_pos_right hpos, hlimit⟩
  · simp only [hsign]
    exact nearest_lowest _ _

theorem lowest_add (a b : Fraction) : (a + b).Lowest := by
  show (Fraction.add a b).Lowest
  unfold Fraction.add
  split
  · exact lowest_reduce _ _
  · exact .inl rfl

theorem lowest_mul (a b : Fraction) : (a * b).Lowest := by
  show (Fraction.mul a b).Lowest
  unfold Fraction.mul
  split
  · exact lowest_reduce _ _
  · exact .inl rfl

theorem Lowest.reduce_eq {q : Fraction} (h : q.Lowest) (hq : q.isDefined = true) :
    reduce q.num q.den = q := by
  rcases h with rfl | ⟨hpos, hgcd, hnum, hden⟩
  · cases hq
  unfold reduce
  rw [if_neg (by omega), Int.natAbs_natCast, hgcd, decide_eq_false (show ¬(q.den : Int) < 0 by omega)]
  simp only [Nat.div_one]
  rw [if_pos ⟨hnum, hden⟩]
  obtain ⟨num, den⟩ := q
  simp only [Fraction.mk.injEq, and_true]
  split
  · rename_i hneg
    have hneg : ¬num < 0 := of_decide_eq_false hneg
    omega
  · rename_i hneg
    have hneg : num < 0 := of_decide_eq_true (Bool.not_eq_false _ ▸ hneg)
    omega

/-- Adding zero changes nothing in lowest terms. -/
theorem Lowest.add_zero {q : Fraction} (h : q.Lowest) : q + zero = q := by
  cases hq : q.isDefined with
  | false =>
    rcases h with rfl | ⟨hpos, -⟩
    · rfl
    · rw [isDefined_iff.mpr hpos] at hq
      cases hq
  | true =>
    show Fraction.add q zero = q
    rw [Fraction.add, if_pos (by rw [hq]; rfl)]
    show reduce (q.num * (1 : Int) + 0 * q.den) (q.den * (1 : Int)) = q
    rw [Int.mul_one, Int.mul_one, Int.zero_mul, Int.add_zero]
    exact h.reduce_eq hq

theorem Lowest.eq_zero {q : Fraction} (h : q.Lowest) (hq : q.isZero = true) : q = zero := by
  obtain ⟨num, den⟩ := q
  simp only [isZero, Bool.and_eq_true, bne_iff_ne, beq_iff_eq] at hq
  obtain ⟨hden, rfl⟩ := hq
  rcases h with h | ⟨-, hgcd, -⟩
  · cases h
    exact absurd rfl hden
  · rw [Int.natAbs_zero, Nat.gcd_zero_left] at hgcd
    simp only at hgcd
    rw [hgcd]
    rfl

end Fraction

end PixelConv
