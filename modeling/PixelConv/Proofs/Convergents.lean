import PixelConv.Proofs.ExactArithmetic

/-!
# Bringing fractions within the limit keeps their order

A fraction whose lowest terms are too large is replaced by the last convergent of its continued
fraction that fits. The replacement depends on the value alone (`Fraction.reduce_nat_eq_nearest`),
and it is monotone (`Fraction.reduce_le_reduce`): of two walks through the continued fractions of
`a ≤ b`, the one for `a` never ends above the other. So sums, products and roundings keep the order
of their arguments, also beyond the limit.
-/

namespace PixelConv

namespace Fraction

/-! ## 1. Two walks side by side -/

/-- The place of the last convergent between `p₀ / q₀` and `p₁ / q₁`: its terms are the sums of
theirs with these weights. -/
def weights (num den p₀ q₀ p₁ q₁ : Nat) : Nat × Nat :=
  if _h : den = 0 then (0, 1)
  else
    let x := num / den
    let p₂ := x * p₁ + p₀
    let q₂ := x * q₁ + q₀
    if p₂ ≤ limit ∧ q₂ ≤ limit then
      let w := weights den (num % den) p₁ q₁ p₂ q₂
      (w.2, w.1 + x * w.2)
    else (0, 1)
termination_by den
decreasing_by exact Nat.mod_lt num (Nat.pos_of_ne_zero _h)

@[simp] theorem weights_zero (num p₀ q₀ p₁ q₁ : Nat) : weights num 0 p₀ q₀ p₁ q₁ = (0, 1) := by
  rw [weights, dif_pos rfl]

theorem weights_step {num den p₀ q₀ p₁ q₁ : Nat} (hden : den ≠ 0)
    (hfit : num / den * p₁ + p₀ ≤ limit ∧ num / den * q₁ + q₀ ≤ limit) :
    weights num den p₀ q₀ p₁ q₁ =
      ((weights den (num % den) p₁ q₁ (num / den * p₁ + p₀) (num / den * q₁ + q₀)).2,
        (weights den (num % den) p₁ q₁ (num / den * p₁ + p₀) (num / den * q₁ + q₀)).1 +
          num / den *
            (weights den (num % den) p₁ q₁ (num / den * p₁ + p₀) (num / den * q₁ + q₀)).2) := by
  rw [weights, dif_neg hden]
  exact if_pos hfit

theorem weights_stop {num den p₀ q₀ p₁ q₁ : Nat} (hden : den ≠ 0)
    (hfit : ¬(num / den * p₁ + p₀ ≤ limit ∧ num / den * q₁ + q₀ ≤ limit)) :
    weights num den p₀ q₀ p₁ q₁ = (0, 1) := by
  rw [weights, dif_neg hden]
  exact if_neg hfit

theorem lastConvergent_eq_weights (num den p₀ q₀ p₁ q₁ : Nat) :
    lastConvergent num den p₀ q₀ p₁ q₁ =
      ((weights num den p₀ q₀ p₁ q₁).1 * p₀ + (weights num den p₀ q₀ p₁ q₁).2 * p₁,
        (weights num den p₀ q₀ p₁ q₁).1 * q₀ + (weights num den p₀ q₀ p₁ q₁).2 * q₁) := by
  fun_induction lastConvergent num den p₀ q₀ p₁ q₁ with
  | case1 num p₀ q₀ p₁ q₁ =>
    simp only [weights_zero, Nat.zero_mul, Nat.one_mul, Nat.zero_add]
  | case2 num den p₀ q₀ p₁ q₁ hden x p₂ q₂ hlimit ih =>
    rw [ih, weights_step hden hlimit]
    grind
  | case3 num den p₀ q₀ p₁ q₁ hden x p₂ q₂ hlimit =>
    rw [weights_stop hden hlimit]
    simp only [Nat.zero_mul, Nat.one_mul, Nat.zero_add]

/-- A value above one stands on the side of the second convergent. -/
theorem weights_le {num den : Nat} (h : den ≤ num) (p₀ q₀ p₁ q₁ : Nat) :
    (weights num den p₀ q₀ p₁ q₁).1 ≤ (weights num den p₀ q₀ p₁ q₁).2 := by
  by_cases hden : den = 0
  · subst hden
    rw [weights_zero]
    exact Nat.zero_le 1
  by_cases hfit : num / den * p₁ + p₀ ≤ limit ∧ num / den * q₁ + q₀ ≤ limit
  · rw [weights_step hden hfit]
    have hx : 1 ≤ num / den := Nat.div_pos h (Nat.pos_of_ne_zero hden)
    exact Nat.le_trans (Nat.le_mul_of_pos_left _ hx) (Nat.le_add_left _ _)
  · rw [weights_stop hden hfit]
    exact Nat.zero_le 1

/-- The whole parts of two quotients are ordered like the quotients. -/
theorem div_le_div_of_cross {num den num' den' : Nat} (hden : 0 < den) (hden' : 0 < den')
    (h : num * den' ≤ num' * den) : num / den ≤ num' / den' := by
  rw [Nat.le_div_iff_mul_le hden']
  refine Nat.le_of_mul_le_mul_right ?_ hden
  calc num / den * den' * den = num / den * den * den' := Nat.mul_right_comm _ _ _
    _ ≤ num * den' := Nat.mul_le_mul_right _ (Nat.div_mul_le_self num den)
    _ ≤ num' * den := h

/-- Behind equal whole parts the remainders are ordered like the quotients, so their reciprocals,
with which the walk goes on, are ordered the other way. -/
theorem mod_cross_of_div_eq {num den num' den' : Nat} (h : num * den' ≤ num' * den)
    (hx : num / den = num' / den') : den' * (num % den) ≤ den * (num' % den') := by
  have hnum : num = den * (num / den) + num % den := (Nat.div_add_mod num den).symm
  have hnum' : num' = den' * (num' / den') + num' % den' := (Nat.div_add_mod num' den').symm
  rw [hx] at hnum
  generalize num' / den' = x at hnum hnum'
  generalize num % den = r at hnum ⊢
  generalize num' % den' = r' at hnum' ⊢
  subst hnum hnum'
  grind

/-- **Two walks from the same convergents** end in the order of the values they belong to. -/
theorem weights_cross {num den num' den' : Nat} (p₀ q₀ p₁ q₁ : Nat) (hpos : 0 < num ∨ 0 < den)
    (h : num * den' ≤ num' * den) :
    (weights num den p₀ q₀ p₁ q₁).2 * (weights num' den' p₀ q₀ p₁ q₁).1 ≤
      (weights num' den' p₀ q₀ p₁ q₁).2 * (weights num den p₀ q₀ p₁ q₁).1 := by
  -- the two values change sides at every step, so the induction is on both denominators together
  induction hsum : den + den' using Nat.strongRecOn generalizing num den num' den' p₀ q₀ p₁ q₁ with
  | ind total ih =>
    by_cases hden' : den' = 0
    · subst hden'
      rw [weights_zero]
      exact Nat.zero_le _
    have hpos' : 0 < den' := Nat.pos_of_ne_zero hden'
    have hden : 0 < den := by
      refine Nat.pos_of_ne_zero fun hzero => ?_
      subst hzero
      have hnum : 0 < num := by omega
      have := Nat.mul_pos hnum hpos'
      omega
    have hx := div_le_div_of_cross hden hpos' h
    by_cases hfit' : num' / den' * p₁ + p₀ ≤ limit ∧ num' / den' * q₁ + q₀ ≤ limit
    · have hfit : num / den * p₁ + p₀ ≤ limit ∧ num / den * q₁ + q₀ ≤ limit := by
        have hp := Nat.mul_le_mul_right p₁ hx
        have hq := Nat.mul_le_mul_right q₁ hx
        omega
      rw [weights_step (Nat.ne_of_gt hden) hfit, weights_step hden' hfit']
      rcases Nat.eq_or_lt_of_le hx with heq | hlt
      · have hrest := ih (num' % den' + num % den)
          (by
            have := Nat.mod_lt num hden
            have := Nat.mod_lt num' hpos'
            omega)
          p₁ q₁ (num' / den' * p₁ + p₀) (num' / den' * q₁ + q₀) (.inl hpos')
          (mod_cross_of_div_eq h heq) rfl
        rw [heq]
        grind
      · have hside := weights_le (Nat.le_of_lt (Nat.mod_lt num hden)) p₁ q₁
          (num / den * p₁ + p₀) (num / den * q₁ + q₀)
        generalize weights den (num % den) _ _ _ _ = v at hside ⊢
        generalize weights den' (num' % den') _ _ _ _ = v'
        calc (v.1 + num / den * v.2) * v'.2
            ≤ (num' / den' * v.2) * v'.2 := by
              refine Nat.mul_le_mul_right _ ?_
              calc v.1 + num / den * v.2 ≤ (num / den + 1) * v.2 := by grind
                _ ≤ num' / den' * v.2 := Nat.mul_le_mul_right _ hlt
          _ ≤ (v'.1 + num' / den' * v'.2) * v.2 := by grind
    · rw [weights_stop hden' hfit']
      exact Nat.zero_le _

/-! ## 2. The replacement depends on the value alone -/

theorem lastConvergent_scale {k : Nat} (hk : 0 < k) (num den p₀ q₀ p₁ q₁ : Nat) :
    lastConvergent (k * num) (k * den) p₀ q₀ p₁ q₁ = lastConvergent num den p₀ q₀ p₁ q₁ := by
  fun_induction lastConvergent num den p₀ q₀ p₁ q₁ with
  | case1 num p₀ q₀ p₁ q₁ => rw [lastConvergent, dif_pos (Nat.mul_zero k)]
  | case2 num den p₀ q₀ p₁ q₁ hden x p₂ q₂ hlimit ih =>
    rw [lastConvergent, dif_neg (Nat.mul_ne_zero (Nat.ne_of_gt hk) hden)]
    simp only [Nat.mul_div_mul_left _ _ hk, Nat.mul_mod_mul_left]
    rw [if_pos hlimit]
    exact ih
  | case3 num den p₀ q₀ p₁ q₁ hden x p₂ q₂ hlimit =>
    rw [lastConvergent, dif_neg (Nat.mul_ne_zero (Nat.ne_of_gt hk) hden)]
    simp only [Nat.mul_div_mul_left _ _ hk]
    rw [if_neg hlimit]

/-- The value that the convergents `a` and `b` are walked for stays the same in a step. -/
theorem step_keeps (num den a b : Nat) :
    (num / den * b + a) * den + b * (num % den) = b * num + a * den := by
  have hnum := Nat.div_add_mod num den
  generalize num / den = x at hnum ⊢
  generalize num % den = r at hnum ⊢
  subst hnum
  grind

/-- A walk through a fraction in lowest terms ends at the fraction itself if its terms fit. -/
theorem lastConvergent_of_fits {num den p₀ q₀ p₁ q₁ : Nat} (hgcd : num.gcd den = 1)
    (hp : p₁ * num + p₀ * den ≤ limit) (hq : q₁ * num + q₀ * den ≤ limit) :
    lastConvergent num den p₀ q₀ p₁ q₁ = (p₁ * num + p₀ * den, q₁ * num + q₀ * den) := by
  have hstep : ∀ {num den a b : Nat}, den ≠ 0 → num / den * b + a ≤ b * num + a * den := by
    intro num den a b hden
    have hleft := Nat.mul_le_mul_right b (Nat.div_le_self num den)
    have hright := Nat.le_mul_of_pos_right a (Nat.pos_of_ne_zero hden)
    rw [Nat.mul_comm b num]
    omega
  fun_induction lastConvergent num den p₀ q₀ p₁ q₁ with
  | case1 num p₀ q₀ p₁ q₁ =>
    rw [Nat.gcd_zero_right] at hgcd
    subst hgcd
    simp only [Nat.mul_one, Nat.mul_zero, Nat.add_zero]
  | case2 num den p₀ q₀ p₁ q₁ hden x p₂ q₂ hlimit ih =>
    have hkeepP : p₂ * den + p₁ * (num % den) = p₁ * num + p₀ * den := step_keeps num den p₀ p₁
    have hkeepQ : q₂ * den + q₁ * (num % den) = q₁ * num + q₀ * den := step_keeps num den q₀ q₁
    rw [ih (by rw [Nat.gcd_comm, ← Nat.gcd_rec, Nat.gcd_comm]; exact hgcd)
      (by rw [hkeepP]; exact hp) (by rw [hkeepQ]; exact hq), hkeepP, hkeepQ]
  | case3 num den p₀ q₀ p₁ q₁ hden x p₂ q₂ hlimit =>
    exact absurd ⟨Nat.le_trans (hstep hden) hp, Nat.le_trans (hstep hden) hq⟩ hlimit

theorem nearest_div_gcd (num : Nat) {den : Nat} (hden : 0 < den) :
    nearest (num / num.gcd den) (den / num.gcd den) = nearest num den := by
  have hg : 0 < num.gcd den := Nat.gcd_pos_of_pos_right _ hden
  have hscale := lastConvergent_scale hg (num / num.gcd den) (den / num.gcd den) 0 1 1 0
  rw [Nat.mul_div_cancel' (Nat.gcd_dvd_left _ _), Nat.mul_div_cancel' (Nat.gcd_dvd_right _ _)]
    at hscale
  rw [nearest, nearest, hscale]

/-- Lowest terms that fit are their own replacement. -/
theorem nearest_of_fits {num den : Nat} (hden : 0 < den) (hgcd : num.gcd den = 1)
    (hnum : num ≤ limit) (hdenLimit : den ≤ limit) : nearest num den = (num, den) := by
  have hlast : lastConvergent num den 0 1 1 0 = (num, den) := by
    rw [lastConvergent_of_fits hgcd (by omega) (by omega)]
    simp only [Nat.one_mul, Nat.zero_mul, Nat.add_zero, Nat.zero_add]
  rw [nearest, hlast]
  exact if_neg (Nat.ne_of_gt hden)

/-- Terms that fit once they are lowest are replaced by those. -/
theorem nearest_of_div_fits {num den : Nat} (hden : 0 < den) (hnum : num / num.gcd den ≤ limit)
    (hdenLimit : den / num.gcd den ≤ limit) :
    nearest num den = (num / num.gcd den, den / num.gcd den) := by
  rw [← nearest_div_gcd num hden, nearest_of_fits (div_gcd_pos num hden)
    (Nat.gcd_div_gcd_div_gcd_of_pos_right hden) hnum hdenLimit]

theorem reduce_nat_eq_nearest (num : Nat) {den : Nat} (hden : 0 < den) :
    reduce num den = ⟨((nearest num den).1 : Nat), (nearest num den).2⟩ := by
  rw [reduce_nat num hden]
  split
  · rename_i hfit
    rw [nearest_of_div_fits hden hfit.1 hfit.2]
  · rw [nearest_div_gcd num hden]

/-! ## 3. The replacement is monotone -/

theorem nearest_cross {num den num' den' : Nat} (hden : 0 < den)
    (h : num * den' ≤ num' * den) :
    (nearest num den).1 * (nearest num' den').2 ≤ (nearest num' den').1 * (nearest num den).2 := by
  have hcross := weights_cross 0 1 1 0 (.inr hden) h
  have hlowest : (lastConvergent num den 0 1 1 0).1.gcd (lastConvergent num den 0 1 1 0).2 = 1 ∧
      (lastConvergent num den 0 1 1 0).1 ≤ limit ∧ (lastConvergent num den 0 1 1 0).2 ≤ limit :=
    lastConvergent_lowest (by decide) (by decide) rfl
  unfold nearest
  rw [lastConvergent_eq_weights] at hlowest
  rw [lastConvergent_eq_weights num den, lastConvergent_eq_weights num' den']
  simp only [Nat.mul_zero, Nat.mul_one, Nat.zero_add, Nat.add_zero] at hlowest ⊢
  generalize weights num den 0 1 1 0 = w at hcross hlowest ⊢
  generalize weights num' den' 0 1 1 0 = w' at hcross ⊢
  obtain ⟨hgcd, hw, -⟩ := hlowest
  by_cases hzero : w.1 = 0
  · -- the value is beyond the limit, and so is the larger one
    have hone : w.2 = 1 := by
      rw [hzero, Nat.gcd_zero_right] at hgcd
      exact hgcd
    have hzero' : w'.1 = 0 := by
      rw [hzero, hone, Nat.mul_zero, Nat.one_mul] at hcross
      omega
    exact Nat.le_of_eq (by rw [if_pos hzero, if_pos hzero'])
  · rw [if_neg hzero]
    by_cases hzero' : w'.1 = 0
    · rw [if_pos hzero']
      show w.2 * 1 ≤ limit * w.1
      rw [Nat.mul_one]
      exact Nat.le_trans hw (Nat.le_mul_of_pos_right _ (Nat.pos_of_ne_zero hzero))
    · rw [if_neg hzero']
      exact hcross

theorem reduce_neg {num den : Nat} (hnum : 0 < num) (hden : 0 < den) :
    reduce (-(num : Int)) den = -reduce num den := by
  have hneg : decide (-(num : Int) < 0) = true := decide_eq_true (by omega)
  have hpos : decide ((num : Int) < 0) = false := decide_eq_false (by omega)
  have hdpos : decide ((den : Int) < 0) = false := decide_eq_false (by omega)
  have hzero : (den : Int) ≠ 0 := by omega
  simp only [reduce, if_neg hzero, hneg, hpos, hdpos, Int.natAbs_neg, Bool.true_eq_false, if_false,
    if_true, Int.one_mul]
  split
  · show Fraction.mk _ _ = Fraction.mk (-_) _
    rw [Int.neg_mul, Int.one_mul]
  · show Fraction.mk _ _ = Fraction.mk (-_) _
    rw [Int.neg_mul, Int.one_mul]

theorem num_reduce_nonneg {num : Int} (hnum : 0 ≤ num) {den : Nat} (hden : 0 < den) :
    0 ≤ (reduce num den).num := by
  rw [show num = ((num.natAbs : Nat) : Int) by omega, reduce_nat_eq_nearest _ hden]
  exact Int.natCast_nonneg _

/-- **Quotients keep their order** when they are brought within the limit. -/
theorem reduce_cross {num num' : Int} {den den' : Nat} (hden : 0 < den) (hden' : 0 < den')
    (h : num * den' ≤ num' * den) :
    (reduce num den).num * (reduce num' den').den ≤ (reduce num' den').num * (reduce num den).den := by
  -- natural numbers first; two negative numbers change sides
  have hnat : ∀ {n n' d d' : Nat}, 0 < d → 0 < d' → n * d' ≤ n' * d →
      (reduce n d).num * (reduce n' d').den ≤ (reduce n' d').num * (reduce n d).den := by
    intro n n' d d' hd hd' hcross
    rw [reduce_nat_eq_nearest _ hd, reduce_nat_eq_nearest _ hd']
    show ((nearest n d).1 : Int) * (nearest n' d').2 ≤ (nearest n' d').1 * (nearest n d).2
    exact_mod_cast nearest_cross hd hcross
  by_cases hneg' : num' < 0
  · have hneg : num < 0 := by
      refine Int.not_le.mp fun hle => ?_
      have hleft := Int.mul_nonneg hle (Int.natCast_nonneg den')
      have hright := Int.mul_neg_of_neg_of_pos hneg' (show (0 : Int) < den by omega)
      omega
    have hnum : num = -((num.natAbs : Nat) : Int) := by omega
    have hnum' : num' = -((num'.natAbs : Nat) : Int) := by omega
    have hcross : num'.natAbs * den ≤ num.natAbs * den' := by
      rw [hnum, hnum', Int.neg_mul, Int.neg_mul] at h
      exact_mod_cast Int.neg_le_neg_iff.mp h
    rw [hnum, hnum', reduce_neg (by omega) hden, reduce_neg (by omega) hden']
    have hrefl := hnat hden' hden hcross
    show -(reduce _ _).num * _ ≤ -(reduce _ _).num * _
    rw [Int.neg_mul, Int.neg_mul]
    exact Int.neg_le_neg hrefl
  · have hnonneg' := num_reduce_nonneg (Int.not_lt.mp hneg') hden'
    by_cases hneg : num < 0
    · have hnum : num = -((num.natAbs : Nat) : Int) := by omega
      have hnonneg := num_reduce_nonneg (Int.natCast_nonneg num.natAbs) hden
      rw [hnum, reduce_neg (by omega) hden]
      show -(reduce _ _).num * _ ≤ _ * ((reduce _ _).den : Int)
      refine Int.le_trans ?_ (Int.mul_nonneg hnonneg' (Int.natCast_nonneg _))
      rw [Int.neg_mul]
      exact Int.neg_nonpos_of_nonneg (Int.mul_nonneg hnonneg (Int.natCast_nonneg _))
    · have hnum : num = ((num.natAbs : Nat) : Int) := by omega
      have hnum' : num' = ((num'.natAbs : Nat) : Int) := by omega
      rw [hnum, hnum'] at h ⊢
      exact hnat hden hden' (by exact_mod_cast h)

theorem reduce_le_reduce {num num' : Int} {den den' : Nat} (hden : 0 < den) (hden' : 0 < den')
    (h : num * den' ≤ num' * den) : (reduce num den).le (reduce num' den') = true :=
  le_eq_true_iff.mpr ⟨isDefined_reduce num (by omega), isDefined_reduce num' (by omega),
    reduce_cross hden hden' h⟩

/-! ## 4. Arithmetic keeps the order -/

variable {a b c d : Fraction}

theorem le_refl (h : a.isDefined = true) : a.le a = true :=
  le_eq_true_iff.mpr ⟨h, h, Int.le_refl _⟩

theorem le_trans (hab : a.le b = true) (hbc : b.le c = true) : a.le c = true := by
  obtain ⟨ha, hb, hab⟩ := le_eq_true_iff.mp hab
  obtain ⟨-, hc, hbc⟩ := le_eq_true_iff.mp hbc
  refine le_eq_true_iff.mpr ⟨ha, hc, ?_⟩
  have hpos : (0 : Int) < b.den := by exact_mod_cast isDefined_iff.mp hb
  refine Int.le_of_mul_le_mul_right ?_ hpos
  have hleft := Int.mul_le_mul_of_nonneg_right hab (Int.natCast_nonneg c.den)
  have hright := Int.mul_le_mul_of_nonneg_right hbc (Int.natCast_nonneg a.den)
  grind

theorem add_le_add (hab : a.le b = true) (hcd : c.le d = true) : (a + c).le (b + d) = true := by
  obtain ⟨ha, hb, hab⟩ := le_eq_true_iff.mp hab
  obtain ⟨hc, hd, hcd⟩ := le_eq_true_iff.mp hcd
  show (Fraction.add a c).le (Fraction.add b d) = true
  rw [Fraction.add, Fraction.add, if_pos (by rw [ha, hc]; rfl), if_pos (by rw [hb, hd]; rfl)]
  rw [isDefined_iff] at ha hb hc hd
  refine reduce_le_reduce (Nat.mul_pos ha hc) (Nat.mul_pos hb hd) ?_
  have hleft := Int.mul_le_mul_of_nonneg_right hab (Int.natCast_nonneg (c.den * d.den))
  have hright := Int.mul_le_mul_of_nonneg_right hcd (Int.natCast_nonneg (a.den * b.den))
  simp only [Int.natCast_mul] at hleft hright ⊢
  grind

theorem mul_le_mul_right (hab : a.le b = true) (hc : c.isDefined = true) (hnum : 0 ≤ c.num) :
    (a * c).le (b * c) = true := by
  obtain ⟨ha, hb, hab⟩ := le_eq_true_iff.mp hab
  show (Fraction.mul a c).le (Fraction.mul b c) = true
  rw [Fraction.mul, Fraction.mul, if_pos (by rw [ha, hc]; rfl), if_pos (by rw [hb, hc]; rfl)]
  rw [isDefined_iff] at ha hb hc
  refine reduce_le_reduce (Nat.mul_pos ha hc) (Nat.mul_pos hb hc) ?_
  have hscaled := Int.mul_le_mul_of_nonneg_right hab
    (Int.mul_nonneg hnum (Int.natCast_nonneg c.den))
  simp only [Int.natCast_mul]
  grind

/-- A negative factor turns the order around. -/
theorem mul_le_mul_of_neg (hab : a.le b = true) (hc : c.isDefined = true) (hnum : c.num ≤ 0) :
    (b * c).le (a * c) = true := by
  obtain ⟨ha, hb, hab⟩ := le_eq_true_iff.mp hab
  show (Fraction.mul b c).le (Fraction.mul a c) = true
  rw [Fraction.mul, Fraction.mul, if_pos (by rw [hb, hc]; rfl), if_pos (by rw [ha, hc]; rfl)]
  rw [isDefined_iff] at ha hb hc
  refine reduce_le_reduce (Nat.mul_pos hb hc) (Nat.mul_pos ha hc) ?_
  have hscaled := Int.mul_le_mul_of_nonneg_right hab
    (Int.mul_nonneg (Int.neg_nonneg_of_nonpos hnum) (Int.natCast_nonneg c.den))
  simp only [Int.natCast_mul]
  grind

/-! ## 5. Rounding and limiting keep the order -/

theorem ediv_cross {m n : Int} {k l : Nat} (hk : 0 < k) (hl : 0 < l) (h : m * l ≤ n * k) :
    m / k ≤ n / l := by
  have hkpos : (0 : Int) < k := by omega
  rw [Int.le_ediv_iff_mul_le (by omega)]
  refine Int.le_of_mul_le_mul_right ?_ hkpos
  have hdiv := Int.mul_le_mul_of_nonneg_right (Int.ediv_mul_le m (show (k : Int) ≠ 0 by omega))
    (Int.natCast_nonneg l)
  grind

theorem floor_le_floor (hab : a.le b = true) : a.floor.le b.floor = true := by
  obtain ⟨ha, hb, hab⟩ := le_eq_true_iff.mp hab
  rw [floor, floor, if_pos ha, if_pos hb]
  rw [isDefined_iff] at ha hb
  have hdiv := ediv_cross ha hb hab
  exact le_eq_true_iff.mpr ⟨rfl, rfl, Int.mul_le_mul_of_nonneg_right hdiv (Int.natCast_nonneg 1)⟩

theorem tdiv_cross {m n : Int} {k l : Nat} (hk : 0 < k) (hl : 0 < l) (h : m * l ≤ n * k) :
    m.tdiv k ≤ n.tdiv l := by
  -- toward zero means down above zero and up below it
  have hdown : ∀ {x : Int} {y : Nat}, 0 ≤ x → x.tdiv y = x / y := fun hx =>
    Int.tdiv_eq_ediv_of_nonneg hx
  have hup : ∀ {x : Int} {y : Nat}, x ≤ 0 → x.tdiv y = -(-x / y) := by
    intro x y hx
    rw [← hdown (show 0 ≤ -x by omega), Int.neg_tdiv, Int.neg_neg]
  rcases Int.le_total 0 m with hm | hm
  · have hn : 0 ≤ n := by
      refine Int.not_lt.mp fun hlt => ?_
      have hleft := Int.mul_nonneg hm (Int.natCast_nonneg l)
      have hright := Int.mul_neg_of_neg_of_pos hlt (show (0 : Int) < k by omega)
      omega
    rw [hdown hm, hdown hn]
    exact ediv_cross hk hl h
  · rw [hup hm]
    have hm' := Int.ediv_nonneg (show 0 ≤ -m by omega) (Int.natCast_nonneg k)
    rcases Int.le_total 0 n with hn | hn
    · rw [hdown hn]
      have hn' := Int.ediv_nonneg hn (Int.natCast_nonneg l)
      omega
    · rw [hup hn]
      refine Int.neg_le_neg (ediv_cross hl hk ?_)
      rw [Int.neg_mul, Int.neg_mul]
      exact Int.neg_le_neg h

theorem trunc_le_trunc (hab : a.le b = true) : a.trunc.le b.trunc = true := by
  obtain ⟨ha, hb, hab⟩ := le_eq_true_iff.mp hab
  rw [trunc, trunc, if_pos ha, if_pos hb]
  rw [isDefined_iff] at ha hb
  have hdiv := tdiv_cross ha hb hab
  exact le_eq_true_iff.mpr ⟨rfl, rfl, Int.mul_le_mul_of_nonneg_right hdiv (Int.natCast_nonneg 1)⟩

end Fraction

end PixelConv
