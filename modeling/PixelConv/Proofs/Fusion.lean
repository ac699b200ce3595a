import PixelConv.Proofs.Knowledge
import PixelConv.Proofs.Rewrites
import PixelConv.Proofs.TraceContents

/-!
# Fusing operations on numbers

What neighbouring operations on each component alone do to a number in the range of their element:
byte swaps cancel, shifts add up, conversions and scales combine, and a clamp does nothing to a
number that is within its bound. Each lemma is the arithmetic of one rule of the simplifier.
-/

namespace PixelConv

variable {n : Nat}

/-! ## 1. Byte order and shifts -/

namespace Elem

theorem reversed_of_size {e : Elem} (hs : e.size = 1) (hn : n < 2 ^ e.bits) : e.reversed n = n := by
  cases e with
  | u8 => exact Nat.mod_eq_of_lt hn
  | u16 | u32 | f32 => exact absurd hs (by decide)

theorem reversed_reversed {e : Elem} (hn : n < 2 ^ e.bits) : e.reversed (e.reversed n) = n := by
  have hlt := fun m => Nat.mod_lt m (by decide : 0 < 256)
  cases e with
  | u8 =>
    show n % 256 % 256 = n
    rw [Nat.mod_mod]
    exact Nat.mod_eq_of_lt hn
  | u16 =>
    have hn : n < 65536 := hn
    have hdigits : n / 256 % 256 * 256 + n % 256 = n := by omega
    obtain ⟨h0, h1, -⟩ := digits_four (hlt (n / 256)) (hlt n) (by decide : 0 < 256)
      (by decide : 0 < 256)
    simp only [Nat.zero_mul, Nat.zero_add] at h0 h1
    simp only [reversed]
    rw [h0, h1, hdigits]
  | u32 | f32 =>
    have hn : n < 4294967296 := hn
    have hdigits : ((n / 16777216 % 256 * 256 + n / 65536 % 256) * 256 + n / 256 % 256) * 256 +
        n % 256 = n := by omega
    obtain ⟨h0, h1, h2, h3⟩ := digits_four (hlt (n / 16777216)) (hlt (n / 65536)) (hlt (n / 256))
      (hlt n)
    simp only [reversed]
    rw [h0, h1, h2, h3, hdigits]

end Elem

theorem shiftLeft_shiftLeft (n a c m : Nat) : n * 2 ^ a % m * 2 ^ c % m = n * 2 ^ (a + c) % m := by
  rw [Nat.mod_mul_mod, Nat.mul_assoc, ← Nat.pow_add]

theorem shiftRight_shiftRight (n a c : Nat) : n / 2 ^ a / 2 ^ c = n / 2 ^ (a + c) := by
  rw [Nat.div_div_eq_div_mul, ← Nat.pow_add]

/-! ## 2. Conversions -/

namespace Elem

variable {source mid target : Elem}

theorem spread_self (e : Elem) (expand : Bool) : e.spread e expand = 1 := by
  cases e <;> cases expand <;> decide

/-- Two conversions that can be fused multiply by the factor of the fused one. -/
theorem spread_mul_spread {expand : Bool} (hs : source.isInt = true) (hm : mid.isInt = true)
    (ht : target.isInt = true) (hf : fusable expand source mid target = true) :
    source.size ≤ mid.size ∧
      source.spread mid expand * mid.spread target expand = source.spread target expand := by
  revert hs hm ht hf
  cases expand <;> cases source <;> cases mid <;> cases target <;> decide

theorem convert_convert {expand : Bool} (hs : source.isInt = true) (hm : mid.isInt = true)
    (ht : target.isInt = true) (hf : fusable expand source mid target = true)
    (hn : n < 2 ^ source.bits) :
    min (min (n * source.spread mid expand) (2 ^ mid.bits - 1) * mid.spread target expand)
        (2 ^ target.bits - 1) =
      min (n * source.spread target expand) (2 ^ target.bits - 1) := by
  obtain ⟨hle, hspread⟩ := spread_mul_spread hs hm ht hf
  have hlt := mul_spread_lt_target hs hm hle expand hn
  rw [Nat.min_eq_left (Nat.le_sub_one_of_lt hlt), Nat.mul_assoc, hspread]

/-- Only widening has an expansion factor other than one. -/
theorem size_lt_of_expansion_ne_one (hs : source.isInt = true) (ht : target.isInt = true)
    (hf : source.expansion target ≠ Fraction.one) : source.size < target.size := by
  by_cases hlt : source.size < target.size
  · exact hlt
  · refine absurd ?_ hf
    simp only [expansion, hs, ht, if_neg hlt]

theorem convert_scale (hs : source.isInt = true) (ht : target.isInt = true)
    (hle : source.size ≤ target.size) (hn : n < 2 ^ source.bits) :
    min (n * source.spread target false) (2 ^ target.bits - 1) * source.spread target true %
        2 ^ target.bits =
      min (n * source.spread target true) (2 ^ target.bits - 1) := by
  have hplain := mul_spread_lt_target hs ht hle false hn
  have hlt := mul_spread_lt_target hs ht hle true hn
  have hone : source.spread target false = 1 := rfl
  rw [hone, Nat.mul_one] at hplain
  rw [hone, Nat.mul_one, Nat.min_eq_left (Nat.le_sub_one_of_lt hplain), Nat.mod_eq_of_lt hlt,
    Nat.min_eq_left (Nat.le_sub_one_of_lt hlt)]

/-- A scale that stays in range may come after a conversion that widens. -/
theorem scale_convert {expand : Bool} (hs : source.isInt = true) (ht : target.isInt = true)
    (hle : source.size ≤ target.size) {a : Nat} (hn : n < 2 ^ source.bits)
    (ha : n * a < 2 ^ source.bits) :
    min (n * source.spread target expand) (2 ^ target.bits - 1) * a < 2 ^ target.bits ∧
      min (n * source.spread target expand) (2 ^ target.bits - 1) * a =
        min (n * a % 2 ^ source.bits * source.spread target expand) (2 ^ target.bits - 1) := by
  have hlt := mul_spread_lt_target hs ht hle expand hn
  have hlta := mul_spread_lt_target hs ht hle expand ha
  have hcomm : n * source.spread target expand * a = n * a * source.spread target expand :=
    Nat.mul_right_comm _ _ _
  rw [Nat.min_eq_left (Nat.le_sub_one_of_lt hlt), hcomm, Nat.mod_eq_of_lt ha,
    Nat.min_eq_left (Nat.le_sub_one_of_lt hlta)]
  exact ⟨hlta, rfl⟩

end Elem

/-! ## 3. Factors -/

namespace Fraction

theorem eq_ofNat_of_isInteger {f : Fraction} (hf : f.isInteger = true) (hnum : 0 ≤ f.num) :
    f = ofNat f.num.natAbs := by
  obtain ⟨num, den⟩ := f
  have hden : den = 1 := beq_iff_eq.mp hf
  subst hden
  show _ = ofInt (num.natAbs : Int)
  rw [Int.natAbs_of_nonneg hnum]
  rfl

/-- A product that is a word is exact. -/
theorem mul_eq_ofNat {a b : Nat} (h : (ofNat a * ofNat b).num < 2 ^ (32 : Nat)) :
    ofNat a * ofNat b = ofNat (a * b) ∧ a * b < 2 ^ (32 : Nat) := by
  rw [ofNat_mul_ofNat] at h ⊢
  have hnum : ((min (a * b) limit : Nat) : Int) < 2 ^ 32 := h
  have hlimit : 2 ^ 32 ≤ limit := by decide
  have hlt : a * b < 2 ^ 32 := by omega
  rw [Nat.min_eq_left (by omega)]
  exact ⟨rfl, hlt⟩

theorem log2?_eq_some {m : Int} {k : Nat} (h : log2? m = some k) : m = 2 ^ k ∧ 0 < k := by
  unfold log2? at h
  split at h
  · rename_i hm
    cases h
    have hcast : ((2 ^ m.toNat.log2 : Nat) : Int) = m := by
      rw [hm.2]
      exact Int.toNat_of_nonneg (by omega)
    refine ⟨?_, ?_⟩
    · rw [Int.natCast_pow] at hcast
      exact hcast.symm
    · refine Nat.pos_of_ne_zero fun hz => ?_
      rw [hz] at hm
      have : m.toNat = 1 := hm.2.symm
      omega
  · cases h

/-- A factor that is a power of two: a whole one for a positive exponent, and a reciprocal for a
negative one. -/
theorem powerOfTwo?_eq_some {f : Fraction} {k : Int} (h : f.powerOfTwo? = some k) :
    0 < k ∧ f.den = 1 ∧ f.num = 2 ^ k.natAbs ∨ ¬0 < k ∧ f.num = 1 ∧ f.den = 2 ^ k.natAbs := by
  unfold powerOfTwo? at h
  split at h
  · rename_i hden
    obtain ⟨m, hm, rfl⟩ := Option.map_eq_some_iff.mp h
    obtain ⟨hnum, hpos⟩ := log2?_eq_some hm
    exact .inl ⟨Int.ofNat_lt.mpr hpos, hden, hnum⟩
  · split at h
    · rename_i hnum
      cases hm : log2? (f.den : Int) with
      | none =>
        rw [hm] at h
        cases h
      | some m =>
        rw [hm] at h
        cases h
        obtain ⟨hden, hpos⟩ := log2?_eq_some hm
        have hneg : ¬0 < -(m : Int) := by omega
        refine .inr ⟨hneg, hnum, ?_⟩
        show f.den = 2 ^ (-(m : Int)).natAbs
        rw [Int.natAbs_neg, Int.natAbs_natCast]
        rw [show (2 : Int) = ((2 : Nat) : Int) from rfl, ← Int.natCast_pow] at hden
        exact Int.ofNat_inj.mp hden
    · cases h

end Fraction

/-! ## 4. Clamps -/

/-- An upper bound that a number is below does not limit it. -/
theorem Elem.min_effectiveBound {e : Elem} (he : e.isInt = true) {hi : Nat} {b : Fraction}
    (hb : (Fraction.ofNat hi).le b = true) (hhi : n ≤ hi) (hn : n < 2 ^ e.bits) :
    (match e.effectiveBound? true (some b) with
      | some b => min n b.num.toNat
      | none => n) = n := by
  obtain ⟨-, hdef, hle⟩ := Fraction.le_eq_true_iff.mp hb
  have hle : (hi : Int) * b.den ≤ b.num * (1 : Nat) := hle
  have hden : 0 < (b.den : Int) := by
    have := bne_iff_ne.mp hdef
    omega
  rw [effectiveBound?_of_isInt he, Option.filter_some, if_pos hdef]
  show min n (min (b.num / b.den).toNat (2 ^ e.bits - 1)) = n
  have hquot : (hi : Int) ≤ b.num / b.den := (Int.le_ediv_iff_mul_le hden).mpr (by omega)
  omega

/-- A lower bound that a number is above does not limit it. -/
theorem Elem.max_effectiveBound {e : Elem} (he : e.isInt = true) {lo : Nat} {b : Fraction}
    (hb : b.le (Fraction.ofNat lo) = true) (hlo : lo ≤ n) :
    (match e.effectiveBound? false (some b) with
      | some b => max n b.num.toNat
      | none => n) = n := by
  obtain ⟨hdef, -, hle⟩ := Fraction.le_eq_true_iff.mp hb
  have hle : b.num * (1 : Nat) ≤ (lo : Int) * b.den := hle
  have hden : 0 < (b.den : Int) := by
    have := bne_iff_ne.mp hdef
    omega
  rw [effectiveBound?_of_isInt he, Option.filter_some, if_pos hdef]
  show max n (min (-(-b.num / b.den)).toNat (2 ^ e.bits - 1)) = n
  have hquot : -(lo : Int) ≤ -b.num / b.den := by
    refine (Int.le_ediv_iff_mul_le hden).mpr ?_
    rw [Int.neg_mul]
    omega
  omega

end PixelConv
