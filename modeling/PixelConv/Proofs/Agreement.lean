import PixelConv.Proofs.Dependence
import PixelConv.Proofs.Evaluation

/-!
# Exact evaluation and the general kernels

The simplifier folds constants with fractions, the general kernels compute on words. On integer
elements the values that the evaluation of an operation defines are what the kernel leaves in the
registers (`Op.eval_eq_kernel`), whatever the parameters are that its set-up takes. The one exception
are products beyond the limit of fractions, which only a scale of the widest element can reach. There
a whole factor counts as the largest word, while the kernel wraps around.
-/

namespace PixelConv

/-! ## 1. Registers as values -/

/-- The numbers that the registers hold. -/
def Pixel.values (q : Pixel) : Value := q.map Fraction.ofWord

theorem Pixel.get_values (q : Pixel) (i : Fin 4) : q.values i = Fraction.ofWord (q i) :=
  Quad.get_map _ q i

theorem Fraction.word?_ofWord (w : UInt32) : (ofWord w).word? = some w := by
  have hlt : (w.toNat : Int) < 2 ^ 32 := by exact_mod_cast w.toNat_lt
  unfold word?
  rw [if_pos]
  · show some (w.toNat : Int).toNat.toUInt32 = some w
    rw [Int.toNat_natCast, Nat.toUInt32, UInt32.ofNat_toNat]
  · show (true && decide (0 ≤ (w.toNat : Int) ∧ (w.toNat : Int) < 2 ^ 32)) = true
    rw [Bool.true_and, decide_eq_true_iff]
    exact ⟨Int.natCast_nonneg _, hlt⟩

/-! ## 2. Bit fields -/

/-- The fields of a packed word. -/
theorem Value.unpack_of_word? {e : Elem} {widths : Quad Nat} {x : Value} {w : UInt32}
    (h : x.c0.word? = some w) :
    x.unpack e widths = (BitField.ofWidths widths e.bits).map fun f =>
      if f.len = 0 then Fraction.undefined else Fraction.ofWord (f.extract w) := by
  unfold Value.unpack
  rw [h]

/-- Gathering fields one after the other. -/
theorem BitField.gather_values : ∀ (l : List (UInt32 × BitField)) (start : UInt32),
    (l.map fun p => (Fraction.ofWord p.1, p.2)).foldlM
        (fun w p => (p.1.word?).map (p.2.insert w)) start =
      some (l.foldl (fun w p => p.2.insert w p.1) start)
  | [], _ => rfl
  | p :: l, start => by
    rw [List.map_cons, List.foldlM_cons, Fraction.word?_ofWord]
    exact gather_values l (p.2.insert start p.1)

/-- Fields of no bits take nothing in. -/
theorem BitField.gather_empty : ∀ (l : List (UInt32 × BitField)), (∀ p ∈ l, p.2.len = 0) →
    ∀ start : UInt32, l.foldl (fun w p => p.2.insert w p.1) start = start
  | [], _, _ => rfl
  | p :: l, h, start => by
    obtain ⟨hp, hl⟩ := List.forall_mem_cons.mp h
    rw [List.foldl_cons, show p.2.insert start p.1 = start from if_pos hp]
    exact gather_empty l hl start

/-- **The packed word**: fields beyond the pattern take nothing in. -/
theorem Value.packed?_values (e : Elem) (widths : Quad Nat) (q : Pixel) :
    q.values.packed? e widths = some (Quad.indices.foldl (fun w i =>
      ((BitField.ofWidths widths e.bits) i).insert w (q i)) 0) := by
  have hempty : ∀ i : Fin 4, BitField.count widths ≤ i.val →
      ((BitField.ofWidths widths e.bits) i).len = 0 := fun i hi => BitField.len_eq_zero_iff.mpr hi
  unfold Value.packed?
  generalize BitField.ofWidths widths e.bits = fields at hempty
  generalize BitField.count widths = n at hempty
  have hzip : (q.values.toList.zip fields.toList).take n =
      ((q.toList.zip fields.toList).take n).map fun p => (Fraction.ofWord p.1, p.2) := by
    rw [List.map_take]
    rfl
  show ((q.values.toList.zip fields.toList).take n).foldlM
    (fun w p => (p.1.word?).map (p.2.insert w)) 0 = _
  rw [hzip, BitField.gather_values]
  congr 1
  have hrest : ∀ p ∈ (q.toList.zip fields.toList).drop n, p.2.len = 0 := by
    intro p hp
    obtain ⟨k, hk⟩ := List.mem_iff_getElem?.mp hp
    rw [List.getElem?_drop] at hk
    have hlt : n + k < 4 := (List.getElem?_eq_some_iff.mp hk).1
    obtain ⟨-, hfield⟩ := List.getElem?_zip_eq_some.mp hk
    rw [Quad.getElem?_toList fields ⟨n + k, hlt⟩] at hfield
    rw [← Option.some.inj hfield]
    exact hempty _ (Nat.le_add_right n k)
  calc ((q.toList.zip fields.toList).take n).foldl (fun w p => p.2.insert w p.1) 0
      = (q.toList.zip fields.toList).foldl (fun w p => p.2.insert w p.1) 0 := by
        conv => rhs; rw [← List.take_append_drop n (q.toList.zip fields.toList), List.foldl_append]
        rw [BitField.gather_empty _ hrest]
    _ = _ := rfl

/-! ## 3. Products beyond the limit -/

namespace Fraction

/-- A convergent stays below a bound, by `slack`, when the first two do. -/
theorem lastConvergent_le {a slack num den p₀ q₀ p₁ q₁ : Nat} (h₀ : p₀ + slack ≤ a * q₀)
    (h₁ : p₁ + slack ≤ a * q₁) :
    (lastConvergent num den p₀ q₀ p₁ q₁).1 + slack ≤
      a * (lastConvergent num den p₀ q₀ p₁ q₁).2 := by
  fun_induction lastConvergent num den p₀ q₀ p₁ q₁ with
  | case1 => exact h₁
  | case2 num den p₀ q₀ p₁ q₁ hden x p₂ q₂ hlimit ih =>
    refine ih h₁ ?_
    calc x * p₁ + p₀ + slack ≤ x * (p₁ + slack) + (p₀ + slack) := by
          rw [Nat.mul_add]
          omega
      _ ≤ x * (a * q₁) + a * q₀ := Nat.add_le_add (Nat.mul_le_mul_left x h₁) h₀
      _ = a * (x * q₁ + q₀) := by rw [Nat.mul_add, Nat.mul_left_comm]
  | case3 => exact h₁

theorem lastConvergent_pos {num den p₀ q₀ p₁ q₁ : Nat} (hle : den ≤ num) (hq : 0 < q₁) :
    0 < (lastConvergent num den p₀ q₀ p₁ q₁).2 := by
  fun_induction lastConvergent num den p₀ q₀ p₁ q₁ with
  | case1 => exact hq
  | case2 num den p₀ q₀ p₁ q₁ hden x p₂ q₂ hlimit ih =>
    have hx : 0 < x := Nat.div_pos hle (Nat.pos_of_ne_zero hden)
    exact ih (Nat.le_of_lt (Nat.mod_lt _ (Nat.pos_of_ne_zero hden)))
      (Nat.add_pos_left (Nat.mul_pos hx hq) _)
  | case3 => exact hq

/-- The walk for a value within the limit begins with its whole part. -/
theorem lastConvergent_first {num den : Nat} (hden : 0 < den) (hquot : num / den ≤ limit) :
    lastConvergent num den 0 1 1 0 = lastConvergent den (num % den) 1 0 (num / den) 1 := by
  rw [lastConvergent, dif_neg (Nat.ne_of_gt hden)]
  simp only [Nat.mul_one, Nat.mul_zero, Nat.add_zero, Nat.zero_add]
  exact if_pos ⟨hquot, by decide⟩

/-- A value within the limit is replaced by the last convergent. -/
theorem nearest_within {num den : Nat} (hden : 0 < den) (hquot : num / den ≤ limit) :
    nearest num den = lastConvergent num den 0 1 1 0 := by
  refine if_neg (Nat.ne_of_gt ?_)
  rw [lastConvergent_first hden hquot]
  exact lastConvergent_pos (Nat.le_of_lt (Nat.mod_lt _ hden)) Nat.one_pos

/-- **The replacement of a fraction that is not whole** is at most one more than its whole part, and
less than that if its fractional part is at most one half. -/
theorem nearest_le {num den slack : Nat} (hden : 0 < den) (hrest : 0 < num % den)
    (hquot : num / den ≤ limit) (hslack : slack ≤ 1) (hhalf : slack = 1 → 2 * (num % den) ≤ den) :
    (nearest num den).1 + slack ≤ (num / den + 1) * (nearest num den).2 := by
  have hx : slack + 1 ≤ den / (num % den) := by
    rw [Nat.le_div_iff_mul_le hrest]
    have hlt := Nat.mod_lt num hden
    rcases Nat.le_one_iff_eq_zero_or_eq_one.mp hslack with rfl | rfl
    · omega
    · have := hhalf rfl
      omega
  rw [nearest_within hden hquot, lastConvergent_first hden hquot, lastConvergent,
    dif_neg (Nat.ne_of_gt hrest)]
  generalize num / den = a
  generalize den / (num % den) = x at hx
  simp only [Nat.mul_one, Nat.add_zero]
  split
  · refine lastConvergent_le (by omega) ?_
    rw [Nat.add_mul, Nat.one_mul, Nat.mul_comm]
    omega
  · show a + slack ≤ (a + 1) * 1
    omega

/-- Its whole part is exact or one more, which takes a fractional part above one half. -/
theorem nearest_div {num den : Nat} (hden : 0 < den) (hrest : 0 < num % den)
    (hquot : num / den ≤ limit) :
    (nearest num den).1 / (nearest num den).2 = num / den ∨
      den < 2 * (num % den) ∧ (nearest num den).1 / (nearest num den).2 = num / den + 1 := by
  obtain ⟨hqpos, hge⟩ := nearest_spec num hden
  rw [Nat.min_eq_left hquot] at hge
  by_cases hhalf : 2 * (num % den) ≤ den
  · have hle := nearest_le hden hrest hquot (Nat.le_refl 1) fun _ => hhalf
    have hlt := (Nat.div_lt_iff_lt_mul hqpos).mpr hle
    exact .inl (by omega)
  · have hle := nearest_le hden hrest hquot (Nat.zero_le 1) nofun
    have hdiv : (nearest num den).1 / (nearest num den).2 ≤ num / den + 1 :=
      Nat.div_le_of_le_mul (Nat.le_trans hle (Nat.le_of_eq (Nat.mul_comm _ _)))
    omega

/-- **The whole part of a quotient whose lowest terms are beyond the limit**: the limit for a whole
number, and otherwise the exact one or one more. -/
theorem wholePart_beyond {num den : Nat} (hden : 0 < den) (hfit : ¬TermsFit num den) :
    (den ∣ num → wholePart num den = limit) ∧
      (¬den ∣ num → num / den ≤ limit → wholePart num den = num / den ∨
        den < 2 * (num % den) ∧ wholePart num den = num / den + 1) := by
  have hdpos := div_gcd_pos num hden
  have hnum : num.gcd den * (num / num.gcd den) = num :=
    Nat.mul_div_cancel' (Nat.gcd_dvd_left num den)
  have hd : num.gcd den * (den / num.gcd den) = den :=
    Nat.mul_div_cancel' (Nat.gcd_dvd_right num den)
  rw [wholePart, if_neg hfit]
  constructor
  · intro hdvd
    have hone : den / num.gcd den = 1 := by
      rw [Nat.gcd_eq_right hdvd]
      exact Nat.div_self hden
    have hlt : limit < num / num.gcd den := by
      refine Nat.not_le.mp fun hle => hfit ⟨hle, ?_⟩
      rw [hone]
      decide
    rw [hone, nearest_one hlt]
    exact Nat.div_one _
  · intro hdvd hquot
    have hrest : num % den = num.gcd den * (num / num.gcd den % (den / num.gcd den)) := by
      rw [← Nat.mul_mod_mul_left, hnum, hd]
    have hrpos : 0 < num / num.gcd den % (den / num.gcd den) := by
      refine Nat.pos_of_ne_zero fun hzero => hdvd (Nat.dvd_of_mod_eq_zero ?_)
      rw [hrest, hzero, Nat.mul_zero]
    rw [← div_gcd_div num den] at hquot
    have hnear := nearest_div hdpos hrpos hquot
    rw [div_gcd_div] at hnear
    rcases hnear with heq | ⟨hmore, heq⟩
    · exact .inl heq
    · refine .inr ⟨?_, heq⟩
      calc den = num.gcd den * (den / num.gcd den) := hd.symm
        _ < num.gcd den * (2 * (num / num.gcd den % (den / num.gcd den))) :=
          Nat.mul_lt_mul_of_pos_left hmore (Nat.gcd_pos_of_pos_right _ hden)
        _ = 2 * (num % den) := by rw [hrest, Nat.mul_left_comm]

end Fraction

/-! ## 4. One operation -/

namespace Op

variable {op : Op} {setup : Setup} {g : RegOp} {q : Pixel} {i : Fin 4}

/-- A product is defined only if its factor is. -/
theorem factor_isDefined {f : Fraction} (hk : op.kind = .scale f) (hint : op.elem.isInt = true)
    {x : Value} (h : ((op.eval x) i).isDefined = true) : f.isDefined = true := by
  cases hf : f.isDefined with
  | true => rfl
  | false =>
    have hmul : x i * f = Fraction.undefined := by
      show Fraction.mul (x i) f = _
      rw [Fraction.mul, hf, Bool.and_false]
      rfl
    simp only [eval, evalRaw, hk, Elem.top?_of_isInt hint, Kind.wraps, if_true, Quad.get_map, hint,
      hmul] at h
    cases h

/-- **Where the kernel of an operation on each component is set up, its evaluation is exact**, as long
as the terms of a product on the widest element are within the limit. -/
theorem exactAt_of_setup (hint : op.elem.isInt = true) (hpass : op.verb.passesConstants = true)
    (hs : op.generic? = some setup) (hk : setup op = .ok (.compute g))
    (hq : (q i).toNat < 2 ^ op.elem.bits) (hdef : ((op.eval q.values) i).isDefined = true)
    (hfit : op.elem = .u32 → ∀ f, op.kind = .scale f →
      Fraction.TermsFit ((q i).toNat * f.num.natAbs) f.den) : op.ExactAt (q i).toNat := by
  obtain ⟨elem, kind, info⟩ := op
  cases kind with
  | shiftLeft k =>
    rw [generic?_shift hint (.inl rfl)] at hs
    cases hs
    exact (Setup.shift_holds (.inl rfl) hk (rfl : (q i).toNat = _) 0 0).1
  | shiftRight k =>
    rw [generic?_shift hint (.inr rfl)] at hs
    cases hs
    exact (Setup.shift_holds (.inr rfl) hk (rfl : (q i).toNat = _) 0 0).1
  | scale f =>
    rw [generic?_scale hint rfl] at hs
    cases hs
    obtain ⟨-, -, hneg, hnum, hden, -⟩ := Setup.scaleInt_eq_ok rfl hk
    have hf := factor_isDefined rfl hint hdef
    refine ⟨Fraction.num_nonneg hf hneg, Nat.pos_of_ne_zero (bne_iff_ne.mp hf), ?_⟩
    by_cases he : elem = .u32
    · exact hfit he f rfl
    · exact Fraction.termsFit_of_le (Elem.mul_le_limit hint he hq (Nat.le_of_lt hnum))
        (Nat.le_trans (Nat.le_of_lt hden) (by decide))
  | convert | atMost | atLeast => exact True.intro
  | read | write | swapBytes | unpack | pack | clear | swizzle | dither | affine => cases hpass

/-- Operations on each component alone. -/
theorem eval_eq_apply_of_passes (hint : op.elem.isInt = true) (htarget : op.target.isInt = true)
    (hpass : op.verb.passesConstants = true) (hs : op.generic? = some setup)
    (hk : setup op = .ok (.compute g)) (hq : (q i).toNat < 2 ^ op.elem.bits)
    (hdef : ((op.eval q.values) i).isDefined = true)
    (hfit : op.elem = .u32 → ∀ f, op.kind = .scale f →
      Fraction.TermsFit ((q i).toNat * f.num.natAbs) f.den) (x y : Nat) :
    (op.eval q.values) i = Fraction.ofWord ((g.apply x y q) i) := by
  have hcomp : op.verb.isComponentwise = true := by
    simp only [Verb.passesConstants, Bool.and_eq_true] at hpass
    exact hpass.1.1
  have hexact : op.isExact = true := by
    obtain ⟨elem, kind, info⟩ := op
    cases kind with
    | convert => exact Bool.and_eq_true_iff.mpr ⟨hint, htarget⟩
    | shiftLeft | shiftRight | scale | atMost | atLeast => exact hint
    | read | write | swapBytes | unpack | pack | clear | swizzle | dither | affine => cases hpass
  rw [eval_eq_onComponent hexact hpass (q.get_values i) hq
      (exactAt_of_setup hint hpass hs hk hq hdef hfit),
    ← (Chosen.generic hs hk).onComponent hexact hcomp rfl hq x y]
  rfl

/-- Operations that move contents or cut them into fields. -/
theorem eval_eq_apply_of_moves (hint : op.elem.isInt = true) (hinner : op.transfer? = none)
    (hswap : op.verb ≠ .swapBytes) (hpass : op.verb.passesConstants ≠ true)
    (hs : op.generic? = some setup) (hk : setup op = .ok (.compute g))
    (hdef : ((op.eval q.values) i).isDefined = true) (x y : Nat) :
    (op.eval q.values) i = Fraction.ofWord ((g.apply x y q) i) := by
  obtain ⟨elem, kind, info⟩ := op
  have heval : (Op.mk elem kind info).eval q.values = (Op.mk elem kind info).evalRaw q.values := by
    have hwraps : kind.wraps = false := by
      cases kind <;> first | rfl | exact absurd rfl hpass
    unfold eval
    rw [Elem.top?_of_isInt hint]
    exact if_neg (Bool.eq_false_iff.mp hwraps)
  rw [heval] at hdef ⊢
  cases kind with
  | unpack widths =>
    cases (Chosen.generic hs hk).unpack_kernel rfl
    have hword : q.values.c0.word? = some q.c0 := Fraction.word?_ofWord q.c0
    simp only [evalRaw, Value.unpack_of_word? hword, Quad.get_map] at hdef ⊢
    show _ = Fraction.ofWord ((Quad.zipWith _ _ q) i)
    rw [Quad.get_zipWith]
    split at hdef
    · cases hdef
    · rename_i hlen
      rw [if_neg hlen, if_neg hlen]
  | pack widths =>
    cases (Chosen.generic hs hk).pack_kernel rfl
    simp only [evalRaw, Value.pack, Value.packed?_values, Quad.get_first] at hdef ⊢
    split at hdef
    · rename_i hi
      subst hi
      rfl
    · cases hdef
  | clear values =>
    cases hs
    obtain ⟨words, hwords, hg⟩ := exists_of_map_eq_ok hk
    cases hg
    have hi : Setup.clearWord elem (values i) = .ok (words i) := Quad.ofFnM_eq_ok_iff.mp hwords i
    show (Quad.zipWith (fun c q => c.getD q) values q.values) i =
      Fraction.ofWord ((RegOp.onSome (fun v _ => v) words q) i)
    simp only [RegOp.onSome, Quad.get_zipWith, Pixel.get_values]
    cases hv : values i with
    | none =>
      rw [hv] at hi
      rw [← Except.ok.inj hi]
      rfl
    | some c =>
      rw [hv, Setup.clearWord] at hi
      split at hi
      · rename_i w hw
        rw [← Except.ok.inj hi]
        exact ((Elem.word?_eq_some_iff hint).mp hw).1
      · cases hi
  | swizzle s =>
    cases hs
    cases hk
    show (s.apply q.values) i = Fraction.ofWord (((Quad.ofFn s.source).map q.get) i)
    rw [Swizzle.get_apply, Pixel.get_values, Quad.get_map, Quad.get_ofFn]
  | dither | affine =>
    simp only [generic?, verb, Kind.verb, hint, if_true] at hs
    cases hs
  | read | write => cases hinner
  | swapBytes => exact absurd rfl hswap
  | shiftLeft | shiftRight | convert | scale | atMost | atLeast => exact absurd rfl hpass

/-- **A product beyond the limit**, on the widest element: a whole one counts as the largest word, and
any other one is exact or one more. -/
theorem eval_scale_beyond {f : Fraction} (hkind : op.kind = .scale f) (hint : op.elem.isInt = true)
    (hk : Setup.scaleInt op = .ok (.compute g)) (hq : (q i).toNat < 2 ^ op.elem.bits)
    (hfit : ¬Fraction.TermsFit ((q i).toNat * f.num.natAbs) f.den) (x y : Nat) :
    (f.den ∣ (q i).toNat * f.num.natAbs → (op.eval q.values) i = Fraction.ofNat (2 ^ (32 : Nat) - 1)) ∧
      (¬f.den ∣ (q i).toNat * f.num.natAbs →
        (op.eval q.values) i = Fraction.ofWord ((g.apply x y q) i) ∨
        f.den < 2 * ((q i).toNat * f.num.natAbs % f.den) ∧
          (op.eval q.values) i = Fraction.ofWord ((g.apply x y q) i + 1)) := by
  obtain ⟨-, -, hneg, hnum, hdlt, -⟩ := Setup.scaleInt_eq_ok hkind hk
  have hu32 : op.elem = .u32 := Classical.byContradiction fun hne =>
    hfit (Fraction.termsFit_of_le (Elem.mul_le_limit hint hne hq (Nat.le_of_lt hnum))
      (Nat.le_trans (Nat.le_of_lt hdlt) (by decide)))
  have hden : 0 < f.den := by
    refine Nat.pos_of_ne_zero fun hzero => hfit ?_
    rw [hzero, Fraction.TermsFit, Nat.gcd_zero_right, Nat.zero_div]
    have hone : ∀ n : Nat, n / n ≤ 1 := fun n =>
      Nat.div_le_of_le_mul (Nat.le_of_eq (Nat.mul_one n).symm)
    exact ⟨Nat.le_trans (hone _) (by decide), by decide⟩
  have heval := eval_scale hkind hint hden
    (Fraction.num_nonneg (bne_iff_ne.mpr (Nat.ne_of_gt hden)) hneg) (q.get_values i)
  have hkernel := Setup.scaleInt_holds hkind hk (rfl : (q i).toNat = _) x y
  simp only [onComponent, hkind] at hkernel
  rw [Nat.max_eq_left hden, hu32] at hkernel
  rw [hu32] at heval hq
  rw [heval]
  generalize (g.apply x y q) i = w at hkernel
  obtain ⟨hwhole, hpart⟩ := Fraction.wholePart_beyond hden hfit
  refine ⟨fun hdvd => ?_, fun hdvd => ?_⟩
  · rw [hwhole hdvd]
    rfl
  · have hquot : (q i).toNat * f.num.natAbs / f.den ≤ Fraction.limit := by
      have htwo : 2 ≤ f.den := by
        refine Nat.lt_of_le_of_ne hden fun hone => hdvd ?_
        rw [← hone]
        exact Nat.one_dvd _
      calc (q i).toNat * f.num.natAbs / f.den ≤ 2 ^ 32 * (2 ^ 32 - 1) / 2 :=
            Nat.div_le_div (Nat.mul_le_mul (Nat.le_of_lt hq) (Nat.le_sub_one_of_lt hnum)) htwo
              (by decide)
        _ ≤ Fraction.limit := by decide
    rcases hpart hdvd hquot with heq | ⟨hmore, heq⟩
    · left
      rw [heq]
      exact congrArg Fraction.ofNat hkernel.symm
    · right
      refine ⟨hmore, ?_⟩
      rw [heq]
      refine congrArg Fraction.ofNat ?_
      rw [UInt32.toNat_add, hkernel]
      exact (Nat.mod_add_mod _ _ _).symm

/-- **Evaluation and kernels agree.** Let the general table have a kernel for an operation between
integer elements that is neither a transfer nor a swap of bytes. On registers in range, each
component that the evaluation defines is what the kernel leaves there, unless it is a product whose
lowest terms are beyond the limit of fractions; only a scale of the widest element has such products.
The evaluation of a whole one is the largest word, that of any other is exact or one more. -/
theorem eval_eq_kernel {e : Entry} {k : Kernel} (he : e ∈ Catalogue.generic.entries)
    (hverb : e.verb = op.verb) (helem : e.elemMatches op = true) (hk : e.setup op = .ok k)
    (hint : op.elem.isInt = true) (htarget : op.target.isInt = true)
    (hinner : op.transfer? = none) (hswap : op.verb ≠ .swapBytes) :
    ∃ g, k = .compute g ∧ ∀ q : Pixel, (∀ j, (q j).toNat < 2 ^ op.elem.bits) → ∀ i x y,
      ((op.elem = .u32 → ∀ f, op.kind = .scale f →
          Fraction.TermsFit ((q i).toNat * f.num.natAbs) f.den) →
        ((op.eval q.values) i).isDefined = true →
        (op.eval q.values) i = Fraction.ofWord ((g.apply x y q) i)) ∧
      ∀ f, op.kind = .scale f → ¬Fraction.TermsFit ((q i).toNat * f.num.natAbs) f.den →
        (f.den ∣ (q i).toNat * f.num.natAbs →
          (op.eval q.values) i = Fraction.ofNat (2 ^ (32 : Nat) - 1)) ∧
        (¬f.den ∣ (q i).toNat * f.num.natAbs →
          (op.eval q.values) i = Fraction.ofWord ((g.apply x y q) i) ∨
          f.den < 2 * ((q i).toNat * f.num.natAbs % f.den) ∧
            (op.eval q.values) i = Fraction.ofWord ((g.apply x y q) i + 1)) := by
  obtain ⟨hs, -⟩ := Catalogue.generic_entry he
    (Catalogue.generic_score_pos he (Quad.const false) hverb helem)
  obtain ⟨g, rfl, -⟩ := (Chosen.generic hs hk).compute hinner
  refine ⟨g, rfl, fun q hq i x y => ⟨fun hfit hdef => ?_, fun f hkind hfit => ?_⟩⟩
  · by_cases hpass : op.verb.passesConstants = true
    · exact eval_eq_apply_of_passes hint htarget hpass hs hk (hq i) hdef hfit x y
    · exact eval_eq_apply_of_moves hint hinner hswap hpass hs hk hdef x y
  · rw [generic?_scale hint (by rw [verb, hkind]; rfl)] at hs
    rw [← Option.some.inj hs] at hk
    exact eval_scale_beyond hkind hint hk (hq i) hfit x y

/-- Multiplies by the largest word. -/
def fullScale : Op := .ofKind .u32 (.scale (.ofNat 4294967295))

/-- The first product is within the limit, the second one is beyond it and wraps around to one. -/
theorem fullScale_eq_kernel :
    Setup.scaleInt fullScale = .ok (.compute (.scaleInt 4294967295 1 4294967295)) ∧
      (fullScale.eval (Pixel.values ⟨2, 4294967295, 0, 0⟩)) 0 = Fraction.ofWord
        (((RegOp.scaleInt 4294967295 1 4294967295).apply 0 0 ⟨2, 4294967295, 0, 0⟩) 0) ∧
      (fullScale.eval (Pixel.values ⟨2, 4294967295, 0, 0⟩)) 1 = Fraction.ofNat (2 ^ (32 : Nat) - 1) ∧
      ((RegOp.scaleInt 4294967295 1 4294967295).apply 0 0 ⟨2, 4294967295, 0, 0⟩) 1 = 1 := by
  have hentry : Catalogue.any "scale_32" .scale .u32 .scaleInt ∈ Catalogue.generic.entries :=
    List.mem_of_getElem? (show Catalogue.generic.entries[30]? = some _ from rfl)
  have hsetup : Setup.scaleInt fullScale =
      .ok (.compute (.scaleInt 4294967295 1 4294967295)) := by rfl
  have hverb : (Catalogue.any "scale_32" .scale .u32 .scaleInt).verb = fullScale.verb := rfl
  obtain ⟨g, hg, hagree⟩ := eval_eq_kernel hentry hverb rfl hsetup rfl rfl rfl (by decide)
  cases hg
  have hrange : ∀ j, ((⟨2, 4294967295, 0, 0⟩ : Pixel) j).toNat < 2 ^ fullScale.elem.bits := by decide
  obtain ⟨hfits, -⟩ := hagree ⟨2, 4294967295, 0, 0⟩ hrange 0 0 0
  obtain ⟨-, hbeyond⟩ := hagree ⟨2, 4294967295, 0, 0⟩ hrange 1 0 0
  refine ⟨hsetup, hfits (fun _ f hf => ?_) (by decide +kernel), ?_, by decide +kernel⟩
  · cases hf
    decide +kernel
  · exact (hbeyond (.ofNat 4294967295) rfl (by decide +kernel)).1 (by decide +kernel)

end Op

end PixelConv
