import PixelConv.Proofs.Contents
import PixelConv.Simplify.Clear

/-!
# Exact evaluation on natural numbers

The simplifier works out constants and bounds with fractions, the kernels compute on registers. On
integer elements both do the same as long as the terms of the fractions are within their limit
(`Op.ExactAt`): evaluating an operation at a natural number gives the number that `Op.onComponent`
gives (`Op.eval_eq_onComponent`). Within the limits of the kernels (`Op.InLimits`) they are.
-/

namespace PixelConv

namespace Fraction

/-! ## 1. One lemma per operation -/

theorem mul_shiftFactor (c : Nat) {k : Nat} (hk : k < 63) :
    ofNat c * shiftFactor k = ofNat (min (c * 2 ^ k) limit) := by
  have hfactor : shiftFactor k = ofNat (2 ^ k) := by
    rw [shiftFactor, if_pos hk, ofNat, Int.natCast_pow]
    rfl
  rw [hfactor, ofNat_mul_ofNat]

theorem shiftRight_ofNat (c : Nat) {k : Nat} (hk : k < 64) :
    (ofNat c).shiftRight k = ofNat (c / 2 ^ k) := by
  show ofInt (if k < 64 then (c : Int) / (1 : Nat) / 2 ^ k else 0) = ofNat (c / 2 ^ k)
  rw [if_pos hk, Int.natCast_one, Int.ediv_one, ofNat, Int.natCast_ediv, Int.natCast_pow]
  rfl

theorem wrap_ofNat (c n : Nat) : (ofNat c).wrap n = ofNat (c % n) := by
  show ofInt ((c : Int) % (n : Int)) = ofNat (c % n)
  rw [ofNat, Int.natCast_emod]

/-- The factor of a conversion between integers is a natural number. -/
theorem expansion_eq_ofNat {source target : Elem} (hs : source.isInt = true)
    (ht : target.isInt = true) :
    source.expansion target = ofNat (source.spread target true) := by
  revert hs ht
  cases source <;> cases target <;> decide

theorem convert_ofNat {source target : Elem} (hs : source.isInt = true) (ht : target.isInt = true)
    (expand : Bool) (c : Nat) : convert source target expand (ofNat c) =
      ofNat (min (c * source.spread target expand) (2 ^ target.bits - 1)) := by
  have htop : 2 ^ target.bits - 1 ≤ limit :=
    Nat.le_trans (Nat.sub_le _ 1) (Nat.le_trans target.two_pow_bits_le (by decide))
  have htrunc : (ofNat c).trunc = ofNat c := by
    show ofInt ((c : Int).tdiv (1 : Nat)) = ofNat c
    rw [Int.natCast_one, Int.tdiv_one]
    rfl
  unfold convert
  rw [if_pos ht, htrunc, Elem.max?_of_isInt ht]
  cases expand with
  | true =>
    show (ofNat c * source.expansion target).saturate (ofNat _) = _
    rw [expansion_eq_ofNat hs ht, ofNat_mul_ofNat]
    show (ofInt _).saturate (ofNat _) = _
    rw [saturate_ofInt, Int.toNat_natCast]
    congr 1
    omega
  | false =>
    show (ofInt _).saturate (ofNat _) = _
    rw [saturate_ofInt, Int.toNat_natCast]
    show _ = ofNat (min (c * 1) _)
    rw [Nat.mul_one]

theorem clamp_ofNat {e : Elem} (he : e.isInt = true) (upper : Bool) (bound : Option Fraction)
    (c : Nat) : clamp e upper bound (ofNat c) = ofNat
      (match e.effectiveBound? upper bound with
        | some b => if upper then min c b.num.toNat else max c b.num.toNat
        | none => c) := by
  unfold clamp
  rw [Elem.effectiveBound?_of_isInt he]
  cases bound.filter isDefined with
  | none => rfl
  | some b =>
    simp only [Option.map_some]
    generalize min (Elem.wholeBound upper b).toNat (2 ^ e.bits - 1) = m
    show (if (!(ofNat c).isDefined || if upper then (ofInt m).lt (ofInt c)
      else (ofInt c).lt (ofInt m)) = true then ofNat m else ofNat c) =
        ofNat (if upper then min c m else max c m)
    rw [lt_ofInt, lt_ofInt, show (!(ofNat c).isDefined) = false from rfl, Bool.false_or]
    cases upper with
    | true =>
      simp only [if_true, decide_eq_true_eq, Int.ofNat_lt]
      by_cases h : m < c
      · rw [if_pos h, Nat.min_eq_right (Nat.le_of_lt h)]
      · rw [if_neg h, Nat.min_eq_left (Nat.not_lt.mp h)]
    | false =>
      simp only [Bool.false_eq_true, if_false, decide_eq_true_eq, Int.ofNat_lt]
      by_cases h : c < m
      · rw [if_pos h, Nat.max_eq_right (Nat.le_of_lt h)]
      · rw [if_neg h, Nat.max_eq_left (Nat.not_lt.mp h)]

end Fraction

/-! ## 2. Operations -/

/-- The parameters are within the limits of the kernels: shifts by less than the element has bits,
scales by a fraction of two words, which is whole on the widest element. -/
def Op.InLimits (op : Op) : Prop :=
  match op.kind with
  | .shiftLeft k | .shiftRight k => k < op.elem.bits
  | .scale f => 0 ≤ f.num ∧ f.num < 2 ^ (32 : Nat) ∧ 0 < f.den ∧ f.den < 2 ^ (32 : Nat) ∧
      (op.elem = .u32 → f.den = 1)
  | _ => True

/-- A scale of the widest element stays within it at `n`. -/
def Op.FitsAt (op : Op) (n : Nat) : Prop :=
  op.elem = .u32 → ∀ f, op.kind = .scale f → n * f.num.natAbs < 2 ^ (32 : Nat)

/-- The evaluation of an operation at `n` is exact: it shifts by less than its element has bits, or it
scales by a factor for which the terms of the product are within the limit. -/
def Op.ExactAt (op : Op) (n : Nat) : Prop :=
  match op.kind with
  | .shiftLeft k | .shiftRight k => k < op.elem.bits
  | .scale f => 0 ≤ f.num ∧ 0 < f.den ∧ Fraction.TermsFit (n * f.num.natAbs) f.den
  | _ => True

/-- Within the limits of the kernels the evaluation is exact. -/
theorem Op.InLimits.exactAt {op : Op} (hlim : op.InLimits) (hop : op.isExact = true) {n : Nat}
    (hn : n < 2 ^ op.elem.bits) (hfit : op.FitsAt n) : op.ExactAt n := by
  obtain ⟨elem, kind, info⟩ := op
  cases kind with
  | shiftLeft | shiftRight => exact hlim
  | scale f =>
    obtain ⟨hnum, hlt, hden, hdlt, -⟩ := hlim
    refine ⟨hnum, hden, Fraction.termsFit_of_le ?_ (Nat.le_trans (Nat.le_of_lt hdlt) (by decide))⟩
    by_cases he : elem = .u32
    · exact Nat.le_trans (Nat.le_of_lt (hfit he f rfl)) (by decide)
    · exact Elem.mul_le_limit hop he hn (by omega)
  | _ => exact True.intro

/-- The evaluation of a scale at a natural number. -/
theorem Op.eval_scale {op : Op} {f : Fraction} (hk : op.kind = .scale f)
    (hint : op.elem.isInt = true) (hden : 0 < f.den) (hnum : 0 ≤ f.num) {x : Value} {i : Fin 4}
    {c : Nat} (hx : x i = Fraction.ofNat c) :
    (op.eval x) i =
      Fraction.ofNat (Fraction.wholePart (c * f.num.natAbs) f.den % 2 ^ op.elem.bits) := by
  simp only [Op.eval, Op.evalRaw, hk, Elem.top?_of_isInt hint, Kind.wraps, if_true, Quad.get_map, hx,
    hint]
  rw [Fraction.floor_ofNat_mul c hden hnum, Fraction.wrap_ofNat,
    Nat.sub_add_cancel (Nat.two_pow_pos _)]

/-- **The exact evaluation of an operation at a natural number** is its effect on it. -/
theorem Op.eval_eq_onComponent {op : Op} (hop : op.isExact = true)
    (hpass : op.verb.passesConstants = true) {x : Value} {i : Fin 4} {c : Nat}
    (hx : x i = Fraction.ofNat c) (hc : c < 2 ^ op.elem.bits) (hexact : op.ExactAt c) :
    (op.eval x) i = Fraction.ofNat (op.onComponent i c) := by
  have hbits := op.elem.bits_le
  obtain ⟨elem, kind, info⟩ := op
  have hpow : 2 ^ elem.bits - 1 + 1 = 2 ^ elem.bits := Nat.sub_add_cancel (Nat.two_pow_pos _)
  cases kind with
  | shiftLeft k =>
    have hint : elem.isInt = true := hop
    have hk : k < elem.bits := hexact
    simp only at hbits hc
    have hle : c * 2 ^ k ≤ Fraction.limit := by
      have h1 : c * 2 ^ k ≤ (2 ^ 32 - 1) * 2 ^ 31 :=
        Nat.mul_le_mul (Nat.le_sub_one_of_lt (Nat.lt_of_lt_of_le hc elem.two_pow_bits_le))
          (Nat.pow_le_pow_right (by decide) (by omega))
      exact Nat.le_trans h1 (by decide)
    simp only [Op.eval, Op.evalRaw, Elem.top?_of_isInt hint, Kind.wraps, if_true, Quad.get_map, hx,
      Op.onComponent]
    rw [Fraction.mul_shiftFactor c (by omega), Nat.min_eq_left hle, Fraction.wrap_ofNat, hpow]
  | shiftRight k =>
    have hint : elem.isInt = true := hop
    have hk : k < elem.bits := hexact
    simp only at hbits
    simp only [Op.eval, Op.evalRaw, Elem.top?_of_isInt hint, Kind.wraps, Bool.false_eq_true,
      if_false, Quad.get_map, hx, Op.onComponent]
    exact Fraction.shiftRight_ofNat c (by omega)
  | convert target expand =>
    obtain ⟨hs, ht⟩ := (Bool.and_eq_true _ _).mp (hop : (elem.isInt && target.isInt) = true)
    simp only [Op.eval, Op.evalRaw, Elem.top?_of_isInt hs, Kind.wraps, Bool.false_eq_true,
      if_false, Quad.get_map, hx, Op.onComponent]
    exact Fraction.convert_ofNat hs ht expand c
  | scale f =>
    obtain ⟨hnum, hden, hfit⟩ := hexact
    rw [Op.eval_scale rfl hop hden hnum hx, Fraction.wholePart_of_fits hfit]
    simp only [Op.onComponent]
    rw [Nat.max_eq_left hden]
  | atMost bounds =>
    have hint : elem.isInt = true := hop
    simp only [Op.eval, Op.evalRaw, Elem.top?_of_isInt hint, Kind.wraps, Bool.false_eq_true,
      if_false, Quad.get_zipWith, hx, Op.onComponent]
    exact Fraction.clamp_ofNat hint true (bounds i) c
  | atLeast bounds =>
    have hint : elem.isInt = true := hop
    simp only [Op.eval, Op.evalRaw, Elem.top?_of_isInt hint, Kind.wraps, Bool.false_eq_true,
      if_false, Quad.get_zipWith, hx, Op.onComponent]
    exact Fraction.clamp_ofNat hint false (bounds i) c
  | read | write | swapBytes | unpack | pack | clear | swizzle | dither | affine => cases hpass

end PixelConv
