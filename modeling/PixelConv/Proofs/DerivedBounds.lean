import PixelConv.Proofs.Agreement
import PixelConv.Proofs.Intervals

/-!
# Bounds that are derived soundly

The bounds after an operation are its effect on those before. Where it keeps the order they hold for
whatever values the old ones admit (`Op.admits_eval`); where it wraps around, only if the values beyond
the range have been seen (`Op.admits_shiftLeft`, `Op.admits_scale`). `Op.Tracks` collects what can go
wrong.
-/

namespace PixelConv

/-- Computes with floats, in the same way for every pixel. -/
def Verb.onFloats : Verb → Bool
  | clear | swizzle | convert | affine | scale | atMost | atLeast => true
  | _ => false

/-- Inputs that are known to be zero can be left out of a row, if they are multiplied by numbers. -/
theorem AffineRow.eval_skipZeros (r : AffineRow) {known : Quad Known} {x : Value}
    (hdef : ∀ j, (known j).zero = true → r.offset.Lowest ∧ (r.weight j).isDefined = true)
    (hzero : ∀ j, (known j).zero = true → x j = Fraction.zero) :
    (r.skipZeros known).eval x = r.eval x := by
  by_cases hsome : ∃ j, (known j).zero = true
  · obtain ⟨j, hj⟩ := hsome
    refine AffineRow.eval_congr (hdef j hj).1 rfl fun j => ?_
    simp only [AffineRow.skipZeros, Quad.get_ofFn]
    cases hj : (known j).zero with
    | true => exact .inr ⟨hzero j hj, rfl, (hdef j hj).2⟩
    | false => exact .inl rfl
  · obtain ⟨weight, offset⟩ := r
    have hweight : (Quad.ofFn fun j => if (known j).zero then Fraction.zero else weight j) = weight :=
      Quad.ext_get fun j => by rw [Quad.get_ofFn, if_neg fun hj => hsome ⟨j, hj⟩]
    simp only [AffineRow.skipZeros, hweight]

/-! ## 1. What can go wrong -/

namespace Op

/-- A component is shifted or scaled beyond the range of its element although its upper end is not
known, and its lower end is positive: a value that wraps around may fall below it. -/
def Overflows (prev : Info) (op : Op) (c : Fin 4) : Prop :=
  op.kind.wraps = true ∧ (prev.bounds c).high.isDefined = false ∧
    Fraction.zero.lt (op.evalBounds prev.bounds c).low = true ∧
    ∃ top, op.elem.max? = some top ∧ top.lt ((op.evalRaw (Quad.const top)) c) = true

/-- A scale of the widest element lifts the lower end of a component above its product with the
factor, whose terms are beyond the limit. -/
def Lifts (prev : Info) (op : Op) (c : Fin 4) : Prop :=
  op.elem = .u32 ∧ ∃ f, op.kind = .scale f ∧
    (prev.bounds c).low.num * f.num <
      (op.evalBounds prev.bounds c).low.num * ((prev.bounds c).low.den * f.den)

/-- **Nothing goes wrong** with the bounds after the operation if those before it hold. -/
structure Tracks (prev : Info) (op : Op) : Prop where
  /-- Elements of a fraction of a byte have a bit at least. -/
  fraction : ∀ l, op.kind = .read l → op.elem.isInt = true → l.frac ≤ 3
  /-- No field stands behind an empty one. -/
  fields : ∀ widths, op.kind = .unpack widths → BitField.Leading widths
  /-- All entries of a tile are numbers. -/
  entries : ∀ d, op.kind = .dither d → ∀ t ∈ d.entries, t.isDefined = true
  /-- Inputs that are known to be zero are multiplied by numbers, and added to some in lowest terms. -/
  weights : ∀ t, op.kind = .affine t → ∀ i j, (prev.known j).zero = true →
    (t.rows i).offset.Lowest ∧ ((t.rows i).weight j).isDefined = true
  /-- Values that wrap around have been seen. -/
  seen : ∀ c, op.elem.isInt = true → ¬op.Overflows prev c
  /-- Products are not rounded up. -/
  exact : ∀ c, ¬op.Lifts prev c

variable {op : Op} {prev : Info} {depths : Option Depths} {x : Value} {c : Fin 4}

/-- Floats have no range to leave: only tiles and transforms have conditions there. -/
theorem tracks_of_float (hfloat : op.elem.isInt = false) (hunpack : op.verb ≠ .unpack)
    (hdither : op.verb ≠ .dither) (haffine : op.verb ≠ .affine) : op.Tracks prev where
  fraction _ _ hint := by rw [hfloat] at hint; cases hint
  fields _ hk := absurd (congrArg Kind.verb hk) hunpack
  entries _ hk := absurd (congrArg Kind.verb hk) hdither
  weights _ hk := absurd (congrArg Kind.verb hk) haffine
  seen _ hint := by rw [hfloat] at hint; cases hint
  exact _ hl := by rw [hl.1] at hfloat; cases hfloat

/-- Operations that keep the order and multiply nothing have no conditions, on integers either. -/
theorem tracks_of_ordered (hverb : op.verb.onFloats = true ∨ op.verb = .shiftRight)
    (hscale : op.verb ≠ .scale) (haffine : op.verb ≠ .affine) : op.Tracks prev := by
  obtain ⟨elem, kind, info⟩ := op
  cases kind with
  | clear | swizzle | shiftRight | convert | atMost | atLeast =>
    refine ⟨fun _ hk => Kind.noConfusion hk, fun _ hk => Kind.noConfusion hk,
      fun _ hk => Kind.noConfusion hk, fun _ hk => Kind.noConfusion hk,
      fun _ _ ho => Bool.noConfusion ho.1, fun c hl => ?_⟩
    obtain ⟨-, f, hk, -⟩ := hl
    cases hk
  | scale => exact absurd rfl hscale
  | affine => exact absurd rfl haffine
  | read | write | swapBytes | unpack | pack | shiftLeft | dither =>
    rcases hverb with hverb | hverb
    · cases hverb
    · cases hverb

/-! ## 2. Effects that keep the order -/

theorem get_evalBounds (b : Quad Bounds) : (op.evalBounds b) c =
    ⟨(op.evalRaw (b.map Bounds.low)) c, (op.evalRaw (b.map Bounds.high)) c⟩ :=
  Quad.get_ofFn _ c

/-- **Operations that keep the order** carry bounds along. -/
theorem admits_eval (hverb : op.verb.onFloats = true ∨ op.verb = .shiftRight)
    (hscale : op.verb = .scale → op.elem.isInt = false)
    (hweights : ∀ t, op.kind = .affine t → ∀ i j, (prev.known j).zero = true →
      (t.rows i).offset.Lowest ∧ ((t.rows i).weight j).isDefined = true)
    (hzero : op.verb = .affine → ∀ j, (prev.known j).zero = true → x j = Fraction.zero)
    (hx : ∀ j, (prev.bounds j).Admits (x j)) :
    ((op.boundsAfter depths prev) c).Admits ((op.eval x) c) := by
  obtain ⟨elem, kind, info⟩ := op
  cases kind with
  | clear values =>
    rw [get_eval_of_not_wraps rfl]
    simp only [boundsAfter, get_evalBounds, evalRaw, Quad.get_zipWith, Quad.get_map]
    cases values c with
    | none => exact hx c
    | some q => exact .exactly q
  | swizzle s =>
    rw [get_eval_of_not_wraps rfl]
    simp only [boundsAfter, get_evalBounds, evalRaw, Swizzle.get_apply, Quad.get_map]
    exact hx _
  | shiftRight n =>
    rw [get_eval_of_not_wraps rfl]
    simp only [boundsAfter, get_evalBounds, evalRaw, Quad.get_map]
    have hshifted := (hx c).map (Fraction.increasing_shiftRight n)
    exact hshifted
  | convert target expand =>
    rw [get_eval_of_not_wraps rfl]
    simp only [boundsAfter, get_evalBounds, evalRaw, Quad.get_map]
    exact (hx c).map (Fraction.increasing_convert elem target expand)
  | affine t =>
    rw [get_eval_of_not_wraps rfl]
    simp only [boundsAfter, evalRaw, Quad.get_map]
    have hskip := (t.rows c).eval_skipZeros (hweights t rfl c) (hzero rfl)
    rw [← hskip]
    exact (t.rows c).admits_bounds hx
  | scale f =>
    have hfloat : elem.isInt = false := hscale rfl
    rw [get_eval, show elem.isInt = false from hfloat]
    simp only [Bool.false_and, Bool.false_eq_true, if_false, boundsAfter, wrappedBounds,
      Elem.max?_of_float hfloat]
    cases hf : f.isNegative with
    | true =>
      simp only [if_true, Quad.get_map, get_evalBounds, evalRaw, hfloat, Bool.false_eq_true,
        if_false]
      exact (hx c).mul_swap hf
    | false =>
      simp only [Bool.false_eq_true, if_false, get_evalBounds, evalRaw, hfloat, Quad.get_map]
      exact (hx c).map (Fraction.increasing_mul hf)
  | atMost bounds =>
    rw [get_eval_of_not_wraps rfl]
    simp only [boundsAfter, get_evalBounds, evalRaw, Quad.get_ofFn, Quad.get_zipWith, Quad.get_map]
    exact (hx c).atMost
  | atLeast bounds =>
    rw [get_eval_of_not_wraps rfl]
    simp only [boundsAfter, get_evalBounds, evalRaw, Quad.get_ofFn, Quad.get_zipWith, Quad.get_map]
    exact (hx c).atLeast
  | read | write | swapBytes | unpack | pack | shiftLeft | dither =>
    exact hverb.elim Bool.noConfusion Verb.noConfusion

/-! ## 3. Wrap-around -/

/-- **Operations that wrap around** carry bounds along if nothing wraps unseen. The effect before the
wrap-around is `f`; at `n` it gives `m`, and exactly it would be `y`. -/
theorem admits_wraps {f : Fraction → Fraction} {n m y : Nat} (hint : op.elem.isInt = true)
    (hwraps : op.kind.wraps = true) (heval : ∀ (v : Value) (c : Fin 4), (op.evalRaw v) c = f (v c))
    (hf : Fraction.Increasing f) (htotal : ∀ {q}, q.isDefined = true → (f q).isDefined = true)
    (hn : n < 2 ^ op.elem.bits) (hm : f (Fraction.ofNat n) = Fraction.ofNat m)
    (hmin : min y Fraction.limit ≤ m)
    (hlow : m ≤ 2 ^ op.elem.bits - 1 → (f (prev.bounds c).low).isDefined = true →
      (f (prev.bounds c).low).le (Fraction.ofNat y) = true)
    (hseen : ¬op.Overflows prev c) (hx : (prev.bounds c).Admits (Fraction.ofNat n)) :
    ((op.wrappedBounds prev.bounds) c).Admits (Fraction.ofNat (y % 2 ^ op.elem.bits)) := by
  have hpow : 2 ^ op.elem.bits - 1 + 1 = 2 ^ op.elem.bits :=
    Nat.sub_add_cancel (Nat.two_pow_pos _)
  have hbounds : (op.evalBounds prev.bounds) c = (prev.bounds c).map f := by
    rw [get_evalBounds, heval, heval, Quad.get_map, Quad.get_map]
    rfl
  have hadmits := hx.map hf
  rw [hm] at hadmits
  simp only [wrappedBounds, Elem.max?_of_isInt hint, Quad.get_map, hbounds]
  rw [← hpow]
  refine hadmits.wrapped ?_ hmin hlow fun hhigh hpos => ?_
  · have hle := op.elem.two_pow_bits_le
    have hlimit : (2 ^ 32 : Nat) ≤ Fraction.limit := by decide
    have := Nat.two_pow_pos op.elem.bits
    omega
  · -- the upper end is unknown, so the largest value of the element does not wrap around
    have hblind : (prev.bounds c).high.isDefined = false := by
      cases hd : (prev.bounds c).high.isDefined with
      | false => rfl
      | true =>
        rw [show ((prev.bounds c).map f).high = f (prev.bounds c).high from rfl, htotal hd] at hhigh
        cases hhigh
    have hfits : ¬(Fraction.ofNat (2 ^ op.elem.bits - 1)).lt
        (f (Fraction.ofNat (2 ^ op.elem.bits - 1))) = true := by
      intro hlt
      refine hseen ⟨hwraps, hblind, ?_, _, Elem.max?_of_isInt hint, ?_⟩
      · rw [hbounds]
        exact hpos
      · rw [heval, Quad.get_const]
        exact hlt
    have hmono := hf.mono (Fraction.le_ofNat_iff.mpr (Nat.le_sub_one_of_lt hn))
      (.inr (htotal (q := Fraction.ofNat (2 ^ op.elem.bits - 1)) rfl))
    rw [hm] at hmono
    exact Fraction.le_ofNat_iff.mp
      (Fraction.le_trans hmono ((Fraction.not_lt_iff rfl (Fraction.isDefined_right hmono)).mp hfits))

theorem admits_shiftLeft {k n : Nat} (hk : op.kind = .shiftLeft k) (hint : op.elem.isInt = true)
    (hbits : k < op.elem.bits) (hn : n < 2 ^ op.elem.bits) (hseen : ¬op.Overflows prev c)
    (hx : (prev.bounds c).Admits (Fraction.ofNat n)) :
    ((op.boundsAfter depths prev) c).Admits (Fraction.ofNat (n * 2 ^ k % 2 ^ op.elem.bits)) := by
  have hle := op.elem.bits_le
  have hfactor : Fraction.shiftFactor k = Fraction.ofInt (2 ^ k) := if_pos (by omega)
  have hneg : (Fraction.shiftFactor k).isNegative = false := by
    rw [hfactor]
    exact Fraction.isNegative_of_num (Int.le_of_lt (Int.pow_pos (by decide)))
  have hf := Fraction.increasing_mul hneg
  have hm := Fraction.mul_shiftFactor n (show k < 63 by omega)
  have hadmits := hx.map hf
  have hbounds : op.boundsAfter depths prev = op.wrappedBounds prev.bounds := by
    simp only [boundsAfter, hk]
  rw [hbounds]
  refine admits_wraps hint (by rw [hk]; rfl) (fun v c => ?_) hf
    (fun hq => Fraction.isDefined_mul hq (by rw [hfactor]; rfl)) hn hm (Nat.le_refl _)
    (fun htop hd => ?_) hseen hx
  · simp only [evalRaw, hk, Quad.get_map]
  · have hlimit : 2 ^ op.elem.bits - 1 < Fraction.limit := by
      have hpow := op.elem.two_pow_bits_le
      have hlimit : (2 ^ 32 : Nat) ≤ Fraction.limit := by decide
      have := Nat.two_pow_pos op.elem.bits
      omega
    have hsame : min (n * 2 ^ k) Fraction.limit = n * 2 ^ k := by omega
    rw [← hsame, ← hm]
    exact hadmits.1 hd

/-- Without a factor nothing is known. -/
theorem admits_scale_undefined {f q : Fraction} (hk : op.kind = .scale f)
    (hint : op.elem.isInt = true) (hdef : f.isDefined = false) :
    ((op.wrappedBounds prev.bounds) c).Admits q := by
  have hends : ∀ p : Fraction, (p * f).floor.isDefined = false := fun p =>
    Fraction.increasing_floor.strict (Fraction.mul_undefined_right hdef)
  simp only [wrappedBounds, Elem.max?_of_isInt hint, Quad.get_map, get_evalBounds, evalRaw, hk, hint,
    if_true, Bounds.wrapped]
  rw [if_neg (Fraction.not_lt_undefined (hends _)), Fraction.isNegative_of_undefined (hends _),
    Bool.false_or, if_neg (Fraction.not_lt_undefined (hends _))]
  refine ⟨fun hd => ?_, fun hd => ?_⟩
  · exact absurd hd (Bool.eq_false_iff.mp (hends _))
  · exact absurd hd (Bool.eq_false_iff.mp (hends _))

theorem admits_scale {f : Fraction} {n : Nat} (hk : op.kind = .scale f)
    (hint : op.elem.isInt = true) (hneg : f.isNegative = false) (hnum : f.num.natAbs < 2 ^ (32 : Nat))
    (hden : f.den < 2 ^ (32 : Nat)) (hn : n < 2 ^ op.elem.bits) (hseen : ¬op.Overflows prev c)
    (hlifts : ¬op.Lifts prev c) (hx : (prev.bounds c).Admits (Fraction.ofNat n)) :
    ((op.boundsAfter depths prev) c).Admits
      (Fraction.ofNat (n * f.num.natAbs / max f.den 1 % 2 ^ op.elem.bits)) := by
  have heval : ∀ (v : Value) (c : Fin 4), (op.evalRaw v) c = (v c * f).floor := by
    intro v c
    simp only [evalRaw, hk, Quad.get_map, hint, if_true]
  have hf := Fraction.increasing_floor.comp (Fraction.increasing_mul hneg)
  have hbounds : op.boundsAfter depths prev = op.wrappedBounds prev.bounds := by
    simp only [boundsAfter, hk, hneg, Bool.false_eq_true, if_false]
  rw [hbounds]
  cases hdef : f.isDefined with
  | false => exact admits_scale_undefined hk hint hdef
  | true =>
    have hdpos := Fraction.isDefined_iff.mp hdef
    have hnonneg := Fraction.num_nonneg hdef hneg
    rw [Nat.max_eq_left hdpos]
    have hm := Fraction.floor_ofNat_mul n hdpos hnonneg
    have hadmits := hx.map hf
    refine admits_wraps hint (by rw [hk]; rfl) heval hf (fun hq => ?_) hn hm
      (Fraction.le_wholePart _ hdpos) (fun htop hd => ?_) hseen hx
    · rw [Fraction.floor, if_pos (Fraction.isDefined_mul hq hdef)]
      rfl
    · by_cases he : op.elem = .u32
      · refine Fraction.floor_mul_le (hx.1 (hf.isDefined hd)) hdef hnonneg (Int.not_lt.mp ?_)
        intro hlt
        refine hlifts ⟨he, f, hk, ?_⟩
        rw [get_evalBounds, heval, Quad.get_map]
        exact hlt
      · have hfit : Fraction.TermsFit (n * f.num.natAbs) f.den :=
          Fraction.termsFit_of_le (Elem.mul_le_limit hint he hn (Nat.le_of_lt hnum))
            (Nat.le_trans (Nat.le_of_lt hden) (by decide))
        rw [← Fraction.wholePart_of_fits hfit, ← hm]
        exact hadmits.1 hd

end Op

end PixelConv
