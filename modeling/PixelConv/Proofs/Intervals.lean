import PixelConv.Proofs.ContentBounds
import PixelConv.Proofs.Convergents
import PixelConv.Proofs.Zeros

/-!
# Bounds of which one end may be unknown

After a conversion from floats the bounds of an integer may be known on one side only.
`Bounds.Admits` says that a value lies within the ends that are known. An effect on a component that
keeps the order carries bounds along (`Bounds.Admits.map`), and so do sums and transforms. A
wrap-around does not: `Bounds.Admits.wrapped` says what has to be known about the values beyond an
unknown end.
-/

namespace PixelConv

/-- The value lies within the ends that are known. -/
def Bounds.Admits (b : Bounds) (q : Fraction) : Prop :=
  (b.low.isDefined = true → b.low.le q = true) ∧ (b.high.isDefined = true → q.le b.high = true)

namespace Fraction

/-! ## 1. Effects that keep the order -/

/-- Undefined values stay undefined, and the order of defined ones is kept as far as there are
results. -/
structure Increasing (f : Fraction → Fraction) : Prop where
  strict : ∀ {a}, a.isDefined = false → (f a).isDefined = false
  mono : ∀ {a b}, a.le b = true → (f a).isDefined = true ∨ (f b).isDefined = true →
    (f a).le (f b) = true

variable {a b q : Fraction} {f g : Fraction → Fraction}

theorem isDefined_left (h : a.le b = true) : a.isDefined = true := (le_eq_true_iff.mp h).1

theorem isDefined_right (h : a.le b = true) : b.isDefined = true := (le_eq_true_iff.mp h).2.1

theorem Increasing.isDefined (h : Increasing f) (hq : (f q).isDefined = true) :
    q.isDefined = true := by
  cases hd : q.isDefined with
  | true => rfl
  | false =>
    rw [h.strict hd] at hq
    cases hq

theorem Increasing.comp (hg : Increasing g) (hf : Increasing f) : Increasing fun q => g (f q) where
  strict h := hg.strict (hf.strict h)
  mono h hd := hg.mono (hf.mono h (hd.imp hg.isDefined hg.isDefined)) hd

theorem increasing_id : Increasing fun q => q := ⟨fun h => h, fun h _ => h⟩

theorem mul_undefined_left (h : a.isDefined = false) : (a * b).isDefined = false := by
  show (Fraction.mul a b).isDefined = false
  rw [Fraction.mul, h]
  rfl

theorem mul_undefined_right (h : b.isDefined = false) : (a * b).isDefined = false := by
  rw [mul_comm]
  exact mul_undefined_left h

theorem increasing_mul {c : Fraction} (hc : c.isNegative = false) : Increasing (· * c) where
  strict h := mul_undefined_left h
  mono h hd := by
    have hdef : c.isDefined = true := by
      cases hdc : c.isDefined with
      | true => rfl
      | false =>
        rw [mul_undefined_right hdc, mul_undefined_right hdc] at hd
        exact hd.elim Bool.noConfusion Bool.noConfusion
    exact mul_le_mul_right h hdef (num_nonneg hdef hc)

theorem increasing_floor : Increasing floor where
  strict h := by
    rw [floor, if_neg (Bool.eq_false_iff.mp h)]
    exact h
  mono h _ := floor_le_floor h

theorem increasing_trunc : Increasing trunc where
  strict h := by
    rw [trunc, if_neg (Bool.eq_false_iff.mp h)]
    exact h
  mono h _ := trunc_le_trunc h

theorem increasing_shiftRight (n : Nat) : Increasing (·.shiftRight n) where
  strict h := by
    rw [shiftRight, if_neg (Bool.eq_false_iff.mp h)]
    exact h
  mono h _ := by
    have hpow : (0 : Int) < 2 ^ n := Int.pow_pos (by decide)
    obtain ⟨ha, hb, hle⟩ := le_eq_true_iff.mp h
    rw [shiftRight, shiftRight, if_pos ha, if_pos hb]
    rw [isDefined_iff] at ha hb
    refine le_eq_true_iff.mpr ⟨rfl, rfl, Int.mul_le_mul_of_nonneg_right ?_ (Int.natCast_nonneg 1)⟩
    split
    · exact Int.ediv_le_ediv hpow (ediv_cross ha hb hle)
    · exact Int.le_refl 0

/-- A value that is not below another one is not negative if the other is not. -/
theorem num_nonneg_of_le (h : a.le b = true) (ha : 0 ≤ a.num) : 0 ≤ b.num := by
  obtain ⟨hda, -, hle⟩ := le_eq_true_iff.mp h
  refine Int.not_lt.mp fun hlt => ?_
  have hleft := Int.mul_nonneg ha (Int.natCast_nonneg b.den)
  have hpos : (0 : Int) < a.den := by exact_mod_cast isDefined_iff.mp hda
  have hright := Int.mul_neg_of_neg_of_pos hlt hpos
  omega

theorem zero_le_iff (ha : a.isDefined = true) : zero.le a = true ↔ 0 ≤ a.num := by
  rw [le_eq_true_iff]
  show (_ ∧ _ ∧ 0 * (a.den : Int) ≤ a.num * (1 : Nat)) ↔ _
  rw [Int.zero_mul, Int.natCast_one, Int.mul_one]
  exact ⟨fun h => h.2.2, fun h => ⟨rfl, ha, h⟩⟩

theorem not_lt_iff (ha : a.isDefined = true) (hb : b.isDefined = true) :
    ¬a.lt b = true ↔ b.le a = true := by
  rw [lt_eq_true_iff, le_eq_true_iff]
  constructor
  · exact fun h => ⟨hb, ha, Int.not_lt.mp fun hlt => h ⟨ha, hb, hlt⟩⟩
  · rintro ⟨-, -, hle⟩ ⟨-, -, hlt⟩
    omega

theorem le_of_lt (h : a.lt b = true) : a.le b = true := by
  obtain ⟨ha, hb, hlt⟩ := lt_eq_true_iff.mp h
  exact le_eq_true_iff.mpr ⟨ha, hb, Int.le_of_lt hlt⟩

theorem le_ofNat_iff {m n : Nat} : (ofNat m).le (ofNat n) = true ↔ m ≤ n := by
  rw [le_eq_true_iff]
  show (_ ∧ _ ∧ (m : Int) * (1 : Nat) ≤ n * (1 : Nat)) ↔ _
  rw [Int.natCast_one, Int.mul_one, Int.mul_one, Int.ofNat_le]
  exact ⟨fun h => h.2.2, fun h => ⟨rfl, rfl, h⟩⟩

theorem isNegative_of_undefined (h : a.isDefined = false) : a.isNegative = false := by
  show (a.isDefined && decide (a.num < 0)) = false
  rw [h]
  rfl

/-- Nothing is less than an undefined fraction. -/
theorem not_lt_undefined (h : b.isDefined = false) : ¬a.lt b = true := by
  intro hlt
  rw [(lt_eq_true_iff.mp hlt).2.1] at h
  cases h

theorem increasing_saturate (top : Nat) : Increasing (·.saturate (ofNat top)) where
  strict h := by
    rw [saturate, isNegative_of_undefined h, if_neg Bool.false_ne_true, if_neg (not_lt_undefined h)]
    exact h
  mono := by
    intro a b h _
    have htop : zero.le (ofNat top) = true := (zero_le_iff rfl).mpr (Int.natCast_nonneg top)
    have ha := isDefined_left h
    have hb := isDefined_right h
    -- the limits are zero and the top, and both are in order with a value between them
    have hbetween : ∀ {c : Fraction}, c.isDefined = true → ¬c.isNegative = true →
        zero.le c = true := fun hc hneg =>
      (zero_le_iff hc).mpr (num_nonneg hc (Bool.eq_false_iff.mpr hneg))
    unfold saturate
    by_cases hnegA : a.isNegative = true
    · rw [if_pos hnegA]
      split
      · exact le_refl rfl
      · split
        · exact htop
        · exact hbetween hb ‹_›
    · have hnegB : ¬b.isNegative = true := by
        rw [isNegative_of_num (num_nonneg_of_le h (num_nonneg ha (Bool.eq_false_iff.mpr hnegA)))]
        exact Bool.false_ne_true
      rw [if_neg hnegA, if_neg hnegB]
      by_cases hB : (ofNat top).lt b = true
      · rw [if_pos hB]
        split
        · exact le_refl rfl
        · exact (not_lt_iff rfl ha).mp ‹_›
      · have hA : ¬(ofNat top).lt a = true := by
          rw [not_lt_iff rfl ha]
          exact le_trans h ((not_lt_iff rfl hb).mp hB)
        rw [if_neg hA, if_neg hB]
        exact h

theorem increasing_convert (source target : Elem) (expand : Bool) :
    Increasing (convert source target expand) := by
  have hneg : (source.expansion target).isNegative = false := by
    cases source <;> cases target <;> decide
  have htrunc : Increasing fun q : Fraction => if target.isInt then q.trunc else q := by
    split
    · exact increasing_trunc
    · exact increasing_id
  have hexpand : Increasing fun q : Fraction =>
      if expand then q * source.expansion target else q := by
    split
    · exact increasing_mul hneg
    · exact increasing_id
  have hboth := hexpand.comp htrunc
  cases ht : target.isInt with
  | true =>
    have hlimit := (increasing_saturate (2 ^ target.bits - 1)).comp hboth
    unfold convert
    simp only [Elem.max?_of_isInt ht]
    exact hlimit
  | false =>
    unfold convert
    simp only [Elem.max?_of_float ht]
    exact hboth

end Fraction

/-! ## 2. Bounds along an effect -/

namespace Bounds.Admits

open Fraction

variable {b d : Bounds} {p q : Fraction} {f : Fraction → Fraction}

theorem unknown (q : Fraction) : Bounds.unknown.Admits q :=
  ⟨fun h => Bool.noConfusion h, fun h => Bool.noConfusion h⟩

theorem exactly (q : Fraction) : (Bounds.mk q q).Admits q := ⟨le_refl, le_refl⟩

/-- Bounds of an undefined value are unknown on both sides. -/
theorem of_undefined (h : b.Admits p) (hp : p.isDefined = false) (q : Fraction) : b.Admits q := by
  refine ⟨fun hd => ?_, fun hd => ?_⟩
  · exact absurd (isDefined_right (h.1 hd)) (Bool.eq_false_iff.mp hp)
  · exact absurd (isDefined_left (h.2 hd)) (Bool.eq_false_iff.mp hp)

theorem of_encloses {n : Nat} (h : b.Encloses n) : b.Admits (ofNat n) :=
  ⟨fun _ => h.le.2.2.1, fun _ => h.le.2.2.2⟩

/-- **An effect that keeps the order** carries bounds along. -/
theorem map (hf : Increasing f) (h : b.Admits q) : (b.map f).Admits (f q) :=
  ⟨fun hd => hf.mono (h.1 (hf.isDefined hd)) (.inl hd),
    fun hd => hf.mono (h.2 (hf.isDefined hd)) (.inr hd)⟩

/-- A negative factor exchanges the ends. -/
theorem mul_swap {c : Fraction} (hc : c.isNegative = true) (h : b.Admits q) :
    (b.map (· * c)).swap.Admits (q * c) := by
  have hneg : c.isDefined = true ∧ c.num < 0 := by
    have hc : (c.isDefined && decide (c.num < 0)) = true := hc
    rw [Bool.and_eq_true, decide_eq_true_iff] at hc
    exact hc
  have hend : ∀ {a : Fraction}, (a * c).isDefined = true → a.isDefined = true := by
    intro a ha
    cases hd : a.isDefined with
    | true => rfl
    | false =>
      rw [mul_undefined_left hd] at ha
      cases ha
  exact ⟨fun hd => mul_le_mul_of_neg (h.2 (hend hd)) hneg.1 (Int.le_of_lt hneg.2),
    fun hd => mul_le_mul_of_neg (h.1 (hend hd)) hneg.1 (Int.le_of_lt hneg.2)⟩

theorem add (h : b.Admits p) (h' : d.Admits q) :
    (Bounds.mk (b.low + d.low) (b.high + d.high)).Admits (p + q) := by
  have hends : ∀ {x y : Fraction}, (x + y).isDefined = true →
      x.isDefined = true ∧ y.isDefined = true := by
    intro x y hxy
    have hxy : (Fraction.add x y).isDefined = true := hxy
    unfold Fraction.add at hxy
    split at hxy
    · rename_i hd
      exact Bool.and_eq_true_iff.mp hd
    · cases hxy
  exact ⟨fun hd => add_le_add (h.1 (hends hd).1) (h'.1 (hends hd).2),
    fun hd => add_le_add (h.2 (hends hd).1) (h'.2 (hends hd).2)⟩

end Bounds.Admits

/-! ## 3. Clamps -/

namespace Fraction

variable {e : Elem} {bound : Option Fraction} {b q : Fraction}

/-- The bound that a clamp applies is defined. -/
theorem isDefined_effectiveBound? {upper : Bool} (h : e.effectiveBound? upper bound = some b) :
    b.isDefined = true := by
  cases he : e.isInt with
  | true =>
    rw [Elem.effectiveBound?_of_isInt he] at h
    obtain ⟨c, -, rfl⟩ := Option.map_eq_some_iff.mp h
    rfl
  | false =>
    unfold Elem.effectiveBound? at h
    rw [Elem.max?_of_float he] at h
    cases bound with
    | none => cases h
    | some c =>
      simp only at h
      split at h
      · cases h
        assumption
      · cases h

theorem clamp_of_none {upper : Bool} (h : e.effectiveBound? upper bound = none) :
    clamp e upper bound q = q := by
  unfold clamp
  rw [h]

theorem clamp_of_some {upper : Bool} (h : e.effectiveBound? upper bound = some b) :
    clamp e upper bound q =
      if !q.isDefined || (if upper then b.lt q else q.lt b) then b else q := by
  unfold clamp
  rw [h]

/-- A clamp keeps the order of defined values. -/
theorem clamp_le_clamp (upper : Bool) {p : Fraction} (h : p.le q = true) :
    (clamp e upper bound p).le (clamp e upper bound q) = true := by
  have hp := isDefined_left h
  have hq := isDefined_right h
  cases hb : e.effectiveBound? upper bound with
  | none =>
    rw [clamp_of_none hb, clamp_of_none hb]
    exact h
  | some b =>
    have hdb := isDefined_effectiveBound? hb
    rw [clamp_of_some hb, clamp_of_some hb, hp, hq, Bool.not_true, Bool.false_or, Bool.false_or]
    cases upper with
    | true =>
      simp only [if_true]
      by_cases hbq : b.lt q = true
      · rw [if_pos hbq]
        split
        · exact le_refl hdb
        · exact (not_lt_iff hdb hp).mp ‹_›
      · have hbp : ¬b.lt p = true := by
          rw [not_lt_iff hdb hp]
          exact le_trans h ((not_lt_iff hdb hq).mp hbq)
        rw [if_neg hbq, if_neg hbp]
        exact h
    | false =>
      simp only [Bool.false_eq_true, if_false]
      by_cases hpb : p.lt b = true
      · rw [if_pos hpb]
        split
        · exact le_refl hdb
        · exact (not_lt_iff hq hdb).mp ‹_›
      · have hqb : ¬q.lt b = true := by
          rw [not_lt_iff hq hdb]
          exact le_trans ((not_lt_iff hp hdb).mp hpb) h
        rw [if_neg hpb, if_neg hqb]
        exact h

/-- What a clamp gives is on the right side of its bound. -/
theorem clamp_within {upper : Bool} (h : e.effectiveBound? upper bound = some b) :
    if upper then (clamp e upper bound q).le b = true
      else b.le (clamp e upper bound q) = true := by
  have hdb := isDefined_effectiveBound? h
  rw [clamp_of_some h]
  cases hq : q.isDefined with
  | false =>
    simp only [Bool.not_false, Bool.true_or, if_true]
    split
    · exact le_refl hdb
    · exact le_refl hdb
  | true =>
    simp only [Bool.not_true, Bool.false_or]
    cases upper with
    | true =>
      simp only [if_true]
      split
      · exact le_refl hdb
      · exact (not_lt_iff hdb hq).mp ‹_›
    | false =>
      simp only [Bool.false_eq_true, if_false]
      split
      · exact le_refl hdb
      · exact (not_lt_iff hq hdb).mp ‹_›

/-- Nothing but an undefined value becomes the bound without being compared. -/
theorem clamp_of_undefined {upper : Bool} (hq : q.isDefined = false) :
    (clamp e upper bound q).isDefined = true →
      e.effectiveBound? upper bound = some (clamp e upper bound q) := by
  intro hd
  cases hb : e.effectiveBound? upper bound with
  | none =>
    rw [clamp_of_none hb, hq] at hd
    cases hd
  | some b => rw [clamp_of_some hb, hq, Bool.not_false, Bool.true_or, if_pos rfl]

end Fraction

namespace Bounds.Admits

open Fraction

variable {b : Bounds} {q : Fraction} {e : Elem} {bound : Option Fraction}

/-- An upper bound: an unknown lower end stays unknown, an unknown upper end becomes known. -/
theorem atMost (h : b.Admits q) :
    (if bound.isSome && !b.low.isDefined then
      { b.map (clamp e true bound) with low := Fraction.undefined }
      else b.map (clamp e true bound)).Admits (clamp e true bound q) := by
  have hhigh : (clamp e true bound b.high).isDefined = true →
      (clamp e true bound q).le (clamp e true bound b.high) = true := by
    intro hd
    cases hdh : b.high.isDefined with
    | true => exact clamp_le_clamp true (h.2 hdh)
    | false => exact clamp_within (clamp_of_undefined hdh hd)
  split
  · exact ⟨fun hd => Bool.noConfusion hd, hhigh⟩
  · rename_i hcond
    refine ⟨fun hd => ?_, hhigh⟩
    cases hdl : b.low.isDefined with
    | true => exact clamp_le_clamp true (h.1 hdl)
    | false =>
      -- without a bound nothing becomes known
      have hnone : bound = none := by
        rw [hdl, Bool.not_false, Bool.and_true] at hcond
        exact Option.not_isSome_iff_eq_none.mp hcond
      subst hnone
      have hd : b.low.isDefined = true := hd
      rw [hdl] at hd
      cases hd

/-- A lower bound: an unknown upper end stays unknown, an unknown lower end becomes known. -/
theorem atLeast (h : b.Admits q) :
    (if bound.isSome && !b.high.isDefined then
      { b.map (clamp e false bound) with high := Fraction.undefined }
      else b.map (clamp e false bound)).Admits (clamp e false bound q) := by
  have hlow : (clamp e false bound b.low).isDefined = true →
      (clamp e false bound b.low).le (clamp e false bound q) = true := by
    intro hd
    cases hdl : b.low.isDefined with
    | true => exact clamp_le_clamp false (h.1 hdl)
    | false => exact clamp_within (clamp_of_undefined hdl hd)
  split
  · exact ⟨hlow, fun hd => Bool.noConfusion hd⟩
  · rename_i hcond
    refine ⟨hlow, fun hd => ?_⟩
    cases hdh : b.high.isDefined with
    | true => exact clamp_le_clamp false (h.2 hdh)
    | false =>
      have hnone : bound = none := by
        rw [hdh, Bool.not_false, Bool.and_true] at hcond
        exact Option.not_isSome_iff_eq_none.mp hcond
      subst hnone
      have hd : b.high.isDefined = true := hd
      rw [hdh] at hd
      cases hd

end Bounds.Admits

/-! ## 4. Tiles and transforms -/

/-- A choice that is in order with both of its arguments leads to a value that is in order with a
whole list. -/
theorem Fraction.foldl_extreme {f : Fraction → Fraction → Fraction}
    {R : Fraction → Fraction → Prop} (hrefl : ∀ {a}, a.isDefined = true → R a a)
    (htrans : ∀ {a b c}, R a b → R b c → R a c)
    (hf : ∀ {a b}, a.isDefined = true → b.isDefined = true →
      (f a b).isDefined = true ∧ R (f a b) a ∧ R (f a b) b) :
    ∀ {l : List Fraction} {q : Fraction}, (∀ t ∈ q :: l, t.isDefined = true) →
      ∀ t ∈ q :: l, R (l.foldl f q) t
  | [], q, hdef, t, ht => by
    cases List.mem_singleton.mp ht
    exact hrefl (hdef q List.mem_cons_self)
  | a :: l, q, hdef, t, ht => by
    obtain ⟨hq, hdef⟩ := List.forall_mem_cons.mp hdef
    obtain ⟨ha, hl⟩ := List.forall_mem_cons.mp hdef
    obtain ⟨hfd, hfq, hfa⟩ := hf hq ha
    have hrest := foldl_extreme hrefl htrans hf (List.forall_mem_cons.mpr ⟨hfd, hl⟩)
    rcases List.mem_cons.mp ht with rfl | ht
    · exact htrans (hrest _ List.mem_cons_self) hfq
    · rcases List.mem_cons.mp ht with rfl | ht
      · exact htrans (hrest _ List.mem_cons_self) hfa
      · exact hrest t (List.mem_cons_of_mem _ ht)

/-- The entries of a tile lie between its smallest and its largest one. -/
theorem Dither.admits {d : Dither} (hdef : ∀ t ∈ d.entries, t.isDefined = true) {t : Fraction}
    (ht : t ∈ d.entries) : (Bounds.mk d.lowest d.highest).Admits t := by
  have hleast : ∀ {a b : Fraction}, a.isDefined = true → b.isDefined = true →
      (a.least b).isDefined = true ∧ (a.least b).le a = true ∧ (a.least b).le b = true := by
    intro a b ha hb
    unfold Fraction.least
    split
    · exact ⟨hb, Fraction.le_of_lt ‹_›, Fraction.le_refl hb⟩
    · exact ⟨ha, Fraction.le_refl ha, (Fraction.not_lt_iff hb ha).mp ‹_›⟩
  have hgreatest : ∀ {a b : Fraction}, a.isDefined = true → b.isDefined = true →
      (a.greatest b).isDefined = true ∧ a.le (a.greatest b) = true ∧
        b.le (a.greatest b) = true := by
    intro a b ha hb
    unfold Fraction.greatest
    split
    · exact ⟨hb, Fraction.le_of_lt ‹_›, Fraction.le_refl hb⟩
    · exact ⟨ha, Fraction.le_refl ha, (Fraction.not_lt_iff ha hb).mp ‹_›⟩
  have hdef : ∀ t ∈ d.entries.toList, t.isDefined = true := fun t ht =>
    hdef t (Array.mem_toList_iff.mp ht)
  have ht : t ∈ d.entries.toList := Array.mem_toList_iff.mpr ht
  unfold Dither.lowest Dither.highest
  cases hl : d.entries.toList with
  | nil =>
    rw [hl] at ht
    exact absurd ht List.not_mem_nil
  | cons q rest =>
    rw [hl] at hdef ht
    exact ⟨fun _ => Fraction.foldl_extreme (R := fun a b => a.le b = true) Fraction.le_refl
        Fraction.le_trans hleast hdef t ht,
      fun _ => Fraction.foldl_extreme (R := fun a b => b.le a = true) Fraction.le_refl
        (fun hab hbc => Fraction.le_trans hbc hab) hgreatest hdef t ht⟩

/-- A weight carries bounds along, and exchanges them if it is negative. -/
theorem Bounds.Admits.weighted {b : Bounds} {q : Fraction} (w : Fraction) (h : b.Admits q) :
    (Bounds.mk (w * (if w.isNegative then b.swap else b).low)
      (w * (if w.isNegative then b.swap else b).high)).Admits (w * q) := by
  rw [Fraction.mul_comm w, Fraction.mul_comm w, Fraction.mul_comm w]
  cases hw : w.isNegative with
  | true => exact h.mul_swap hw
  | false => exact h.map (Fraction.increasing_mul hw)

/-- **The bounds of a row** hold for its value without the inputs that are known to be zero. -/
theorem AffineRow.admits_bounds (r : AffineRow) {prev : Info} {x : Value}
    (hx : ∀ j, (prev.bounds j).Admits (x j)) :
    (r.bounds prev).Admits ((r.skipZeros prev.known).eval x) := by
  unfold AffineRow.bounds AffineRow.eval
  show (List.foldl _ (Bounds.mk r.offset r.offset) _).Admits (List.foldl _ r.offset _)
  -- the induction is on the inputs, with the sum and its bounds so far
  suffices hfold : ∀ (l : List (Fin 4)) {acc : Bounds} {sum : Fraction}, acc.Admits sum →
      (l.foldl (fun acc j =>
        if (r.weight j).isZero || (prev.known j).zero then acc
        else
          ⟨acc.low + r.weight j *
              (if (r.weight j).isNegative then (prev.bounds j).swap else prev.bounds j).low,
            acc.high + r.weight j *
              (if (r.weight j).isNegative then (prev.bounds j).swap else prev.bounds j).high⟩)
        acc).Admits
      (l.foldl (fun sum j => if ((r.skipZeros prev.known).weight j).isZero then sum
        else sum + (r.skipZeros prev.known).weight j * x j) sum) from
    hfold Quad.indices (.exactly r.offset)
  intro l
  induction l with
  | nil => exact fun h => h
  | cons j l ih =>
    intro acc sum h
    refine ih ?_
    have hweight : (r.skipZeros prev.known).weight j =
        if (prev.known j).zero then Fraction.zero else r.weight j := Quad.get_ofFn _ j
    simp only [hweight]
    cases (prev.known j).zero with
    | true =>
      rw [Bool.or_true, if_pos rfl, if_pos rfl]
      exact h
    | false =>
      rw [Bool.or_false, if_neg Bool.false_ne_true]
      split
      · exact h
      · have hsum := h.add ((hx j).weighted (r.weight j))
        exact hsum

/-! ## 5. Wrap-around -/

/-- A lower end whose product with a factor is not rounded up stays one of the whole part of the
product. -/
theorem Fraction.floor_mul_le {l f : Fraction} {n : Nat} (hl : l.le (ofNat n) = true)
    (hdef : f.isDefined = true) (hnonneg : 0 ≤ f.num)
    (h : (l * f).floor.num * (l.den * f.den) ≤ l.num * f.num) :
    (l * f).floor.le (ofNat (n * f.num.natAbs / f.den)) = true := by
  obtain ⟨hldef, -, hle⟩ := le_eq_true_iff.mp hl
  have hle : l.num * (1 : Nat) ≤ (n : Int) * l.den := hle
  have hfloor : (l * f).floor = ofInt ((l * f).num / (l * f).den) := by
    rw [floor, if_pos (isDefined_mul hldef hdef)]
  have hfpos : (0 : Int) < f.den := by exact_mod_cast isDefined_iff.mp hdef
  have hlpos : (0 : Int) < l.den := by exact_mod_cast isDefined_iff.mp hldef
  rw [hfloor] at h ⊢
  refine le_eq_true_iff.mpr ⟨rfl, rfl, ?_⟩
  generalize (l * f).num / ((l * f).den : Int) = k at h ⊢
  have h : k * (l.den * f.den) ≤ l.num * f.num := h
  show k * ((1 : Nat) : Int) ≤ ((n * f.num.natAbs / f.den : Nat) : Int) * ((1 : Nat) : Int)
  rw [Int.natCast_one, Int.mul_one, Int.mul_one, Int.natCast_ediv, Int.le_ediv_iff_mul_le hfpos,
    Int.natCast_mul, Int.natAbs_of_nonneg hnonneg]
  refine Int.le_of_mul_le_mul_right ?_ hlpos
  calc k * f.den * l.den = k * (l.den * f.den) := by rw [Int.mul_assoc, Int.mul_comm (f.den : Int)]
    _ ≤ l.num * f.num := h
    _ ≤ n * l.den * f.num := Int.mul_le_mul_of_nonneg_right (by omega) hnonneg
    _ = n * f.num * l.den := Int.mul_right_comm _ _ _

/-- **Bounds after a wrap-around.** The exact result `y` and its evaluation `m` differ only beyond
the limit, and where `m` is in range, `y` may be the smaller one. What lies beyond an unknown upper
end must not wrap around, unless nothing is known about the lower end that a wrapped value could
miss. -/
theorem Bounds.Admits.wrapped {b : Bounds} {m y top : Nat} (h : b.Admits (Fraction.ofNat m))
    (htop : top < Fraction.limit) (hmin : min y Fraction.limit ≤ m)
    (hlow : m ≤ top → b.low.isDefined = true → b.low.le (Fraction.ofNat y) = true)
    (hblind : b.high.isDefined = false → Fraction.zero.lt b.low = true → m ≤ top) :
    (b.wrapped (Fraction.ofNat top)).Admits (Fraction.ofNat (y % (top + 1))) := by
  have hrange : (Bounds.mk Fraction.zero (Fraction.ofNat top)).Admits
      (Fraction.ofNat (y % (top + 1))) :=
    .of_encloses (Bounds.encloses_of_le (Nat.le_of_lt_succ (Nat.mod_lt _ (Nat.succ_pos top))))
  have hinside : m ≤ top → y ≤ m ∧ y % (top + 1) = y := by
    intro hm
    have hy : y ≤ m := by omega
    exact ⟨hy, Nat.mod_eq_of_lt (by omega)⟩
  unfold Bounds.wrapped
  cases hhigh : b.high.isDefined with
  | true =>
    have hmhigh := h.2 hhigh
    have horder : ¬b.high.lt b.low = true := by
      intro hlt
      have hle := Fraction.le_trans (h.1 (Fraction.lt_eq_true_iff.mp hlt).2.1) hmhigh
      exact (Fraction.not_lt_iff hhigh (Fraction.isDefined_left hle)).mpr hle hlt
    rw [if_neg horder]
    simp only
    split
    · exact hrange
    · rename_i hcond
      rw [Bool.or_eq_true, not_or] at hcond
      have hm : m ≤ top := Fraction.le_ofNat_iff.mp
        (Fraction.le_trans hmhigh ((Fraction.not_lt_iff rfl hhigh).mp hcond.2))
      obtain ⟨hy, hmod⟩ := hinside hm
      rw [hmod]
      exact ⟨hlow hm, fun _ => Fraction.le_trans (Fraction.le_ofNat_iff.mpr hy) hmhigh⟩
  | false =>
    have horder : ¬b.high.lt b.low = true := by
      intro hlt
      rw [(Fraction.lt_eq_true_iff.mp hlt).1] at hhigh
      cases hhigh
    rw [if_neg horder]
    simp only
    split
    · exact hrange
    · refine ⟨fun hd => ?_, fun hd => ?_⟩
      · by_cases hpos : Fraction.zero.lt b.low = true
        · have hm := hblind hhigh hpos
          rw [(hinside hm).2]
          exact hlow hm hd
        · exact Fraction.le_trans ((Fraction.not_lt_iff rfl hd).mp hpos)
            (Fraction.le_ofNat_iff.mpr (Nat.zero_le _))
      · rw [hhigh] at hd
        cases hd

end PixelConv
