import PixelConv.Proofs.Evaluation
import PixelConv.Proofs.Structure

/-!
# What the analysis knows is true

The analysis describes the contents of a pixel without running the operations. Main statements: a
component is known to be undefined exactly if it holds nothing (`Op.garbage_knownAfter`), and what it
holds lies between its bounds (`Op.encloses_boundsAfter`), after each operation and hence wherever
the simplifier looks (`Program.input_encloses`).
-/

namespace PixelConv

/-! ## 1. Undefined components -/

/-- Exactly the components that hold nothing are known to be undefined. -/
def TracksGarbage (known : Quad Known) (v : Content) : Prop :=
  ∀ i, (known i).garbage = (v i).isNone

@[simp] theorem Info.known_start (i : Fin 4) : Info.start.known i = Known.undefined :=
  Quad.get_const _ i

@[simp] theorem Info.bounds_start (i : Fin 4) : Info.start.bounds i = Bounds.unknown :=
  Quad.get_const _ i

/-- A bound forgets no garbage, and makes none. -/
@[simp] theorem Op.garbage_clamped (bound : Option Fraction) (k : Known) :
    (Op.knownAfter.clamped bound k).garbage = k.garbage := by
  unfold Op.knownAfter.clamped
  split
  · rfl
  · split <;> rfl

theorem Op.garbage_knownAfter {op : Op} (hop : op.isExact = true) (hw : ∀ l, op.kind ≠ .write l)
    {prev : Info} (src : Quad Nat) {v : Content} (h : TracksGarbage prev.known v) :
    TracksGarbage (op.knownAfter prev) (op.act src v) := by
  intro i
  have hi := h i
  have hmap : ∀ f : Nat → Nat, ((v i).map f).isNone = (v i).isNone := fun f => Option.isNone_map
  obtain ⟨elem, kind, info⟩ := op
  cases kind with
  | read l =>
    simp only [Op.knownAfter, Op.act, Quad.get_ofFn]
    by_cases hc : i.val < l.count
    · rw [if_pos hc, if_pos hc]
      cases elem <;> rfl
    · rw [if_neg hc, if_neg hc]
      exact hi
  | write l => exact absurd rfl (hw l)
  | clear values =>
    simp only [Op.knownAfter, Op.act, Quad.get_ofFn, Quad.get_zipWith]
    cases values i with
    | none => exact hi
    | some q =>
      simp only
      split
      · rfl
      · split
        · rfl
        · rfl
  | swizzle s =>
    simp only [Op.knownAfter, Op.act, Swizzle.get_apply]
    exact h _
  | convert target expand =>
    simp only [Op.knownAfter, Op.act, Quad.get_ofFn]
    rw [hmap, ← hi]
    split
    · rw [Quad.get_map]
      split
      · rfl
      · rfl
    · rfl
  | scale f =>
    simp only [Op.knownAfter, Op.act, Quad.get_ofFn]
    rw [hmap, ← hi]
    split
    · rfl
    · rw [Quad.get_map]
      rfl
  | atMost bounds | atLeast bounds =>
    simp only [Op.knownAfter, Op.act, Quad.get_ofFn, Quad.get_zipWith]
    rw [hmap, ← hi]
    exact Op.garbage_clamped _ _
  | swapBytes | shiftLeft | shiftRight =>
    simp only [Op.knownAfter, Op.act, Quad.get_ofFn]
    rw [hmap]
    exact hi
  | unpack | pack | dither | affine => cases hop

/-! ## 2. Bounds -/

namespace Bounds

/-- The bounds are natural numbers, and `n` lies between them. -/
def Encloses (b : Bounds) (n : Nat) : Prop :=
  ∃ lo hi, b = ⟨Fraction.ofNat lo, Fraction.ofNat hi⟩ ∧ lo ≤ n ∧ n ≤ hi

/-- Bounds that enclose a number are known. -/
theorem Encloses.isDefined {b : Bounds} {n : Nat} (h : b.Encloses n) :
    b.low.isDefined = true ∧ b.high.isDefined = true := by
  obtain ⟨lo, hi, rfl, -⟩ := h
  exact ⟨rfl, rfl⟩

theorem encloses_of_le {n top : Nat} (h : n ≤ top) :
    (⟨Fraction.zero, Fraction.ofNat top⟩ : Bounds).Encloses n := ⟨0, top, rfl, Nat.zero_le n, h⟩

theorem encloses_ofBits {n bits : Nat} (h : n < 2 ^ bits) : (ofBits bits).Encloses n := by
  refine ⟨0, 2 ^ bits - 1, ?_, Nat.zero_le n, Nat.le_sub_one_of_lt h⟩
  have hcast : ((2 ^ bits - 1 : Nat) : Int) = 2 ^ bits - 1 := by
    rw [Int.natCast_sub (Nat.two_pow_pos bits), Int.natCast_pow]
    rfl
  show (⟨Fraction.zero, Fraction.ofInt (2 ^ bits - 1)⟩ : Bounds) = ⟨_, Fraction.ofInt _⟩
  rw [hcast]
  rfl

/-- Bounds after a wrap-around: they are kept if the upper one is in range. -/
theorem encloses_wrapped {a b top n : Nat} (hn : n ≤ top) (h : b ≤ top → a ≤ n ∧ n ≤ b) :
    ((⟨Fraction.ofNat a, Fraction.ofNat b⟩ : Bounds).wrapped (Fraction.ofNat top)).Encloses n := by
  have hlt : ∀ x y : Nat, (Fraction.ofNat x).lt (Fraction.ofNat y) = decide (x < y) := fun x y =>
    (Fraction.lt_ofInt x y).trans (decide_eq_decide.mpr Int.ofNat_lt)
  have hneg : ∀ x : Nat, (Fraction.ofNat x).isNegative = false := fun x =>
    Fraction.isNegative_of_num (Int.natCast_nonneg x)
  have hkept : b ≤ top → (⟨Fraction.ofNat a, Fraction.ofNat b⟩ : Bounds).Encloses n := fun hle =>
    ⟨a, b, rfl, (h hle).1, (h hle).2⟩
  simp only [wrapped, hlt, decide_eq_true_eq]
  by_cases hab : b < a
  · simp only [if_pos hab, hneg, hlt, Bool.false_or, decide_eq_true_eq]
    by_cases htop : top < a
    · rw [if_pos htop]
      exact encloses_of_le hn
    · rw [if_neg htop]
      exact hkept (by omega)
  · simp only [if_neg hab, hneg, hlt, Bool.false_or, decide_eq_true_eq]
    by_cases htop : top < b
    · rw [if_pos htop]
      exact encloses_of_le hn
    · rw [if_neg htop]
      exact hkept (by omega)

end Bounds

/-- The constants that an operation sets are ones that its element holds. -/
def Op.ConstantsFit (op : Op) : Prop :=
  ∀ values, op.kind = .clear values → ∀ i q, values i = some q → op.elem.represents q = true

theorem Elem.represents_iff {e : Elem} (he : e.isInt = true) {q : Fraction} :
    e.represents q = true ↔ q = Fraction.ofNat (e.content q) ∧ e.content q < 2 ^ e.bits := by
  rw [represents, if_pos he, content]
  constructor
  · intro h
    obtain ⟨w, hw⟩ := Option.isSome_iff_exists.mp h
    rw [hw]
    exact (word?_eq_some_iff he).mp hw
  · cases hw : e.word? q with
    | some w => exact fun _ => rfl
    | none =>
      rintro ⟨hq, -⟩
      have hzero : e.word? q = some 0 := (word?_eq_some_iff he).mpr ⟨hq, Nat.two_pow_pos _⟩
      rw [hw] at hzero
      cases hzero

/-- What a read loads is in the range of its element and uses no more bits than the source does. -/
def SourceFits (src : Quad Nat) (depths : Option Depths) (op : Op) : Prop :=
  ∀ l, op.kind = .read l → ∀ i : Fin 4, i.val < l.count →
    src i < 2 ^ op.elem.bits ∧ src i < 2 ^ l.usedBits op.elem depths i

section Bounds

variable {op : Op} {prev : Info} {b : Bounds} {i : Fin 4} {n : Nat}

/-- The bounds after an operation that acts on each component alone, from an effect on natural
numbers that does not decrease. -/
theorem Op.encloses_evalBounds {f : Nat → Nat} (hf : ∀ m m', m ≤ m' → f m ≤ f m')
    (hraw : ∀ (x : Value) m, x i = Fraction.ofNat m → (op.evalRaw x) i = Fraction.ofNat (f m))
    (h : (prev.bounds i).Encloses n) : ((op.evalBounds prev.bounds) i).Encloses (f n) := by
  obtain ⟨lo, hi, hb, hlo, hhi⟩ := h
  refine ⟨f lo, f hi, ?_, hf lo n hlo, hf n hi hhi⟩
  simp only [evalBounds, Quad.get_ofFn]
  rw [hraw (prev.bounds.map Bounds.low) lo (by rw [Quad.get_map, hb]),
    hraw (prev.bounds.map Bounds.high) hi (by rw [Quad.get_map, hb])]

theorem Op.encloses_shiftLeft {k : Nat} (hk : op.kind = .shiftLeft k) (hint : op.elem.isInt = true)
    (hlim : k < op.elem.bits) (h : (prev.bounds i).Encloses n) :
    ((op.wrappedBounds prev.bounds) i).Encloses (n * 2 ^ k % 2 ^ op.elem.bits) := by
  have hbits := op.elem.bits_le
  have hraw : ∀ (x : Value) m, x i = Fraction.ofNat m →
      (op.evalRaw x) i = Fraction.ofNat (min (m * 2 ^ k) Fraction.limit) := by
    intro x m hx
    rw [Op.evalRaw, hk]
    simp only [Quad.get_map, hx]
    exact Fraction.mul_shiftFactor m (by omega)
  obtain ⟨lo, hi, hb, hlo, hhi⟩ := h
  have hlo' : lo * 2 ^ k ≤ n * 2 ^ k := Nat.mul_le_mul_right _ hlo
  have hhi' : n * 2 ^ k ≤ hi * 2 ^ k := Nat.mul_le_mul_right _ hhi
  have htop : 2 ^ op.elem.bits ≤ Fraction.limit :=
    Nat.le_trans op.elem.two_pow_bits_le (by decide)
  have hpos : 0 < 2 ^ op.elem.bits := Nat.two_pow_pos _
  simp only [wrappedBounds, Elem.max?_of_isInt hint, Quad.get_map, evalBounds, Quad.get_ofFn]
  rw [hraw (prev.bounds.map Bounds.low) lo (by rw [Quad.get_map, hb]),
    hraw (prev.bounds.map Bounds.high) hi (by rw [Quad.get_map, hb])]
  refine Bounds.encloses_wrapped (Nat.le_sub_one_of_lt (Nat.mod_lt _ hpos)) fun hle => ?_
  -- the upper bound is in range, so nothing wraps around
  rw [Nat.mod_eq_of_lt (by omega)]
  omega

theorem Op.encloses_scale {f : Fraction} (hk : op.kind = .scale f) (hint : op.elem.isInt = true)
    (hlim : op.InLimits) (hn : n < 2 ^ op.elem.bits) (h : (prev.bounds i).Encloses n) :
    ((op.wrappedBounds prev.bounds) i).Encloses
      (n * f.num.natAbs / f.den % 2 ^ op.elem.bits) := by
  rw [InLimits, hk] at hlim
  obtain ⟨hnum, hnlt, hden, hdlt, hwhole⟩ := hlim
  obtain ⟨lo, hi, hb, hlo, hhi⟩ := h
  have hraw : ∀ (x : Value) m, x i = Fraction.ofNat m →
      (op.evalRaw x) i = (Fraction.ofNat m * f).floor := by
    intro x m hx
    rw [Op.evalRaw, hk]
    simp only [Quad.get_map, hx, hint, if_true]
  have hbge := Fraction.le_wholePart (hi * f.num.natAbs) hden
  have hlo' : lo * f.num.natAbs ≤ n * f.num.natAbs := Nat.mul_le_mul_right _ hlo
  have hhi' : n * f.num.natAbs ≤ hi * f.num.natAbs := Nat.mul_le_mul_right _ hhi
  have hpos : 0 < 2 ^ op.elem.bits := Nat.two_pow_pos _
  have htop : 2 ^ op.elem.bits ≤ Fraction.limit :=
    Nat.le_trans op.elem.two_pow_bits_le (by decide)
  simp only [wrappedBounds, Elem.max?_of_isInt hint, Quad.get_map, evalBounds, Quad.get_ofFn]
  rw [hraw (prev.bounds.map Bounds.low) lo (by rw [Quad.get_map, hb]),
    hraw (prev.bounds.map Bounds.high) hi (by rw [Quad.get_map, hb]),
    Fraction.floor_ofNat_mul lo hden hnum, Fraction.floor_ofNat_mul hi hden hnum]
  refine Bounds.encloses_wrapped (Nat.le_sub_one_of_lt (Nat.mod_lt _ hpos)) fun hle => ?_
  have hquot : n * f.num.natAbs / f.den ≤ hi * f.num.natAbs / f.den := Nat.div_le_div_right hhi'
  rw [Nat.mod_eq_of_lt (by omega)]
  refine ⟨?_, by omega⟩
  -- so the product with the lower bound is within the limit and exact
  have hexact : lo * f.num.natAbs ≤ Fraction.limit := by
    by_cases he : op.elem = .u32
    · rw [hwhole he] at hquot hbge hle
      rw [Nat.div_one, Nat.div_one] at hquot
      rw [Nat.div_one] at hbge
      omega
    · exact Nat.le_trans hlo' (Elem.mul_le_limit hint he hn (by omega))
  rw [Fraction.wholePart_of_fits
    (Fraction.termsFit_of_le hexact (Nat.le_trans (Nat.le_of_lt hdlt) (by decide)))]
  exact Nat.div_le_div_right hlo'

/-- The number that an effective bound limits `m` to grows with `m`. -/
theorem Op.onComponent_mono {m m' : Nat} (hclamp : (∃ bounds, op.kind = .atMost bounds) ∨
    ∃ bounds, op.kind = .atLeast bounds) (h : m ≤ m') :
    op.onComponent i m ≤ op.onComponent i m' := by
  rcases hclamp with ⟨bounds, hk⟩ | ⟨bounds, hk⟩
  · simp only [onComponent, hk]
    cases op.elem.effectiveBound? true (bounds i) with
    | none => exact h
    | some b =>
      show min m _ ≤ min m' _
      omega
  · simp only [onComponent, hk]
    cases op.elem.effectiveBound? false (bounds i) with
    | none => exact h
    | some b =>
      show max m _ ≤ max m' _
      omega

/-- **What a component holds after an operation lies between its bounds.** -/
theorem Op.encloses_boundsAfter (hop : op.isExact = true) (hint : op.elem.isInt = true)
    (hlim : op.InLimits) (hconst : op.ConstantsFit) {src : Quad Nat} {depths : Option Depths}
    (hsrc : SourceFits src depths op) {v : Content} (hrange : InRange op.elem v)
    (h : ∀ i n, v i = some n → (prev.bounds i).Encloses n) (hn : (op.act src v) i = some n)
    (hw : ∀ l, op.kind ≠ .write l) : ((op.boundsAfter depths prev) i).Encloses n := by
  obtain ⟨elem, kind, info⟩ := op
  cases kind with
  | read l =>
    simp only [Op.act, Quad.get_ofFn] at hn
    simp only [Op.boundsAfter, Quad.get_ofFn]
    by_cases hc : i.val < l.count
    · rw [if_pos hc] at hn ⊢
      rw [if_pos hint]
      cases hn
      exact Bounds.encloses_ofBits (hsrc l rfl i hc).2
    · rw [if_neg hc] at hn ⊢
      exact h i n hn
  | write l => exact absurd rfl (hw l)
  | clear values =>
    simp only [Op.act, Quad.get_ofFn] at hn
    simp only [Op.boundsAfter, Op.evalBounds, Op.evalRaw, Quad.get_ofFn, Quad.get_zipWith,
      Quad.get_map]
    cases hv : values i with
    | none =>
      rw [hv] at hn
      exact h i n hn
    | some q =>
      rw [hv] at hn
      cases hn
      have hq := ((Elem.represents_iff hint).mp (hconst values rfl i q hv)).1
      exact ⟨_, _, by rw [Option.getD_some, Option.getD_some, ← hq], Nat.le_refl _, Nat.le_refl _⟩
  | swizzle s =>
    simp only [Op.act, Swizzle.get_apply] at hn
    simp only [Op.boundsAfter, Op.evalBounds, Op.evalRaw, Quad.get_ofFn, Swizzle.get_apply,
      Quad.get_map]
    exact h _ n hn
  | swapBytes =>
    simp only [Op.act, Quad.get_ofFn] at hn
    obtain ⟨m, hm, rfl⟩ := Option.map_eq_some_iff.mp hn
    simp only [Op.boundsAfter, Elem.max?_of_isInt hint]
    split
    · rw [Quad.get_const]
      exact Bounds.encloses_of_le (Nat.le_sub_one_of_lt (elem.reversed_lt m))
    · -- a single byte
      rename_i hsize
      have hbyte : elem = .u8 := by
        revert hsize
        cases elem <;> decide
      subst hbyte
      have hlt : m < 256 := hrange i m hm
      rw [show (Op.mk Elem.u8 Kind.swapBytes info).onComponent i m = m % 256 from rfl,
        Nat.mod_eq_of_lt hlt]
      exact h i m hm
  | shiftLeft k =>
    simp only [Op.act, Quad.get_ofFn] at hn
    obtain ⟨m, hm, rfl⟩ := Option.map_eq_some_iff.mp hn
    exact Op.encloses_shiftLeft rfl hint hlim (h i m hm)
  | shiftRight k =>
    have hk : k < elem.bits := hlim
    have hbits := elem.bits_le
    simp only [Op.act, Quad.get_ofFn] at hn
    obtain ⟨m, hm, rfl⟩ := Option.map_eq_some_iff.mp hn
    refine Op.encloses_evalBounds (f := (· / 2 ^ k)) (fun m m' hle => Nat.div_le_div_right hle)
      (fun x m hx => ?_) (h i m hm)
    simp only [Op.evalRaw, Quad.get_map, hx]
    exact Fraction.shiftRight_ofNat m (by omega)
  | convert target expand =>
    obtain ⟨hs, ht⟩ := (Bool.and_eq_true _ _).mp (hop : (elem.isInt && target.isInt) = true)
    simp only [Op.act, Quad.get_ofFn] at hn
    obtain ⟨m, hm, rfl⟩ := Option.map_eq_some_iff.mp hn
    refine Op.encloses_evalBounds
      (f := fun m => min (m * elem.spread target expand) (2 ^ target.bits - 1))
      (fun m m' hle => ?_) (fun x m hx => ?_) (h i m hm)
    · have := Nat.mul_le_mul_right (elem.spread target expand) hle
      show min (m * _) _ ≤ min (m' * _) _
      omega
    · simp only [Op.evalRaw, Quad.get_map, hx]
      exact Fraction.convert_ofNat hs ht expand m
  | scale f =>
    simp only [Op.act, Quad.get_ofFn] at hn
    obtain ⟨m, hm, rfl⟩ := Option.map_eq_some_iff.mp hn
    have hpos : f.isNegative = false := Fraction.isNegative_of_num hlim.1
    simp only [Op.boundsAfter, hpos, Bool.false_eq_true, if_false, Op.onComponent]
    rw [Nat.max_eq_left hlim.2.2.1]
    exact Op.encloses_scale rfl hint hlim (hrange i m hm) (h i m hm)
  | atMost bounds =>
    simp only [Op.act, Quad.get_ofFn] at hn
    obtain ⟨m, hm, rfl⟩ := Option.map_eq_some_iff.mp hn
    simp only [Op.boundsAfter, Quad.get_ofFn, (h i m hm).isDefined.1, Bool.not_true, Bool.and_false,
      Bool.false_eq_true, if_false]
    refine Op.encloses_evalBounds (fun m m' => Op.onComponent_mono (.inl ⟨bounds, rfl⟩))
      (fun x m hx => ?_) (h i m hm)
    simp only [Op.evalRaw, Quad.get_zipWith, hx]
    exact Fraction.clamp_ofNat hint true (bounds i) m
  | atLeast bounds =>
    simp only [Op.act, Quad.get_ofFn] at hn
    obtain ⟨m, hm, rfl⟩ := Option.map_eq_some_iff.mp hn
    simp only [Op.boundsAfter, Quad.get_ofFn, (h i m hm).isDefined.2, Bool.not_true, Bool.and_false,
      Bool.false_eq_true, if_false]
    refine Op.encloses_evalBounds (fun m m' => Op.onComponent_mono (.inr ⟨bounds, rfl⟩))
      (fun x m hx => ?_) (h i m hm)
    simp only [Op.evalRaw, Quad.get_zipWith, hx]
    exact Fraction.clamp_ofNat hint false (bounds i) m
  | unpack | pack | dither | affine => cases hop

end Bounds

/-! ## 3. Lists of operations -/

/-- What is known after operations, whether it is read or not. -/
def infoOf (depths : Option Depths) (prev : Info) (ops : List Op) : Info :=
  ops.foldl (fun prev op => op.infoAfter depths prev) prev

@[simp] theorem infoOf_cons (depths : Option Depths) (prev : Info) (op : Op) (ops : List Op) :
    infoOf depths prev (op :: ops) = infoOf depths (op.infoAfter depths prev) ops := rfl

section Lists

variable {depths : Option Depths} {src : Quad Nat}

/-- An operation that transfers nothing to memory and computes within the limits of the kernels. -/
structure Op.Regular (src : Quad Nat) (depths : Option Depths) (op : Op) : Prop where
  exact : op.isExact = true
  int : op.elem.isInt = true
  limits : op.InLimits
  constants : op.ConstantsFit
  source : SourceFits src depths op
  notWrite : ∀ l, op.kind ≠ .write l

theorem tracksGarbage_infoOf (depths : Option Depths) (src : Quad Nat) :
    ∀ {ops : List Op} (prev : Info) (v : Content),
    (∀ op ∈ ops, op.isExact = true ∧ ∀ l, op.kind ≠ .write l) → TracksGarbage prev.known v →
    TracksGarbage (infoOf depths prev ops).known (actAll src ops v)
  | [], _, _, _, h => h
  | op :: ops, prev, v, hops, h => by
    obtain ⟨hexact, hwrite⟩ := hops op List.mem_cons_self
    rw [infoOf_cons, actAll_cons]
    exact tracksGarbage_infoOf depths src _ _ (fun o ho => hops o (List.mem_cons_of_mem _ ho))
      (Op.garbage_knownAfter hexact hwrite src h)

theorem encloses_infoOf : ∀ {ops : List Op} {e : Elem} {prev : Info} {v : Content},
    (∀ op ∈ ops, op.Regular src depths) → TypedFrom e ops → InRange e v →
    TracksGarbage prev.known v → (∀ i n, v i = some n → (prev.bounds i).Encloses n) →
    ∀ i n, (actAll src ops v) i = some n → ((infoOf depths prev ops).bounds i).Encloses n
  | [], _, _, _, _, _, _, _, h => h
  | op :: ops, e, prev, v, hops, htyped, hrange, hgarbage, h => by
    have hop := hops op List.mem_cons_self
    have hrange' : InRange op.elem v := by
      rw [htyped.1]
      exact hrange
    have hgarbage' := Op.garbage_knownAfter hop.exact hop.notWrite src hgarbage
    rw [infoOf_cons, actAll_cons]
    refine encloses_infoOf (fun o ho => hops o (List.mem_cons_of_mem _ ho)) htyped.2
      (Op.act_inRange hop.exact (fun l hl i hi => (hop.source l hl i hi).1) hrange')
      hgarbage' fun i n hn => ?_
    have hdef : ((op.knownAfter prev) i).garbage = false := by
      rw [hgarbage' i, hn]
      rfl
    simp only [Op.infoAfter, Quad.get_ofFn, hdef, Bool.false_eq_true, if_false]
    exact Op.encloses_boundsAfter hop.exact hop.int hop.limits hop.constants hop.source hrange' h
      hn hop.notWrite

/-! ## 4. Where the simplifier looks -/

/-- An operation carries what is known after it about the components that are read. -/
theorem info_backward_forward : ∀ {ops : List Op} {prev : Info} {pre rest : List Op} {op : Op},
    (backward (forward depths prev ops)).1 = pre ++ op :: rest →
    op.info = (infoOf depths prev (pre ++ [op])).restrict (needed rest)
  | [], _, pre, _, _, h => by
    cases pre <;> cases h
  | o :: ops, prev, [], rest, op, h => by
    simp only [forward, backward_cons, List.nil_append, List.cons.injEq] at h
    obtain ⟨rfl, rfl⟩ := h
    rw [needed_congr (codes_backward _)]
    rfl
  | o :: ops, prev, a :: pre, rest, op, h => by
    simp only [forward, backward_cons, List.cons_append, List.cons.injEq] at h
    obtain ⟨rfl, h⟩ := h
    have ih := info_backward_forward h
    rw [List.cons_append, infoOf_cons, Op.infoAfter_congr (b := o) rfl]
    exact ih

end Lists

namespace Program

variable {p : Program} {pre rest : List Op} {op : Op}

theorem info_analyse (h : p.analyse.ops = pre ++ op :: rest) :
    op.info = (infoOf p.depths Info.start (pre ++ [op])).restrict (needed rest) :=
  info_backward_forward h

/-- Exactly the components that nothing reads are marked. -/
theorem unused_analyse (h : p.analyse.ops = pre ++ op :: rest) (i : Fin 4) :
    op.info.unused i = !needed rest i := by
  rw [info_analyse h]
  exact Quad.get_map _ _ i

/-- What a rule sees of the operations before a place: what is known about the components that are
read from there on. -/
theorem input_analyse (h : p.analyse.ops = pre ++ op :: rest) :
    (Site.mk pre.getLast? op rest).input = Info.start ∧ pre = [] ∨
    (Site.mk pre.getLast? op rest).input =
      (infoOf p.depths Info.start pre).restrict (needed (op :: rest)) := by
  rcases List.eq_nil_or_concat pre with rfl | ⟨front, last, rfl⟩
  · exact .inl ⟨rfl, rfl⟩
  · right
    rw [List.concat_eq_append] at h ⊢
    have hlast : (Site.mk (front ++ [last]).getLast? op rest).input = last.info := by
      rw [List.getLast?_concat]
      rfl
    rw [hlast]
    rw [List.append_assoc, List.singleton_append] at h
    exact info_analyse h

/-- A component that is known to be zero is read. -/
theorem needed_of_input_zero (h : p.analyse.ops = pre ++ op :: rest) {i : Fin 4}
    (hz : ((Site.mk pre.getLast? op rest).input.known i).zero = true) :
    needed (op :: rest) i = true := by
  rcases input_analyse h with ⟨hin, -⟩ | hin
  · rw [hin, Info.known_start] at hz
    cases hz
  · rw [hin] at hz
    simp only [Info.restrict, Quad.get_ofFn] at hz
    by_cases hn : needed (op :: rest) i = true
    · exact hn
    · rw [if_neg hn] at hz
      cases hz

/-- **What a component holds at a place lies between the bounds that a rule sees there.** -/
theorem input_encloses {src : Quad Nat} {e : Elem} (h : p.analyse.ops = pre ++ op :: rest)
    (hpre : ∀ o ∈ pre, o.Regular src p.depths) (htyped : TypedFrom e pre) {i : Fin 4} {n : Nat}
    (hi : needed (op :: rest) i = true) (hn : (actAll src pre (Quad.const none)) i = some n) :
    ((Site.mk pre.getLast? op rest).input.bounds i).Encloses n := by
  have hnone : ∀ j m, (Quad.const (none : Option Nat)) j = some m → False := by
    intro j m hm
    rw [Quad.get_const] at hm
    cases hm
  rcases input_analyse h with ⟨-, rfl⟩ | hin
  · exact absurd hn (hnone i n)
  · rw [hin]
    simp only [Info.restrict, Quad.get_ofFn, if_pos hi]
    refine encloses_infoOf hpre htyped (fun j m hm => absurd hm (hnone j m)) (fun j => ?_)
      (fun j m hm => absurd hm (hnone j m)) i n hn
    rw [Info.known_start, Quad.get_const]
    rfl

end Program

/-! ## 5. What may be written -/

namespace Program

theorem writesGarbage_eq {known : Quad Known} {l : Layout} (hl : l.count ≤ 4) :
    writesGarbage known l = .ok ((known.toList.take l.count).any Known.garbage) := by
  rw [writesGarbage, if_pos hl]

/-- The only write comes last, so the check looks at the operation before it. -/
theorem checkWritten_eq {before last : Op} {l : Layout} (hlast : last.kind = .write l)
    (hl : l.count ≤ 4) : ∀ (ops : List Op),
    (∀ op ∈ ops ++ [before], ∀ l, op.kind ≠ .write l) →
    checkWritten (ops ++ [before, last]) =
      .ok (if (before.info.known.toList.take l.count).any Known.garbage then
        .error .undefinedWrite else .ok ())
  | [], _ => by
    simp only [List.nil_append, checkWritten, hlast, writesGarbage_eq hl]
    cases (before.info.known.toList.take l.count).any Known.garbage <;> rfl
  | [a], hops => by
    have hb := hops before (List.mem_append_right _ (List.mem_singleton.mpr rfl))
    have ih := checkWritten_eq hlast hl [] fun op hop =>
      hops op (List.mem_append_right _ hop)
    rw [List.nil_append] at ih
    rw [← ih]
    show checkWritten (a :: before :: [last]) = _
    rw [checkWritten]
    split
    · rename_i hk
      exact absurd hk (hb _)
    · rfl
  | a :: b :: ops, hops => by
    have hb := hops b (List.mem_cons_of_mem _ List.mem_cons_self)
    rw [← checkWritten_eq hlast hl (b :: ops) fun op hop =>
      hops op (List.mem_cons_of_mem _ hop)]
    show checkWritten (a :: b :: (ops ++ [before, last])) = _
    rw [checkWritten]
    split
    · rename_i hk
      exact absurd hk (hb _)
    · rfl

/-- **The check finds no undefined component exactly if all components that are written hold
something.** -/
theorem Framed.checkWritten_iff {p : Program} {r w : Shape} {inner : List Op}
    (hp : p.analyse.Framed r w inner) (hexact : ∀ op ∈ inner, op.isExact = true) (src : Quad Nat) :
    checkWritten p.analyse.ops = .ok (.ok ()) ↔
      ∀ c : Fin 4, c.val < w.layout.count →
        ((actAll src p.ops (Quad.const none)) c).isSome = true := by
  obtain ⟨ri, wi, hops⟩ := hp.ops
  have hcount : w.layout.count ≤ 4 := (Layout.wellFormed_iff.mp hp.write).2.1
  have hpre : ∀ op ∈ Op.mk r.elem (.read r.layout) ri :: inner,
      op.isExact = true ∧ ∀ l, op.kind ≠ .write l := by
    intro op hop
    rcases List.mem_cons.mp hop with rfl | hop
    · exact ⟨rfl, fun l hl => Kind.noConfusion hl⟩
    · refine ⟨hexact op hop, fun l hl => ?_⟩
      have := hp.inner op hop
      rw [Op.transfer?, hl] at this
      cases this
  rw [← List.cons_append] at hops
  generalize Op.mk r.elem (.read r.layout) ri :: inner = pre at hops hpre
  have hwritten : ∀ c : Fin 4, c.val < w.layout.count → (actAll src p.ops (Quad.const none)) c =
      (actAll src pre (Quad.const none)) c := by
    intro c hc
    rw [← actAll_congr_codes src (codes_analyse p), hops, actAll_append]
    simp only [actAll_cons, actAll_nil, Op.act, Quad.get_ofFn, if_pos hc]
  have hgarbage := tracksGarbage_infoOf p.depths src Info.start (Quad.const none) hpre fun i => by
      rw [Info.known_start, Quad.get_const]
      rfl
  rcases List.eq_nil_or_concat pre with rfl | ⟨front, last, rfl⟩
  · have hlen := hp.length
    rw [hops, List.nil_append, List.length_singleton] at hlen
    omega
  · rw [List.concat_eq_append] at hops hpre hwritten hgarbage
    rw [List.append_assoc, List.singleton_append] at hops
    have hinfo := info_analyse hops
    rw [hops, checkWritten_eq rfl hcount front fun op hop => (hpre op hop).2]
    have hknown : ∀ c : Fin 4, c.val < w.layout.count → (last.info.known c).garbage =
        ((actAll src (front ++ [last]) (Quad.const none)) c).isNone := by
      intro c hc
      rw [← hgarbage c, hinfo]
      simp only [Info.restrict, Quad.get_ofFn, needed_cons, Op.needs, hc, decide_true, if_true]
    constructor
    · intro h c hc
      have hnone : ¬(last.info.known.toList.take w.layout.count).any Known.garbage = true := by
        intro hany
        rw [if_pos hany] at h
        cases h
      rw [hwritten c hc, ← Option.not_isNone, ← hknown c hc]
      cases hg : (last.info.known c).garbage with
      | false => rfl
      | true => exact absurd (Quad.any_take.mpr ⟨c, hc, hg⟩) hnone
    · intro h
      rw [if_neg]
      intro hany
      obtain ⟨c, hc, hg⟩ := Quad.any_take.mp hany
      have hsome := h c hc
      rw [hknown c hc] at hg
      rw [hwritten c hc, ← Option.not_isNone, hg] at hsome
      cases hsome

end Program

end PixelConv
