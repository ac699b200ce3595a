import PixelConv.Proofs.Blocks
import PixelConv.Proofs.Chains
import PixelConv.Proofs.Contents

/-!
# Registers hold the contents

The kernels that are chosen for exact operations compute, register by register, what the operations
do to contents. A kernel may spoil components that its operation marks as unused, so registers and
contents are compared where the rest of the program reads them. Main statement: as long as an
operation marks only components that nothing reads later (`MarksUnread`), a chain leaves in every
component that is read what the operations leave there (`Computes.holds`).
-/

namespace PixelConv

/-! ## 1. Words as numbers -/

namespace Word

/-- Words whose bits do not meet add up. -/
theorem toNat_or_of_dvd {x y : UInt32} {k : Nat} (hx : 2 ^ k ∣ x.toNat) (hy : y.toNat < 2 ^ k) :
    (x ||| y).toNat = x.toNat + y.toNat := by
  obtain ⟨c, hc⟩ := hx
  rw [UInt32.toNat_or, hc, Nat.mul_comm, ← Nat.shiftLeft_eq, Nat.shiftLeft_add_eq_or_of_lt hy]

theorem toNat_shiftLeft_of_lt {x n : UInt32} {k : Nat} (hn : n.toNat = k) (hk : k < 32)
    (h : x.toNat * 2 ^ k < 2 ^ (32 : Nat)) : (x <<< n).toNat = x.toNat * 2 ^ k := by
  rw [UInt32.toNat_shiftLeft, hn, Nat.mod_eq_of_lt hk, Nat.shiftLeft_eq]
  exact Nat.mod_eq_of_lt h

theorem toNat_swap16 (w : UInt32) : (swap16 w).toNat = Elem.u16.reversed w.toNat := by
  have h0 : (byte w 0).toNat = w.toNat % 256 := by
    rw [byte_eq w (by decide : 0 < 4) 0 rfl, Nat.pow_zero, Nat.div_one]
  have h1 : (byte w 8).toNat = w.toNat / 256 % 256 := byte_eq w (by decide : 1 < 4) 8 rfl
  have hlt0 := Nat.mod_lt w.toNat (by decide : 0 < 256)
  have hlt1 := Nat.mod_lt (w.toNat / 256) (by decide : 0 < 256)
  have hs0 : (byte w 0 <<< (8 : UInt32)).toNat = w.toNat % 256 * 2 ^ 8 := by
    rw [toNat_shiftLeft_of_lt (k := 8) rfl (by decide) (by omega), h0]
  unfold swap16
  rw [toNat_or_of_dvd (k := 8) ⟨w.toNat % 256, by omega⟩ (by omega), hs0, h1]
  rfl

theorem toNat_swap32 (w : UInt32) : (swap32 w).toNat = Elem.u32.reversed w.toNat := by
  have h0 : (byte w 0).toNat = w.toNat % 256 := by
    rw [byte_eq w (by decide : 0 < 4) 0 rfl, Nat.pow_zero, Nat.div_one]
  have h1 : (byte w 8).toNat = w.toNat / 256 % 256 := byte_eq w (by decide : 1 < 4) 8 rfl
  have h2 : (byte w 16).toNat = w.toNat / 65536 % 256 := byte_eq w (by decide : 2 < 4) 16 rfl
  have h3 : (byte w 24).toNat = w.toNat / 16777216 % 256 := byte_eq w (by decide : 3 < 4) 24 rfl
  have hlt0 := Nat.mod_lt w.toNat (by decide : 0 < 256)
  have hlt1 := Nat.mod_lt (w.toNat / 256) (by decide : 0 < 256)
  have hlt2 := Nat.mod_lt (w.toNat / 65536) (by decide : 0 < 256)
  have hlt3 := Nat.mod_lt (w.toNat / 16777216) (by decide : 0 < 256)
  have hs0 : (byte w 0 <<< (24 : UInt32)).toNat = w.toNat % 256 * 2 ^ 24 := by
    rw [toNat_shiftLeft_of_lt (k := 24) rfl (by decide) (by omega), h0]
  have hs1 : (byte w 8 <<< (16 : UInt32)).toNat = w.toNat / 256 % 256 * 2 ^ 16 := by
    rw [toNat_shiftLeft_of_lt (k := 16) rfl (by decide) (by omega), h1]
  have hs2 : (byte w 16 <<< (8 : UInt32)).toNat = w.toNat / 65536 % 256 * 2 ^ 8 := by
    rw [toNat_shiftLeft_of_lt (k := 8) rfl (by decide) (by omega), h2]
  have hor1 : ((byte w 0 <<< (24 : UInt32)) ||| (byte w 8 <<< (16 : UInt32))).toNat =
      (w.toNat % 256 * 256 + w.toNat / 256 % 256) * 2 ^ 16 := by
    rw [toNat_or_of_dvd (k := 24) ⟨w.toNat % 256, by omega⟩ (by omega), hs0, hs1]
    omega
  have hor2 : ((byte w 0 <<< (24 : UInt32)) ||| (byte w 8 <<< (16 : UInt32)) |||
      (byte w 16 <<< (8 : UInt32))).toNat =
      ((w.toNat % 256 * 256 + w.toNat / 256 % 256) * 256 + w.toNat / 65536 % 256) * 2 ^ 8 := by
    rw [toNat_or_of_dvd (k := 16) ⟨w.toNat % 256 * 256 + w.toNat / 256 % 256, by omega⟩ (by omega),
      hor1, hs2]
    omega
  unfold swap32
  rw [toNat_or_of_dvd (k := 8) ⟨(w.toNat % 256 * 256 + w.toNat / 256 % 256) * 256 +
    w.toNat / 65536 % 256, by omega⟩ (by omega), hor2, h3]
  rfl

theorem toNat_elemMask (e : Elem) : (Setup.elemMask e).toNat = 2 ^ e.bits - 1 := by
  cases e <;> rfl

theorem toNat_min (a b : UInt32) : (min a b).toNat = min a.toNat b.toNat := by
  show (if a ≤ b then a else b).toNat = _
  by_cases h : a ≤ b
  · rw [if_pos h, Nat.min_eq_left (UInt32.le_iff_toNat_le.mp h)]
  · rw [if_neg h]
    rw [UInt32.le_iff_toNat_le] at h
    omega

theorem toNat_max (a b : UInt32) : (max a b).toNat = max a.toNat b.toNat := by
  show (if a ≤ b then b else a).toNat = _
  by_cases h : a ≤ b
  · rw [if_pos h, Nat.max_eq_right (UInt32.le_iff_toNat_le.mp h)]
  · rw [if_neg h]
    rw [UInt32.le_iff_toNat_le] at h
    omega

end Word

/-! ## 2. Operations on each component alone -/

section Componentwise

variable {op : Op} {g : RegOp} {q : Pixel} {i : Fin 4} {n : Nat}

/-- An amount that a shift takes is below the width of the element. -/
theorem Setup.shiftAmount_eq_ok {k : Nat} {m : Fin 32} (h : Setup.shiftAmount op k = .ok m) :
    k < op.elem.bits ∧ m.val.toUInt32.toNat = k := by
  have hbits := op.elem.bits_le
  unfold Setup.shiftAmount at h
  split at h
  · cases h
  · rename_i hlt
    cases h
    refine ⟨Nat.not_le.mp hlt, ?_⟩
    show (Nat.toUInt32 (k % 32)).toNat = k
    rw [Nat.toUInt32, UInt32.toNat_ofNat']
    omega

theorem Setup.shift_holds {k : Nat} (hk : op.kind = .shiftLeft k ∨ op.kind = .shiftRight k)
    (h : Setup.shift op = .ok (.compute g)) (hq : (q i).toNat = n) (x y : Nat) :
    k < op.elem.bits ∧ ((g.apply x y q) i).toNat = op.onComponent i n := by
  have hbits := op.elem.bits_le
  unfold Setup.shift at h
  unfold Op.onComponent
  rcases hk with hk | hk
  · simp only [hk] at h ⊢
    obtain ⟨m, hm, hg⟩ := exists_of_map_eq_ok h
    obtain ⟨hlt, hm32⟩ := Setup.shiftAmount_eq_ok hm
    cases hg
    refine ⟨hlt, ?_⟩
    show ((q.map fun w => (w <<< m.val.toUInt32) &&& Setup.elemMask op.elem) i).toNat = _
    rw [Quad.get_map, UInt32.toNat_and, Word.toNat_elemMask, Nat.and_two_pow_sub_one_eq_mod,
      UInt32.toNat_shiftLeft, hm32, hq, Nat.mod_eq_of_lt (by omega : k < 32), Nat.shiftLeft_eq]
    exact Nat.mod_mod_of_dvd _ (Nat.pow_dvd_pow 2 hbits)
  · simp only [hk] at h ⊢
    obtain ⟨m, hm, hg⟩ := exists_of_map_eq_ok h
    obtain ⟨hlt, hm32⟩ := Setup.shiftAmount_eq_ok hm
    cases hg
    refine ⟨hlt, ?_⟩
    show ((q.map fun w => w >>> m.val.toUInt32) i).toNat = _
    rw [Quad.get_map, UInt32.toNat_shiftRight, hm32, hq, Nat.mod_eq_of_lt (by omega : k < 32),
      Nat.shiftRight_eq_div_pow]

/-- Widening by replication does not leave a word. -/
theorem Elem.mul_spread_lt (source target : Elem) (expand : Bool) (hs : source.isInt = true)
    (ht : target.isInt = true) (hn : n < 2 ^ source.bits) :
    n * source.spread target expand < 2 ^ (32 : Nat) := by
  have htop : (2 ^ source.bits - 1) * source.spread target expand < 2 ^ 32 := by
    revert hs ht
    cases source <;> cases target <;> cases expand <;> decide
  exact Nat.lt_of_le_of_lt (Nat.mul_le_mul_right _ (Nat.le_sub_one_of_lt hn)) htop

theorem Setup.convert_holds {target : Elem} {expand : Bool} (hk : op.kind = .convert target expand)
    (hs : op.elem.isInt = true) (ht : target.isInt = true)
    (h : Setup.convert op = .ok (.compute g)) (hq : (q i).toNat = n) (hn : n < 2 ^ op.elem.bits)
    (x y : Nat) : ((g.apply x y q) i).toNat = op.onComponent i n := by
  have hfactor : (Setup.wholeFactor (if expand then op.elem.expansion target else Fraction.one)).toNat
      = op.elem.spread target expand := by
    generalize op.elem = source at hs
    revert hs ht
    cases source <;> cases target <;> cases expand <;> decide
  have hmul := op.elem.mul_spread_lt target expand hs ht hn
  simp only [Setup.convert, hk, hs, ht] at h
  cases h
  unfold Op.onComponent
  simp only [hk]
  show ((q.map fun w => min (w * Setup.wholeFactor _) (Setup.elemMask target)) i).toNat = _
  rw [Quad.get_map, Word.toNat_min, Word.toNat_elemMask, UInt32.toNat_mul, hq, hfactor,
    Nat.mod_eq_of_lt hmul]

theorem Setup.scaleInt_holds {factor : Fraction} (hk : op.kind = .scale factor)
    (h : Setup.scaleInt op = .ok (.compute g)) (hq : (q i).toNat = n) (x y : Nat) :
    ((g.apply x y q) i).toNat = op.onComponent i n := by
  obtain ⟨top, htop, -, -, -, hg⟩ := Setup.scaleInt_eq_ok hk h
  cases hg
  have hint : op.elem.isInt = true := by
    unfold Elem.top? at htop
    split at htop
    · rename_i hi
      exact hi
    · cases htop
  rw [Elem.top?_of_isInt hint] at htop
  cases htop
  have hle := op.elem.two_pow_bits_le
  have hpos : 0 < 2 ^ op.elem.bits := Nat.two_pow_pos _
  unfold Op.onComponent
  simp only [hk]
  show ((q.map (Word.scale factor.num.natAbs factor.den (2 ^ op.elem.bits - 1))) i).toNat = _
  rw [Quad.get_map, Word.scale, hq, Nat.and_two_pow_sub_one_eq_mod, Nat.toUInt32,
    UInt32.toNat_ofNat']
  exact Nat.mod_eq_of_lt (Nat.lt_of_lt_of_le (Nat.mod_lt _ hpos) hle)

/-- The word of a clamp's bound. -/
theorem Setup.toNat_intBound (hint : op.elem.isInt = true) (upper : Bool) {b : Fraction}
    {bound : Option Fraction} (hb : op.elem.effectiveBound? upper bound = some b) :
    b.num.toNat.toUInt32.toNat = b.num.toNat := by
  rw [Elem.effectiveBound?_of_isInt hint] at hb
  obtain ⟨c, -, rfl⟩ := Option.map_eq_some_iff.mp hb
  have hle := op.elem.two_pow_bits_le
  have hpos : 0 < 2 ^ op.elem.bits := Nat.two_pow_pos _
  rw [Nat.toUInt32, UInt32.toNat_ofNat']
  refine Nat.mod_eq_of_lt ?_
  show (((min (Elem.wholeBound upper c).toNat (2 ^ op.elem.bits - 1) : Nat) : Int)).toNat < _
  rw [Int.toNat_natCast]
  omega

theorem Setup.clampInt_holds {bounds : Constants}
    (hk : op.kind = .atMost bounds ∨ op.kind = .atLeast bounds) (hint : op.elem.isInt = true)
    (h : Setup.clampInt op = .ok (.compute g)) (hq : (q i).toNat = n) (x y : Nat) :
    ((g.apply x y q) i).toNat = op.onComponent i n := by
  unfold Setup.clampInt at h
  unfold Op.onComponent
  rcases hk with hk | hk
  · simp only [hk] at h ⊢
    cases h
    show ((RegOp.onSome (fun b w => min w b) (Setup.intBounds op true bounds) q) i).toNat = _
    simp only [RegOp.onSome, Setup.intBounds, Quad.get_zipWith, Quad.get_map]
    cases hb : op.elem.effectiveBound? true (bounds i) with
    | none => exact hq
    | some b =>
      show (min (q i) b.num.toNat.toUInt32).toNat = min n b.num.toNat
      rw [Word.toNat_min, hq, Setup.toNat_intBound hint true hb]
  · simp only [hk] at h ⊢
    cases h
    show ((RegOp.onSome (fun b w => max w b) (Setup.intBounds op false bounds) q) i).toNat = _
    simp only [RegOp.onSome, Setup.intBounds, Quad.get_zipWith, Quad.get_map]
    cases hb : op.elem.effectiveBound? false (bounds i) with
    | none => exact hq
    | some b =>
      show (max (q i) b.num.toNat.toUInt32).toNat = max n b.num.toNat
      rw [Word.toNat_max, hq, Setup.toNat_intBound hint false hb]

end Componentwise

/-! ## 3. Operations that move contents -/

/-- Constants as words: each is the word that its element has for it. -/
theorem Constants.words?_eq_some {e : Elem} {values words : Constants}
    (h : values.words? e = some words) (i : Fin 4) :
    values i = none ∧ words i = none ∨
      ∃ q w, values i = some q ∧ e.word? q = some w ∧ words i = some (Fraction.ofWord w) := by
  unfold Constants.words? at h
  simp only at h
  split at h
  · rename_i hall
    cases h
    have hi := Quad.get_of_all hall i
    simp only [Quad.get_map] at hi ⊢
    cases hv : values i with
    | none => exact .inl ⟨rfl, rfl⟩
    | some q =>
      rw [hv] at hi
      obtain ⟨w, hw⟩ := Option.isSome_iff_exists.mp hi
      exact .inr ⟨q, w, rfl, hw, by simp only [Option.map_some, Option.bind_some, id, hw]⟩
  · cases h

theorem Fraction.eq_of_ofWord_eq {w : UInt32} {n : Nat}
    (h : Fraction.ofWord w = Fraction.ofNat n) : w = UInt32.ofNat n := by
  have hnum : (w.toNat : Int) = n := congrArg Fraction.num h
  rw [← Int.ofNat_inj.mp hnum, UInt32.ofNat_toNat]

/-- Every word stands for itself. -/
theorem Elem.word?_ofWord (w : UInt32) : Elem.u32.word? (Fraction.ofWord w) = some w := by
  refine (Elem.word?_eq_some_iff rfl).mpr ⟨rfl, ?_⟩
  rw [show Elem.u32.bits = 32 from rfl]
  exact w.toNat_lt

theorem Setup.clearWord_some {e : Elem} {q : Fraction} {w : UInt32} (h : e.word? q = some w) :
    Setup.clearWord e (some q) = .ok (some w) := by
  simp only [Setup.clearWord, h]

section Moving

variable {op word : Op} {g : RegOp}

/-- The kernel that is chosen for constants sets the words that they stand for, in the components
that are not marked as unused. -/
theorem Chosen.clear_words {values : Constants} (hk : op.kind = .clear values)
    (hop : op.onWords = .ok word) (hg : Chosen word (.compute g) 0 0) :
    ∃ ws, g = .clear ws ∧ ∀ i, op.info.unused i = false →
      values i = none ∧ ws i = none ∨
        ∃ q w, values i = some q ∧ op.elem.word? q = some w ∧ ws i = some w := by
  obtain ⟨words, hwords, rfl⟩ := onWords_clear hk hop
  cases hg with
  | generic hs hkern =>
    cases hs
    obtain ⟨ws, hws, hg⟩ := exists_of_map_eq_ok hkern
    cases hg
    refine ⟨ws, rfl, fun i _ => ?_⟩
    have hi : Setup.clearWord .u32 (words i) = .ok (ws i) := Quad.ofFnM_eq_ok_iff.mp hws i
    rcases Constants.words?_eq_some hwords i with ⟨hv, hw⟩ | ⟨q, w, hv, hq, hw⟩
    · rw [hw] at hi
      exact .inl ⟨hv, (Except.ok.inj hi).symm⟩
    · rw [hw, Setup.clearWord_some (Elem.word?_ofWord w)] at hi
      exact .inr ⟨q, w, hv, hq, (Except.ok.inj hi).symm⟩
  | @clearAlpha values' words' hk' hw' hsame =>
    cases hk'
    refine ⟨_, rfl, fun i hi => ?_⟩
    have hsame := hsame i hi
    rcases Constants.words?_eq_some hw' i with ⟨hv', hw'⟩ | ⟨q', w', hv', hq', hw'⟩
    · rcases Constants.words?_eq_some hwords i with ⟨hv, -⟩ | ⟨q, w, -, -, hw⟩
      · refine .inl ⟨hv, ?_⟩
        rw [hw'] at hsame
        match i with
        | 0 | 1 | 2 => rfl
        | 3 => cases hsame
      · rw [hw] at hv'
        cases hv'
    · rcases Constants.words?_eq_some hwords i with ⟨-, hw⟩ | ⟨q, w, hv, hq, hw⟩
      · rw [hw] at hv'
        cases hv'
      · rw [hw, Option.some.injEq] at hv'
        subst hv'
        rw [Elem.word?_ofWord w, Option.some.injEq] at hq'
        subst hq'
        rw [hw'] at hsame
        refine .inr ⟨q, w, hv, hq, ?_⟩
        match i with
        | 0 | 1 | 2 => cases hsame
        | 3 =>
          rw [Fraction.eq_of_ofWord_eq (Option.some.inj hsame)]
          rfl
  | swapEnds hk' | toUnit hk' | dot3 hk' => cases hk'

/-- The kernel that is chosen for a swizzle copies the components that it names, in the components
that are not marked as unused. -/
theorem Chosen.swizzle_source {s : Swizzle} (hk : op.kind = .swizzle s)
    (hop : op.onWords = .ok word) (hg : Chosen word (.compute g) 0 0) :
    ∃ source, g = .swizzle source ∧ ∀ i, op.info.unused i = false → source i = s.source i := by
  obtain ⟨elem, kind, info⟩ := op
  cases hk
  cases hop
  cases hg with
  | generic hs hkern =>
    cases hs
    cases hkern
    exact ⟨_, rfl, fun i _ => Quad.get_ofFn _ i⟩
  | @swapEnds s' hk' hsame =>
    cases hk'
    refine ⟨_, rfl, fun i hi => ?_⟩
    unfold Swizzle.source
    rw [hsame i hi]
    match i with
    | 0 | 1 | 2 | 3 => rfl
  | clearAlpha hk' | toUnit hk' | dot3 hk' => cases hk'

end Moving

/-! ## 4. Chains -/

/-- An operation marks as unused only components that the operations after it do not read. -/
def MarksUnread : List Op → Prop
  | [] => True
  | op :: ops => (∀ i, op.info.unused i = true → needed ops i = false) ∧ MarksUnread ops

/-- The analysis marks exactly the components that nothing reads. -/
theorem marksUnread_backward : ∀ ops : List Op, MarksUnread (backward ops).1
  | [] => True.intro
  | op :: ops => by
    refine ⟨fun i hi => ?_, marksUnread_backward ops⟩
    simp only [Info.restrict, Quad.get_map, Bool.not_eq_true'] at hi
    rw [needed_congr (codes_backward ops)]
    exact hi

theorem Program.marksUnread_analyse (p : Program) : MarksUnread p.analyse.ops :=
  marksUnread_backward _

/-- The registers hold the contents of the components of `on`. -/
def HeldIn (on : Quad Bool) (v : Content) (q : Pixel) : Prop :=
  ∀ i, on i = true → ∀ n, v i = some n → (q i).toNat = n

/-- The kernel of an operation on each component alone. -/
theorem Chosen.onComponent {op : Op} {g : RegOp} (hg : Chosen op (.compute g) 0 0)
    (hexact : op.isExact = true) (hverb : op.verb.isComponentwise = true) {q : Pixel} {i : Fin 4}
    {n : Nat} (hq : (q i).toNat = n) (hn : n < 2 ^ op.elem.bits) (x y : Nat) :
    ((g.apply x y q) i).toNat = op.onComponent i n := by
  cases hg with
  | @generic setup _ hs hk =>
    obtain ⟨elem, kind, info⟩ := op
    cases kind with
    | swapBytes =>
      cases elem with
      | u8 => cases hs
      | u16 =>
        cases hs
        cases hk
        show ((q.map Word.swap16) i).toNat = _
        rw [Quad.get_map, Word.toNat_swap16, hq]
        rfl
      | u32 | f32 =>
        cases hs
        cases hk
        show ((q.map Word.swap32) i).toNat = _
        rw [Quad.get_map, Word.toNat_swap32, hq]
        rfl
    | shiftLeft k =>
      rw [Op.generic?_shift hexact (.inl rfl)] at hs
      cases hs
      exact (Setup.shift_holds (.inl rfl) hk hq x y).2
    | shiftRight k =>
      rw [Op.generic?_shift hexact (.inr rfl)] at hs
      cases hs
      exact (Setup.shift_holds (.inr rfl) hk hq x y).2
    | convert target expand =>
      cases hs
      have hboth : elem.isInt = true ∧ target.isInt = true := Bool.and_eq_true_iff.mp hexact
      exact Setup.convert_holds rfl hboth.1 hboth.2 hk hq hn x y
    | scale factor =>
      rw [Op.generic?_scale hexact rfl] at hs
      cases hs
      exact Setup.scaleInt_holds rfl hk hq x y
    | atMost bounds =>
      rw [Op.generic?_clamp hexact (.inl rfl)] at hs
      cases hs
      exact Setup.clampInt_holds (.inl rfl) hexact hk hq x y
    | atLeast bounds =>
      rw [Op.generic?_clamp hexact (.inr rfl)] at hs
      cases hs
      exact Setup.clampInt_holds (.inr rfl) hexact hk hq x y
    | read | write | unpack | pack | clear | swizzle | affine => cases hverb
    | dither => cases hexact
  | clearAlpha hk | swapEnds hk | dot3 hk =>
    rw [Op.verb, hk] at hverb
    cases hverb
  | toUnit hk he =>
    rw [Op.isExact, hk, he] at hexact
    cases hexact

theorem Op.act_componentwise {op : Op} (h : op.verb.isComponentwise = true) (src : Quad Nat)
    (v : Content) (i : Fin 4) : (op.act src v) i = (v i).map (op.onComponent i) := by
  obtain ⟨elem, kind, info⟩ := op
  cases kind <;> first | exact Quad.get_ofFn _ i | cases h

theorem onWords_componentwise {op word : Op} (h : op.verb.isComponentwise = true)
    (hop : op.onWords = .ok word) : word = op := by
  obtain ⟨elem, kind, info⟩ := op
  cases kind <;> first | exact (Except.ok.inj hop).symm | cases h

/-- **One kernel of a chain**: registers that hold what the operation reads hold afterwards what is
read of it. -/
theorem Chosen.heldIn {op word : Op} {g : RegOp} (hop : op.onWords = .ok word)
    (hg : Chosen word (.compute g) 0 0) (hexact : op.isExact = true)
    (hinner : op.transfer? = none) {out : Quad Bool}
    (hmarks : ∀ i, op.info.unused i = true → out i = false) {v : Content} {q : Pixel}
    (hrange : InRange op.elem v) (hv : HeldIn (op.needs out) v q) (src : Quad Nat) (x y : Nat) :
    HeldIn out (op.act src v) (g.apply x y q) := by
  intro i hi n hn
  have hused : op.info.unused i = false := by
    cases hu : op.info.unused i with
    | false => rfl
    | true => rw [hmarks i hu] at hi; cases hi
  by_cases hverb : op.verb.isComponentwise = true
  · rw [onWords_componentwise hverb hop] at hg
    rw [Op.needs_componentwise hverb] at hv
    rw [Op.act_componentwise hverb] at hn
    obtain ⟨m, hm, rfl⟩ := Option.map_eq_some_iff.mp hn
    exact hg.onComponent hexact hverb (hv i hi m hm) (hrange i m hm) x y
  cases hk : op.kind with
  | clear values =>
    obtain ⟨ws, rfl, hws⟩ := Chosen.clear_words hk hop hg
    simp only [Op.act, hk, Quad.get_ofFn] at hn
    show ((RegOp.onSome (fun v _ => v) ws q) i).toNat = n
    simp only [RegOp.onSome, Quad.get_zipWith]
    rcases hws i hused with ⟨hnone, hw⟩ | ⟨c, w, hsome, hword, hw⟩
    · rw [hnone] at hn
      rw [hw]
      refine hv i ?_ n hn
      simp only [Op.needs, hk, Quad.get_ofFn]
      rw [hi, hnone]
      rfl
    · rw [hsome] at hn
      rw [hw]
      simp only [Option.some.injEq, Elem.content, hword] at hn
      exact hn
  | swizzle s =>
    obtain ⟨source, rfl, hsource⟩ := Chosen.swizzle_source hk hop hg
    simp only [Op.act, hk, Swizzle.get_apply] at hn
    show ((source.map q.get) i).toNat = n
    rw [Quad.get_map, hsource i hused]
    refine hv _ ?_ n hn
    simp only [Op.needs, hk, Quad.get_ofFn]
    exact Swizzle.reads_source hi
  | read | write =>
    rw [Op.transfer?, hk] at hinner
    cases hinner
  | unpack | pack | dither | affine =>
    rw [Op.isExact, hk] at hexact
    cases hexact
  | swapBytes | shiftLeft | shiftRight | convert | scale | atMost | atLeast =>
    exact absurd (by rw [Op.verb, hk]; rfl) hverb

/-- **A chain of kernels**: registers that hold what the operations read hold afterwards what is read
of them. -/
theorem Computes.heldIn {ops : List Op} {gs : List RegOp} (h : Computes ops gs) {rest : List Op}
    {e : Elem} (hmarks : MarksUnread (ops ++ rest)) (htyped : TypedFrom e (ops ++ rest))
    (hexact : ∀ op ∈ ops, op.isExact = true) (hinner : ∀ op ∈ ops, op.transfer? = none)
    {v : Content} {q : Pixel} (hrange : InRange e v) (hv : HeldIn (needed (ops ++ rest)) v q)
    (src : Quad Nat) (x y : Nat) :
    HeldIn (needed rest) (actAll src ops v) (RegOp.applyAll gs x y q) := by
  induction h generalizing e v q with
  | nil => exact hv
  | @cons op word ops g gs hop hg _ ih =>
    have hin : InRange op.elem v := by
      rw [htyped.1]
      exact hrange
    have hop_exact := hexact op List.mem_cons_self
    have hop_inner := hinner op List.mem_cons_self
    refine ih hmarks.2 htyped.2 (fun o ho => hexact o (List.mem_cons_of_mem _ ho))
      (fun o ho => hinner o (List.mem_cons_of_mem _ ho)) ?_ ?_
    · refine Op.act_inRange hop_exact (fun l hl => ?_) hin
      rw [Op.transfer?, hl] at hop_inner
      cases hop_inner
    · exact Chosen.heldIn hop hg hop_exact hop_inner hmarks.1 hin hv src x y

end PixelConv
