import PixelConv.Proofs.DerivedBounds
import PixelConv.Proofs.Gathering

/-!
# Bounds of a packed element

The analysis gathers the lower ends of four components into the lower end of the packed element, and
the upper ends into the upper one. A field takes in only the low bits of a number, and these are not
in the order of the numbers: sixteen has smaller low bits than eight. `BitField.EndsBound` says when
the low bits of an interval stay between those of its ends. Main statement: the bounds of the packed
element are right for every choice of components exactly if this holds of every field
(`Op.pack_bounds_iff`).
-/

namespace PixelConv

/-! ## 1. Sums of four numbers -/

namespace Quad

theorem sum_eq (t : Quad Nat) : t.toList.sum = t 0 + t 1 + t 2 + t 3 := by
  show t 0 + (t 1 + (t 2 + (t 3 + 0))) = _
  omega

theorem sum_le_sum {s t : Quad Nat} (h : ∀ i, s i ≤ t i) : s.toList.sum ≤ t.toList.sum := by
  rw [sum_eq, sum_eq]
  exact Nat.add_le_add (Nat.add_le_add (Nat.add_le_add (h 0) (h 1)) (h 2)) (h 3)

/-- Sums that differ in one number only are in the order of that number. -/
theorem le_of_sum_le {s t : Quad Nat} {i : Fin 4} (hrest : ∀ j, j ≠ i → t j = s j)
    (h : s.toList.sum ≤ t.toList.sum) : s i ≤ t i := by
  refine Nat.le_of_not_lt fun hlt => Nat.not_lt.mpr h ?_
  have hle : ∀ j, t j ≤ s j := by
    intro j
    by_cases hj : j = i
    · rw [hj]
      exact Nat.le_of_lt hlt
    · exact Nat.le_of_eq (hrest j hj)
  have h0 := hle 0
  have h1 := hle 1
  have h2 := hle 2
  have h3 := hle 3
  rw [sum_eq, sum_eq]
  match i with
  | 0 | 1 | 2 | 3 => omega

end Quad

namespace BitField

/-! ## 2. Low bits of an interval -/

/-- The low bits of the numbers from `lo` to `hi` stay between those of the ends: the numbers have the
same higher bits, or they begin with all low bits clear and end with all of them set. -/
def EndsBound (width lo hi : Nat) : Prop :=
  lo / 2 ^ width = hi / 2 ^ width ∨ 2 ^ width ∣ lo ∧ 2 ^ width ∣ hi + 1

instance (width lo hi : Nat) : Decidable (EndsBound width lo hi) :=
  inferInstanceAs (Decidable (_ ∨ _ ∧ _))

/-- The last number before a multiple has the largest rest. -/
theorem mod_eq_pred {m n : Nat} (hm : 0 < m) (h : m ∣ n + 1) : n % m = m - 1 := by
  obtain ⟨c, hc⟩ := h
  cases c with
  | zero => omega
  | succ c =>
    have hn : n = m * c + (m - 1) := by
      rw [Nat.mul_succ] at hc
      omega
    rw [hn, Nat.mul_add_mod, Nat.mod_eq_of_lt (by omega)]

theorem endsBound_iff {width lo hi : Nat} (horder : lo ≤ hi) : EndsBound width lo hi ↔
    ∀ n, lo ≤ n → n ≤ hi → lo % 2 ^ width ≤ n % 2 ^ width ∧ n % 2 ^ width ≤ hi % 2 ^ width := by
  unfold EndsBound
  have hm : 0 < 2 ^ width := Nat.two_pow_pos width
  generalize 2 ^ width = m at hm
  have hsplit : ∀ n, m * (n / m) + n % m = n := fun n => Nat.div_add_mod n m
  constructor
  · rintro (hsame | ⟨hlo, hhi⟩) n hn hn'
    · have hlow := Nat.div_le_div_right (c := m) hn
      have hhigh := Nat.div_le_div_right (c := m) hn'
      have hquot : n / m = lo / m := by omega
      have hl := hsplit lo
      have hu := hsplit hi
      have hmid := hsplit n
      rw [← hsame] at hu
      rw [hquot] at hmid
      omega
    · have hlt := Nat.mod_lt n hm
      rw [Nat.mod_eq_zero_of_dvd hlo, mod_eq_pred hm hhi]
      omega
  · intro h
    by_cases hsame : lo / m = hi / m
    · exact .inl hsame
    -- otherwise a multiple of the power lies between the ends, and so does the number before it
    have hdiv : lo / m + 1 ≤ hi / m := by
      have := Nat.div_le_div_right (c := m) horder
      omega
    have hmul := Nat.mul_le_mul_left m hdiv
    rw [Nat.mul_add, Nat.mul_one] at hmul
    have hl := hsplit lo
    have hu := hsplit hi
    have hlt := Nat.mod_lt lo hm
    have hlt' := Nat.mod_lt hi hm
    right
    constructor
    · have hfirst := (h (m * (hi / m)) (by omega) (by omega)).1
      rw [Nat.mul_mod_right] at hfirst
      exact Nat.dvd_of_mod_eq_zero (by omega)
    · have hlast := (h (m * (lo / m) + (m - 1)) (by omega) (by omega)).2
      rw [Nat.mul_add_mod, Nat.mod_eq_of_lt (show m - 1 < m by omega)] at hlast
      refine ⟨hi / m + 1, ?_⟩
      rw [Nat.mul_add, Nat.mul_one]
      omega

/-! ## 3. Shares -/

/-- The shares of four numbers in the packed element. -/
def shares (fields : Quad BitField) (q : Pixel) : Quad Nat :=
  Quad.zipWith (fun w f => share (w, f)) q fields

theorem get_shares (fields : Quad BitField) (q : Pixel) (i : Fin 4) :
    (shares fields q) i = (q i).toNat % 2 ^ (fields i).len * 2 ^ (fields i).start :=
  Quad.get_zipWith _ q fields i

theorem toNat_packed {widths : Quad Nat} {bits : Nat} (hsum : widths.toList.sum ≤ bits)
    (hbits : bits ≤ 32) (q : Pixel) :
    (packed widths bits q).toNat = (shares (ofWidths widths bits) q).toList.sum := by
  rw [packed, toNat_gather _ (descending_ofWidths hsum) hbits (Nat.dvd_zero _)]
  exact Nat.zero_add _

end BitField

/-- Every register lies between the ones of `lo` and `hi`. -/
def Pixel.Between (lo hi q : Pixel) : Prop :=
  ∀ i, (lo i).toNat ≤ (q i).toNat ∧ (q i).toNat ≤ (hi i).toNat

namespace BitField

variable {widths : Quad Nat} {bits : Nat} {lo hi : Pixel}

/-- Ends that bound every field bound the packed element. -/
theorem packed_between (hsum : widths.toList.sum ≤ bits) (hbits : bits ≤ 32)
    (h : ∀ i : Fin 4, i.val < count widths → EndsBound (widths i) (lo i).toNat (hi i).toNat)
    {q : Pixel} (hq : Pixel.Between lo hi q) :
    (packed widths bits lo).toNat ≤ (packed widths bits q).toNat ∧
      (packed widths bits q).toNat ≤ (packed widths bits hi).toNat := by
  simp only [toNat_packed hsum hbits]
  generalize hfields : ofWidths widths bits = fields
  have hshare : ∀ i : Fin 4, (shares fields lo) i ≤ (shares fields q) i ∧
      (shares fields q) i ≤ (shares fields hi) i := by
    intro i
    rw [get_shares, get_shares, get_shares, ← hfields, len_ofWidths]
    split
    · rename_i hcount
      have horder := Nat.le_trans (hq i).1 (hq i).2
      obtain ⟨hlow, hhigh⟩ := (endsBound_iff horder).mp (h i hcount) _ (hq i).1 (hq i).2
      exact ⟨Nat.mul_le_mul_right _ hlow, Nat.mul_le_mul_right _ hhigh⟩
    · rw [Nat.pow_zero, Nat.mod_one, Nat.mod_one, Nat.mod_one]
      exact ⟨Nat.le_refl _, Nat.le_refl _⟩
  exact ⟨Quad.sum_le_sum fun i => (hshare i).1, Quad.sum_le_sum fun i => (hshare i).2⟩

/-- Packed elements that differ in one component are in the order of its low bits. -/
theorem mod_le_of_packed_le (hsum : widths.toList.sum ≤ bits) (hbits : bits ≤ 32) {i : Fin 4}
    (hcount : i.val < count widths) {q r : Pixel} (hrest : ∀ j, j ≠ i → r j = q j)
    (h : (packed widths bits q).toNat ≤ (packed widths bits r).toNat) :
    (q i).toNat % 2 ^ widths i ≤ (r i).toNat % 2 ^ widths i := by
  rw [toNat_packed hsum hbits, toNat_packed hsum hbits] at h
  have hshares : ∀ j, j ≠ i → (shares (ofWidths widths bits) r) j =
      (shares (ofWidths widths bits) q) j := by
    intro j hj
    rw [get_shares, get_shares, hrest j hj]
  have hshare := Quad.le_of_sum_le hshares h
  rw [get_shares, get_shares, len_ofWidths, if_pos hcount] at hshare
  exact Nat.le_of_mul_le_mul_right hshare (Nat.two_pow_pos _)

/-- **Ends bound every packed element exactly if they bound every field**: the components are chosen
one by one, so each field has to be right by itself. -/
theorem packed_between_iff (hsum : widths.toList.sum ≤ bits) (hbits : bits ≤ 32)
    (horder : ∀ i, (lo i).toNat ≤ (hi i).toNat) :
    (∀ q, Pixel.Between lo hi q → (packed widths bits lo).toNat ≤ (packed widths bits q).toNat ∧
        (packed widths bits q).toNat ≤ (packed widths bits hi).toNat) ↔
      ∀ i : Fin 4, i.val < count widths → EndsBound (widths i) (lo i).toNat (hi i).toNat := by
  refine ⟨fun h i hcount => (endsBound_iff (horder i)).mpr fun n hn hn' => ?_,
    fun h q hq => packed_between hsum hbits h hq⟩
  have hword : (UInt32.ofNat n).toNat = n := by
    rw [UInt32.toNat_ofNat']
    exact Nat.mod_eq_of_lt (Nat.lt_of_le_of_lt hn' (hi i).toNat_lt)
  -- all other components stay at one end while this one runs through its interval
  have hset : ∀ corner, Pixel.Between lo hi corner →
      Pixel.Between lo hi (corner.set i (UInt32.ofNat n)) := by
    intro corner hcorner j
    rw [Quad.get_set]
    split
    · rename_i hj
      rw [hj, hword]
      exact ⟨hn, hn'⟩
    · exact hcorner j
  have hrest : ∀ (corner : Pixel) (j : Fin 4), j ≠ i →
      (corner.set i (UInt32.ofNat n)) j = corner j := by
    intro corner j hj
    rw [Quad.get_set, if_neg hj]
  have hlow := mod_le_of_packed_le hsum hbits hcount (hrest lo)
    (h _ (hset lo fun j => ⟨Nat.le_refl _, horder j⟩)).1
  have hhigh := mod_le_of_packed_le hsum hbits hcount (fun j hj => (hrest hi j hj).symm)
    (h _ (hset hi fun j => ⟨horder j, Nat.le_refl _⟩)).2
  rw [Quad.get_set, if_pos rfl, hword] at hlow hhigh
  exact ⟨hlow, hhigh⟩

end BitField

/-! ## 4. The analysis -/

namespace Op

variable {op : Op} {widths : Quad Nat} {prev : Info}

/-- A packed element of defined components is defined. -/
theorem garbage_after_pack (hk : op.kind = .pack widths)
    (hknown : ∀ i, (prev.known i).garbage = false) : ((op.knownAfter prev) 0).garbage = false := by
  simp only [knownAfter, hk]
  rw [show (Quad.mk _ Known.undefined Known.undefined Known.undefined) 0 = _ from rfl,
    Known.foldl_merge]
  refine Bool.eq_false_iff.mpr fun hg => ?_
  obtain ⟨j, -, hg⟩ := Quad.any_take.mp (show (List.take _ _).any _ = true from hg)
  rw [hknown j] at hg
  cases hg

/-- The bounds of a packed element are the packed bounds. -/
theorem bounds_after_pack (hk : op.kind = .pack widths)
    (hknown : ∀ i, (prev.known i).garbage = false) {lo hi : Pixel}
    (hbounds : ∀ i, prev.bounds i = ⟨.ofWord (lo i), .ofWord (hi i)⟩) (depths : Option Depths) :
    (op.infoAfter depths prev).bounds 0 =
      ⟨.ofWord (BitField.packed widths op.elem.bits lo),
        .ofWord (BitField.packed widths op.elem.bits hi)⟩ := by
  have hwraps : op.kind.wraps = false := by rw [hk]; rfl
  have hlow : ∀ i : Fin 4, i.val < BitField.count widths →
      (prev.bounds.map Bounds.low) i = .ofWord (lo i) := by
    intro i _
    rw [Quad.get_map, hbounds]
  have hhigh : ∀ i : Fin 4, i.val < BitField.count widths →
      (prev.bounds.map Bounds.high) i = .ofWord (hi i) := by
    intro i _
    rw [Quad.get_map, hbounds]
  rw [bounds_infoAfter (garbage_after_pack hk hknown)]
  simp only [boundsAfter, hk]
  rw [get_evalBounds, ← get_eval_of_not_wraps hwraps, ← get_eval_of_not_wraps hwraps,
    eval_pack hk hlow, eval_pack hk hhigh]

/-- Bounds that are words enclose what lies between the words. -/
theorem encloses_ofWord {a b : UInt32} {n : Nat} :
    (Bounds.mk (.ofWord a) (.ofWord b)).Encloses n ↔ a.toNat ≤ n ∧ n ≤ b.toNat := by
  refine ⟨?_, fun h => ⟨_, _, rfl, h⟩⟩
  rintro ⟨lo, hi, hbounds, h⟩
  simp only [Fraction.ofWord, Fraction.ofNat, Fraction.ofInt, Bounds.mk.injEq, Fraction.mk.injEq,
    and_true, Int.natCast_inj] at hbounds
  rw [hbounds.1, hbounds.2]
  exact h

/-- **When the bounds of a packed element are right.** For every integer element, every pattern that
the kernels accept and every four intervals of defined components: the element that the kernel gathers
lies between the bounds that the analysis derives, for every choice of the components, exactly if
the ends of each interval bound its low bits in each field. Intervals that fit their fields are of this
kind. The elements that an interval beyond its field gives may be outside. -/
theorem pack_bounds_iff {e : Elem} (hint : e.isInt = true) (widths : Quad Nat)
    (hsum : widths.toList.sum ≤ e.bits) (info prev : Info) (depths : Option Depths)
    (hknown : ∀ i, (prev.known i).garbage = false) (lo hi : Pixel)
    (horder : ∀ i, (lo i).toNat ≤ (hi i).toNat)
    (hbounds : ∀ i, prev.bounds i = ⟨.ofWord (lo i), .ofWord (hi i)⟩) :
    ∃ gather, Chosen ⟨e, .pack widths, info⟩ (.compute gather) 0 0 ∧
      ((∀ x y q, Pixel.Between lo hi q →
          (((Op.mk e (.pack widths) info).infoAfter depths prev).bounds 0).Encloses
            ((gather.apply x y q) 0).toNat) ↔
        ∀ i : Fin 4, i.val < BitField.count widths →
          BitField.EndsBound (widths i) (lo i).toNat (hi i).toNat) := by
  refine ⟨_, chosen_pack rfl hint hsum, ?_⟩
  rw [bounds_after_pack rfl hknown hbounds, ← BitField.packed_between_iff hsum e.bits_le horder]
  simp only [encloses_ofWord, RegOp.pack_apply]
  exact ⟨fun h q hq => h 0 0 q hq, fun h _ _ q hq => h q hq⟩

/-- Whole components with the given bounds. -/
def wordInfo (lo hi : Pixel) : Info where
  known := Quad.const Known.whole
  bounds := Quad.zipWith (fun a b => ⟨.ofWord a, .ofWord b⟩) lo hi
  unused := Quad.const false

/-- Two numbers up to fifteen fill a byte, and its bounds are right. The bounds for two numbers up to
sixteen are zero and zero, which the byte of eight and eight is not between. -/
theorem nibbles_bounds : (∃ gather, Chosen (.ofKind .u8 (.pack ⟨4, 4, 0, 0⟩)) (.compute gather) 0 0 ∧
      ∀ q, Pixel.Between ⟨0, 3, 0, 0⟩ ⟨15, 15, 0, 0⟩ q →
        (((Op.ofKind .u8 (.pack ⟨4, 4, 0, 0⟩)).infoAfter none
          (wordInfo ⟨0, 3, 0, 0⟩ ⟨15, 15, 0, 0⟩)).bounds 0).Encloses
            ((gather.apply 0 0 q) 0).toNat) ∧
    ∃ gather, Chosen (.ofKind .u8 (.pack ⟨4, 4, 0, 0⟩)) (.compute gather) 0 0 ∧
      ¬∀ x y q, Pixel.Between ⟨0, 0, 0, 0⟩ ⟨16, 16, 0, 0⟩ q →
        (((Op.ofKind .u8 (.pack ⟨4, 4, 0, 0⟩)).infoAfter none
          (wordInfo ⟨0, 0, 0, 0⟩ ⟨16, 16, 0, 0⟩)).bounds 0).Encloses
            ((gather.apply x y q) 0).toNat := by
  have hbounds : ∀ (lo hi : Pixel) (i : Fin 4),
      (wordInfo lo hi).bounds i = ⟨.ofWord (lo i), .ofWord (hi i)⟩ := fun lo hi i =>
    Quad.get_zipWith _ lo hi i
  have hknown : ∀ (lo hi : Pixel) (i : Fin 4), ((wordInfo lo hi).known i).garbage = false := by
    intro lo hi i
    rw [wordInfo, Quad.get_const]
    rfl
  constructor
  · obtain ⟨gather, hchosen, hiff⟩ := pack_bounds_iff (e := .u8) rfl ⟨4, 4, 0, 0⟩ (by decide) Info.blank
      _ none (hknown ⟨0, 3, 0, 0⟩ ⟨15, 15, 0, 0⟩) _ _ (by decide) (hbounds _ _)
    exact ⟨gather, hchosen, fun q hq => hiff.mpr (by decide) 0 0 q hq⟩
  · obtain ⟨gather, hchosen, hiff⟩ := pack_bounds_iff (e := .u8) rfl ⟨4, 4, 0, 0⟩ (by decide) Info.blank
      _ none (hknown ⟨0, 0, 0, 0⟩ ⟨16, 16, 0, 0⟩) _ _ (by decide) (hbounds _ _)
    exact ⟨gather, hchosen, fun h => absurd (hiff.mp h 0 (by decide)) (by decide)⟩

end Op

end PixelConv
