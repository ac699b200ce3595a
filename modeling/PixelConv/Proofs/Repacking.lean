import PixelConv.Proofs.Agreement
import PixelConv.Simplify

/-!
# Splitting an element and gathering it again

The fields of a pattern follow each other from the highest bit of the element down. A field holds the
bits at its place (`BitField.testBit_extract`), and putting them back sets these bits and no others
(`BitField.testBit_insert`); so an element that is split and gathered by the same pattern keeps the
bits of the fields and loses all others (`BitField.testBit_regather`). Main statement: the kernels give
the element back exactly if the bits below its last field are zero (`Op.repack_eq_iff`).
-/

namespace PixelConv

/-! ## 1. Bits of fields -/

namespace BitField

variable {f : BitField}

theorem testBit_ones (h : f.len ≤ 32) (k : Nat) :
    f.ones.toNat.testBit k = decide (k < f.len) := by
  rw [toNat_ones f.start h, Nat.testBit_two_pow_sub_one]

theorem toNat_start (h : f.start < 32) : f.start.toUInt32.toNat % 32 = f.start := by
  rw [Nat.toUInt32, UInt32.toNat_ofNat']
  omega

/-- The ones at the place of a field. -/
theorem testBit_mask (hs : f.start < 32) (h : f.start + f.len ≤ 32) (k : Nat) :
    (f.ones <<< f.start.toUInt32).toNat.testBit k =
      decide (f.start ≤ k ∧ k < f.start + f.len) := by
  rw [UInt32.toNat_shiftLeft, toNat_start hs, Nat.testBit_mod_two_pow, Nat.testBit_shiftLeft,
    testBit_ones (by omega), Bool.eq_iff_iff]
  simp only [Bool.and_eq_true, decide_eq_true_eq]
  omega

/-- **A field holds** the bits at its place. -/
theorem testBit_extract (h : f.start + f.len ≤ 32) (w : UInt32) (k : Nat) :
    (f.extract w).toNat.testBit k = (decide (k < f.len) && w.toNat.testBit (f.start + k)) := by
  unfold extract
  split
  · rename_i hlen
    rw [hlen, decide_eq_false (Nat.not_lt_zero k), Bool.false_and]
    exact Nat.zero_testBit k
  · rw [UInt32.toNat_and, Nat.testBit_and, UInt32.toNat_shiftRight, toNat_start (by omega),
      Nat.testBit_shiftRight, testBit_ones (by omega), Bool.and_comm]

theorem testBit_not (w : UInt32) (k : Nat) :
    (~~~w).toNat.testBit k = (decide (k < 32) && !w.toNat.testBit k) := by
  have hnot : (~~~w).toNat = 2 ^ 32 - (w.toNat + 1) := by
    simp only [UInt32.toNat_not, Nat.sub_sub, Nat.add_comm 1, UInt32.size, Nat.reducePow]
  rw [hnot, Nat.testBit_two_pow_sub_succ w.toNat_lt]

theorem testBit_of_le (w : UInt32) {k : Nat} (h : 32 ≤ k) : w.toNat.testBit k = false :=
  Nat.testBit_lt_two_pow (Nat.lt_of_lt_of_le w.toNat_lt (Nat.pow_le_pow_right (by decide) h))

/-- **Putting a number into a field** sets the bits of the field and keeps all others. -/
theorem testBit_insert (h : f.start + f.len ≤ 32) (w v : UInt32) (k : Nat) :
    (f.insert w v).toNat.testBit k =
      if f.start ≤ k ∧ k < f.start + f.len then v.toNat.testBit (k - f.start)
      else w.toNat.testBit k := by
  unfold insert
  split
  · rw [if_neg (by omega)]
  · have hs : f.start < 32 := by omega
    simp only
    rw [UInt32.toNat_or, Nat.testBit_or, UInt32.toNat_and, Nat.testBit_and, UInt32.toNat_and,
      Nat.testBit_and, testBit_not, testBit_mask hs h, UInt32.toNat_shiftLeft, toNat_start hs,
      Nat.testBit_mod_two_pow, Nat.testBit_shiftLeft]
    split
    · rename_i hk
      have hin : k < 32 := by omega
      simp only [hk, hin, and_self, decide_true, Bool.not_true, Bool.and_false, Bool.true_and,
        Bool.false_or, Bool.and_true]
    · rename_i hk
      simp only [hk, decide_false, Bool.not_false, Bool.and_true, Bool.and_false, Bool.or_false]
      by_cases hin : k < 32
      · rw [decide_eq_true hin, Bool.and_true]
      · rw [testBit_of_le w (Nat.le_of_not_lt hin), Bool.false_and]

/-! ## 2. Patterns -/

/-- The bits of an element that the fields of a pattern take up. -/
def covered (ws : List Nat) : Nat := (ws.takeWhile (0 < ·)).sum

/-- A word whose fields are taken out and put into another word. -/
def regather (fields : List BitField) (w acc : UInt32) : UInt32 :=
  fields.foldl (fun acc f => f.insert acc (f.extract w)) acc

/-- **Fields from bit `top` down**, put into a word that has the bits above them already: afterwards it
has the bits from the last field on. -/
theorem testBit_regather {w : UInt32} : ∀ (ws : List Nat) {top : Nat} {acc : UInt32}, ws.sum ≤ top →
    top ≤ 32 → (∀ k, acc.toNat.testBit k = (decide (top ≤ k) && w.toNat.testBit k)) →
    ∀ k, (regather (place top ws) w acc).toNat.testBit k =
      (decide (top - covered ws ≤ k) && w.toNat.testBit k)
  | [], _, _, _, _, hacc => hacc
  | 0 :: _, _, _, _, _, hacc => hacc
  | (n + 1) :: ws, top, acc, hsum, htop, hacc => by
    rw [List.sum_cons] at hsum
    intro k
    have hcovered : top - covered ((n + 1) :: ws) = top - (n + 1) - covered ws := by
      rw [covered, List.takeWhile_cons_of_pos (by simp), List.sum_cons]
      exact Nat.sub_add_eq _ _ _
    rw [hcovered]
    refine testBit_regather ws (by omega) (by omega) (fun k => ?_) k
    have hfield : top - (n + 1) + (n + 1) ≤ 32 := by omega
    rw [testBit_insert hfield, testBit_extract hfield, hacc]
    simp only
    split
    · rename_i hk
      have hplace : top - (n + 1) + (k - (top - (n + 1))) = k := by omega
      rw [hplace, decide_eq_true (show k - (top - (n + 1)) < n + 1 by omega), decide_eq_true hk.1]
    · rename_i hk
      have habove : top ≤ k ↔ top - (n + 1) ≤ k := by omega
      rw [decide_eq_decide.mpr habove]

theorem length_place_le : ∀ (ws : List Nat) (top : Nat), (place top ws).length ≤ ws.length
  | [], _ => Nat.le_refl 0
  | 0 :: _, _ => Nat.zero_le _
  | (n + 1) :: ws, top => Nat.succ_le_succ (length_place_le ws (top - (n + 1)))

theorem toList_ofListD {α : Type} (a : α) {l : List α} (h : l.length ≤ 4) :
    (Quad.ofListD l a).toList = l ++ List.replicate (4 - l.length) a := by
  rcases l with _ | ⟨b, _ | ⟨c, _ | ⟨d, _ | ⟨e, _ | ⟨f, l⟩⟩⟩⟩⟩
  · rfl
  · rfl
  · rfl
  · rfl
  · rfl
  · simp only [List.length_cons] at h
    omega

theorem regather_empty (n : Nat) (w acc : UInt32) :
    regather (List.replicate n empty) w acc = acc := by
  induction n with
  | zero => rfl
  | succ n ih =>
    rw [List.replicate_succ, regather, List.foldl_cons, show empty.insert acc _ = acc from if_pos rfl]
    exact ih

/-- Components without a field add nothing. -/
theorem regather_ofWidths (widths : Quad Nat) (bits : Nat) (w acc : UInt32) :
    regather (ofWidths widths bits).toList w acc = regather (place bits widths.toList) w acc := by
  rw [ofWidths, toList_ofListD empty (length_place_le widths.toList bits), regather,
    List.foldl_append]
  exact regather_empty _ w _

/-- **An element that is split and gathered again** keeps what is in its fields, and the bits below
the last one become zero. -/
theorem toNat_regather {widths : Quad Nat} {bits : Nat} (hsum : widths.toList.sum ≤ bits)
    (hbits : bits ≤ 32) {w : UInt32} (hw : w.toNat < 2 ^ bits) :
    (regather (ofWidths widths bits).toList w 0).toNat =
      w.toNat / 2 ^ (bits - covered widths.toList) * 2 ^ (bits - covered widths.toList) := by
  rw [regather_ofWidths, ← Nat.shiftRight_eq_div_pow, ← Nat.shiftLeft_eq]
  refine Nat.eq_of_testBit_eq fun k => ?_
  have hstart : ∀ k, (0 : UInt32).toNat.testBit k = (decide (bits ≤ k) && w.toNat.testBit k) := by
    intro k
    rw [show (0 : UInt32).toNat = 0 from rfl, Nat.zero_testBit]
    by_cases hk : bits ≤ k
    · rw [Nat.testBit_lt_two_pow (Nat.lt_of_lt_of_le hw (Nat.pow_le_pow_right (by decide) hk)),
        Bool.and_false]
    · rw [decide_eq_false hk, Bool.false_and]
  rw [testBit_regather widths.toList hsum hbits hstart, Nat.testBit_shiftLeft]
  by_cases hk : bits - covered widths.toList ≤ k
  · rw [Nat.testBit_shiftRight, Nat.add_sub_cancel' hk]
  · rw [decide_eq_false hk, Bool.false_and, Bool.false_and]

end BitField

/-! ## 3. Kernels -/

/-- Gathering what was split off by the same fields. Registers without a field stay, but they have no
place to be put into. -/
theorem RegOp.pack_unpack (fields : Quad BitField) (x y : Nat) (q : Pixel) :
    ((RegOp.pack fields).apply x y ((RegOp.unpack fields).apply x y q)) 0 =
      BitField.regather fields.toList (q 0) 0 := by
  have hstep : ∀ (f : BitField) (acc w : UInt32),
      f.insert acc (if f.len = 0 then w else f.extract (q 0)) = f.insert acc (f.extract (q 0)) := by
    intro f acc w
    by_cases hlen : f.len = 0
    · rw [BitField.insert, BitField.insert, if_pos hlen, if_pos hlen]
    · rw [if_neg hlen]
  have hfold : Quad.indices.foldl (fun acc i => (fields i).insert acc
      ((Quad.zipWith (fun f w => if f.len = 0 then w else f.extract (q 0)) fields q) i)) 0 =
      Quad.indices.foldl (fun acc i => (fields i).insert acc ((fields i).extract (q 0))) 0 := by
    simp only [Quad.get_zipWith, hstep]
  exact hfold

namespace Op

/-- **When splitting and gathering can be left out.** The rule for a pattern that is split and gathered
at once removes both operations. For every integer element, and every pattern that the kernels accept,
the two kernels keep the part of the element that is in the fields and set the bits below to zero. So
they leave the element as it is exactly if these bits were zero, and always if the fields take up all
of the element. -/
theorem repack_eq_iff {e : Elem} (hint : e.isInt = true) (widths : Quad Nat)
    (hsum : widths.toList.sum ≤ e.bits) (before : Option Op) (info info' : Info) (rest : List Op) :
    Rule.unpackPack.apply ⟨before, ⟨e, .unpack widths, info⟩, ⟨e, .pack widths, info'⟩ :: rest⟩ =
      .ok (some rest) ∧
    ∃ split gather, Chosen ⟨e, .unpack widths, info⟩ (.compute split) 0 0 ∧
      Chosen ⟨e, .pack widths, info'⟩ (.compute gather) 0 0 ∧
      ∀ (x y : Nat) (q : Pixel), (q 0).toNat < 2 ^ e.bits →
        ((gather.apply x y (split.apply x y q)) 0).toNat =
          (q 0).toNat / 2 ^ (e.bits - BitField.covered widths.toList) *
            2 ^ (e.bits - BitField.covered widths.toList) ∧
        ((gather.apply x y (split.apply x y q)) 0 = q 0 ↔
          2 ^ (e.bits - BitField.covered widths.toList) ∣ (q 0).toNat) ∧
        (BitField.covered widths.toList = e.bits →
          (gather.apply x y (split.apply x y q)) 0 = q 0) := by
  have hrule : Rule.unpackPack.apply
      ⟨before, ⟨e, .unpack widths, info⟩, ⟨e, .pack widths, info'⟩ :: rest⟩ = .ok (some rest) := by
    simp only [Rule.apply, Site.unpackPack, Site.next?, target, if_true]
  have hfields : ∀ op : Op, op.elem = e →
      Setup.fields op widths = .ok (BitField.ofWidths widths e.bits) := by
    rintro op rfl
    exact if_neg (Nat.not_lt.mpr hsum)
  refine ⟨hrule, .unpack (BitField.ofWidths widths e.bits), .pack (BitField.ofWidths widths e.bits),
    .generic (if_pos hint) ?_, .generic (if_pos hint) ?_, fun x y q hq => ?_⟩
  · simp only [Setup.pattern, hfields]
    rfl
  · simp only [Setup.pattern, hfields]
    rfl
  have hvalue := BitField.toNat_regather hsum e.bits_le hq
  rw [← RegOp.pack_unpack _ x y] at hvalue
  have hiff : ((RegOp.pack (BitField.ofWidths widths e.bits)).apply x y
      ((RegOp.unpack (BitField.ofWidths widths e.bits)).apply x y q)) 0 = q 0 ↔
        2 ^ (e.bits - BitField.covered widths.toList) ∣ (q 0).toNat := by
    rw [← UInt32.toNat_inj, hvalue]
    exact ⟨fun h => ⟨_, h.symm.trans (Nat.mul_comm _ _)⟩, Nat.div_mul_cancel⟩
  refine ⟨hvalue, hiff, fun hfull => hiff.mpr ?_⟩
  rw [hfull, Nat.sub_self]
  exact Nat.one_dvd _

/-- The fields of a 16-bit colour fill its element; five bits at the top of a byte do not, and
splitting and gathering these sets the three bits below to zero. -/
theorem colour_repack : (∀ w : UInt32, w.toNat < 2 ^ (16 : Nat) → ∃ split gather,
      Chosen (.ofKind .u16 (.unpack ⟨5, 6, 5, 0⟩)) (.compute split) 0 0 ∧
      Chosen (.ofKind .u16 (.pack ⟨5, 6, 5, 0⟩)) (.compute gather) 0 0 ∧
      (gather.apply 0 0 (split.apply 0 0 ⟨w, 1, 2, 3⟩)) 0 = w) ∧
    ∃ split gather, Chosen (.ofKind .u8 (.unpack ⟨5, 0, 0, 0⟩)) (.compute split) 0 0 ∧
      Chosen (.ofKind .u8 (.pack ⟨5, 0, 0, 0⟩)) (.compute gather) 0 0 ∧
      ((gather.apply 0 0 (split.apply 0 0 ⟨0xff, 1, 2, 3⟩)) 0).toNat = 0xf8 := by
  refine ⟨fun w hw => ?_, ?_⟩
  · obtain ⟨-, split, gather, hs, hg, hall⟩ := repack_eq_iff (e := .u16) rfl ⟨5, 6, 5, 0⟩
      (by decide) none Info.blank Info.blank []
    exact ⟨split, gather, hs, hg, (hall 0 0 ⟨w, 1, 2, 3⟩ hw).2.2 rfl⟩
  · obtain ⟨-, split, gather, hs, hg, hall⟩ := repack_eq_iff (e := .u8) rfl ⟨5, 0, 0, 0⟩
      (by decide) none Info.blank Info.blank []
    exact ⟨split, gather, hs, hg, (hall 0 0 ⟨0xff, 1, 2, 3⟩ (by decide)).1⟩

end Op

end PixelConv
