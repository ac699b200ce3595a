import PixelConv.Proofs.ExactRuns
import PixelConv.Proofs.Repacking

/-!
# Gathering numbers in the fields of an element

The fields of a pattern lie one below the other (`BitField.descending_ofWidths`), so gathering a number
into one of them leaves the fields above as they are. A packed element is therefore the sum of the
numbers at the places of their fields (`BitField.toNat_gather`), and each field gives back the number
that was put into it (`BitField.extract_gather`). Main statement: splitting undoes gathering, and
gathering undoes splitting up to the bits below the last field (`Op.gather_split_inverse`), for the
kernels as for the exact evaluation.
-/

namespace PixelConv

namespace BitField

/-! ## 1. Fields below each other -/

/-- The fields that have bits lie one below the other, all of them below bit `top`. -/
def Descending : Nat → List BitField → Prop
  | _, [] => True
  | top, f :: fs => if f.len = 0 then Descending top fs
    else f.start + f.len ≤ top ∧ Descending f.start fs

theorem descending_empty (top : Nat) : ∀ n, Descending top (List.replicate n empty)
  | 0 => True.intro
  | n + 1 => descending_empty top n

theorem descending_place (n : Nat) : ∀ (ws : List Nat) {top : Nat}, ws.sum ≤ top →
    Descending top (place top ws ++ List.replicate n empty)
  | [], top, _ => descending_empty top n
  | 0 :: _, top, _ => descending_empty top n
  | (w + 1) :: ws, top, hsum => by
    rw [List.sum_cons] at hsum
    show if w + 1 = 0 then _ else _
    rw [if_neg (Nat.succ_ne_zero w)]
    exact ⟨Nat.le_of_eq (Nat.sub_add_cancel (by omega)),
      descending_place n ws (show ws.sum ≤ top - (w + 1) by omega)⟩

theorem descending_ofWidths {widths : Quad Nat} {bits : Nat} (hsum : widths.toList.sum ≤ bits) :
    Descending bits (ofWidths widths bits).toList := by
  rw [ofWidths, toList_ofListD empty (length_place_le widths.toList bits)]
  exact descending_place _ _ hsum

theorem count_le (widths : Quad Nat) : count widths ≤ 4 :=
  (List.takeWhile_sublist _).length_le

/-! ## 2. Gathering -/

/-- Puts numbers into their fields, one after the other. -/
def gather (parts : List (UInt32 × BitField)) (acc : UInt32) : UInt32 :=
  parts.foldl (fun acc p => p.2.insert acc p.1) acc

theorem insert_of_len {f : BitField} (h : f.len = 0) (acc v : UInt32) : f.insert acc v = acc :=
  if_pos h

/-- Fields below `top` do not touch the bits from there on. -/
theorem testBit_gather_above : ∀ (parts : List (UInt32 × BitField)) {top : Nat},
    Descending top (parts.map Prod.snd) → top ≤ 32 → ∀ (acc : UInt32) {k : Nat}, top ≤ k →
      (gather parts acc).toNat.testBit k = acc.toNat.testBit k
  | [], _, _, _, _, _, _ => rfl
  | p :: parts, top, hdesc, htop, acc, k, hk => by
    show (gather parts (p.2.insert acc p.1)).toNat.testBit k = _
    simp only [List.map_cons, Descending] at hdesc
    split at hdesc
    · rename_i hlen
      rw [insert_of_len hlen]
      exact testBit_gather_above parts hdesc htop acc hk
    · obtain ⟨hfield, hdesc⟩ := hdesc
      rw [testBit_gather_above parts hdesc (by omega) _ (by omega), testBit_insert (by omega),
        if_neg (by omega)]

/-- **A field gives back** the number that was put into it. -/
theorem extract_gather : ∀ (parts : List (UInt32 × BitField)) {top : Nat},
    Descending top (parts.map Prod.snd) → top ≤ 32 → ∀ (acc : UInt32), ∀ p ∈ parts, p.2.len ≠ 0 →
      p.1.toNat < 2 ^ p.2.len → p.2.extract (gather parts acc) = p.1
  | [], _, _, _, _, _, hp, _, _ => by cases hp
  | first :: parts, top, hdesc, htop, acc, p, hp, hlen, hlt => by
    show p.2.extract (gather parts (first.2.insert acc first.1)) = p.1
    simp only [List.map_cons, Descending] at hdesc
    rcases List.mem_cons.mp hp with rfl | hp
    · rw [if_neg hlen] at hdesc
      obtain ⟨hfield, hdesc⟩ := hdesc
      refine UInt32.toNat_inj.mp (Nat.eq_of_testBit_eq fun k => ?_)
      rw [testBit_extract (by omega), testBit_gather_above parts hdesc (by omega) _ (by omega),
        testBit_insert (by omega)]
      by_cases hk : k < p.2.len
      · rw [if_pos (by omega), decide_eq_true hk, Bool.true_and, Nat.add_sub_cancel_left]
      · have hpow := Nat.pow_le_pow_right Nat.two_pos (Nat.le_of_not_lt hk)
        rw [decide_eq_false hk, Bool.false_and,
          Nat.testBit_lt_two_pow (Nat.lt_of_lt_of_le hlt hpow)]
    · split at hdesc
      · exact extract_gather parts hdesc htop _ p hp hlen hlt
      · exact extract_gather parts hdesc.2 (by omega) _ p hp hlen hlt

/-- The share of a packed element that comes from one number: what its field has room for, at the
place of the field. -/
def share (p : UInt32 × BitField) : Nat := p.1.toNat % 2 ^ p.2.len * 2 ^ p.2.start

theorem share_of_len {p : UInt32 × BitField} (h : p.2.len = 0) : share p = 0 := by
  rw [share, h, Nat.pow_zero, Nat.mod_one, Nat.zero_mul]

/-- A number is put into a field below the bits that are there already. -/
theorem toNat_insert {f : BitField} {acc : UInt32} {top : Nat} (hfield : f.start + f.len ≤ top)
    (htop : top ≤ 32) (hacc : 2 ^ top ∣ acc.toNat) (v : UInt32) :
    (f.insert acc v).toNat = acc.toNat + share (v, f) := by
  have hpow : 2 ^ (f.start + f.len) ∣ acc.toNat :=
    Nat.dvd_trans (Nat.pow_dvd_pow 2 hfield) hacc
  obtain ⟨high, hhigh⟩ := hpow
  have hlow : share (v, f) < 2 ^ (f.start + f.len) := by
    rw [Nat.pow_add, Nat.mul_comm (2 ^ f.start)]
    exact Nat.mul_lt_mul_of_pos_right (Nat.mod_lt _ (Nat.two_pow_pos _)) (Nat.two_pow_pos _)
  rw [hhigh, Nat.two_pow_add_eq_or_of_lt hlow, ← hhigh]
  refine Nat.eq_of_testBit_eq fun k => ?_
  rw [testBit_insert (by omega), Nat.testBit_or, hhigh, share, Nat.mul_comm (_ % _),
    Nat.testBit_two_pow_mul, Nat.testBit_two_pow_mul, Nat.testBit_mod_two_pow]
  split
  · rename_i hk
    rw [decide_eq_false (show ¬f.start + f.len ≤ k by omega), decide_eq_true hk.1,
      decide_eq_true (show k - f.start < f.len by omega)]
    simp only [Bool.false_and, Bool.true_and, Bool.false_or]
  · rename_i hk
    by_cases hstart : f.start ≤ k
    · rw [decide_eq_false (show ¬k - f.start < f.len by omega), Bool.false_and, Bool.and_false,
        Bool.or_false]
    · rw [decide_eq_false hstart, Bool.false_and, Bool.or_false]

/-- **A packed element is the sum** of the shares of its numbers. -/
theorem toNat_gather : ∀ (parts : List (UInt32 × BitField)) {top : Nat},
    Descending top (parts.map Prod.snd) → top ≤ 32 → ∀ {acc : UInt32}, 2 ^ top ∣ acc.toNat →
      (gather parts acc).toNat = acc.toNat + (parts.map share).sum
  | [], _, _, _, _, _ => rfl
  | p :: parts, top, hdesc, htop, acc, hacc => by
    show (gather parts (p.2.insert acc p.1)).toNat = _
    rw [List.map_cons, List.sum_cons]
    simp only [List.map_cons, Descending] at hdesc
    split at hdesc
    · rename_i hlen
      rw [insert_of_len hlen, share_of_len hlen, Nat.zero_add]
      exact toNat_gather parts hdesc htop hacc
    · obtain ⟨hfield, hdesc⟩ := hdesc
      have hinsert := toNat_insert hfield htop hacc p.1
      have hnext : 2 ^ p.2.start ∣ (p.2.insert acc p.1).toNat := by
        rw [hinsert]
        exact Nat.dvd_add (Nat.dvd_trans (Nat.pow_dvd_pow 2 (by omega)) hacc)
          (Nat.dvd_mul_left _ _)
      rw [toNat_gather parts hdesc (by omega) hnext, hinsert, Nat.add_assoc]

/-- The numbers of four components with their fields. -/
def partsOf (q : Pixel) (fields : Quad BitField) : List (UInt32 × BitField) :=
  q.toList.zip fields.toList

theorem mem_partsOf (q : Pixel) (fields : Quad BitField) (i : Fin 4) :
    (q i, fields i) ∈ partsOf q fields := by
  refine List.mem_of_getElem? (i := i.val) (List.getElem?_zip_eq_some.mpr ⟨?_, ?_⟩)
  · exact Quad.getElem?_toList q i
  · exact Quad.getElem?_toList fields i

/-- The element of `bits` bits in which a pattern gathers four numbers. -/
def packed (widths : Quad Nat) (bits : Nat) (q : Pixel) : UInt32 :=
  gather (partsOf q (ofWidths widths bits)) 0

/-- A component of the pattern comes back from the packed element, if it fits its field. -/
theorem extract_packed {widths : Quad Nat} {bits : Nat} (hsum : widths.toList.sum ≤ bits)
    (hbits : bits ≤ 32) {q : Pixel} {i : Fin 4} (hi : i.val < count widths)
    (hlt : (q i).toNat < 2 ^ widths i) :
    ((ofWidths widths bits) i).extract (packed widths bits q) = q i := by
  refine extract_gather _ (descending_ofWidths hsum) hbits 0 _ (mem_partsOf q _ i) ?_ ?_
  · exact mt len_eq_zero_iff.mp (Nat.not_le.mpr hi)
  · rw [len_ofWidths, if_pos hi]
    exact hlt

end BitField

/-! ## 3. Kernels and evaluation -/

/-- The kernel that gathers leaves the packed element in the first register. -/
theorem RegOp.pack_apply (widths : Quad Nat) (bits x y : Nat) (q : Pixel) :
    ((RegOp.pack (BitField.ofWidths widths bits)).apply x y q) 0 =
      BitField.packed widths bits q := rfl

/-- Only the components of the pattern are gathered. -/
theorem Value.packed?_congr {e : Elem} {widths : Quad Nat} {v v' : Value}
    (h : ∀ i : Fin 4, i.val < BitField.count widths → v i = v' i) :
    v.packed? e widths = v'.packed? e widths := by
  have htake : v.toList.take (BitField.count widths) = v'.toList.take (BitField.count widths) := by
    refine List.ext_getElem? fun k => ?_
    rw [List.getElem?_take, List.getElem?_take]
    split
    · rename_i hk
      have hk4 : k < 4 := Nat.lt_of_lt_of_le hk (BitField.count_le widths)
      rw [Quad.getElem?_toList v ⟨k, hk4⟩, Quad.getElem?_toList v' ⟨k, hk4⟩, h ⟨k, hk4⟩ hk]
    · rfl
  simp only [Value.packed?, List.zip, List.take_zipWith, htake]

namespace Op

section Patterns

variable {op : Op} {widths : Quad Nat}

theorem fields_of_fits (hsum : widths.toList.sum ≤ op.elem.bits) :
    Setup.fields op widths = .ok (BitField.ofWidths widths op.elem.bits) :=
  if_neg (Nat.not_lt.mpr hsum)

/-- Patterns of integer elements have the kernel that their set-up gives. -/
theorem chosen_pattern {k : Kernel} (hk : op.kind = .unpack widths ∨ op.kind = .pack widths)
    (hint : op.elem.isInt = true) (h : Setup.pattern op = .ok k) : Chosen op k 0 0 := by
  refine .generic ?_ h
  rcases hk with hk | hk
  · rw [generic?, verb, hk]
    exact if_pos hint
  · rw [generic?, verb, hk]
    exact if_pos hint

/-- A pattern that fits an integer element has a kernel that splits. -/
theorem chosen_unpack (hk : op.kind = .unpack widths) (hint : op.elem.isInt = true)
    (hsum : widths.toList.sum ≤ op.elem.bits) :
    Chosen op (.compute (.unpack (BitField.ofWidths widths op.elem.bits))) 0 0 := by
  refine chosen_pattern (.inl hk) hint ?_
  simp only [Setup.pattern, hk, fields_of_fits hsum]
  rfl

/-- A pattern that fits an integer element has a kernel that gathers. -/
theorem chosen_pack (hk : op.kind = .pack widths) (hint : op.elem.isInt = true)
    (hsum : widths.toList.sum ≤ op.elem.bits) :
    Chosen op (.compute (.pack (BitField.ofWidths widths op.elem.bits))) 0 0 := by
  refine chosen_pattern (.inr hk) hint ?_
  simp only [Setup.pattern, hk, fields_of_fits hsum]
  rfl

/-- The exact evaluation of a split: the fields of the word in the first component. -/
theorem eval_unpack (hk : op.kind = .unpack widths) {v : Value} {w : UInt32}
    (hv : v 0 = .ofWord w) (i : Fin 4) : (op.eval v) i =
      if ((BitField.ofWidths widths op.elem.bits) i).len = 0 then .undefined
      else .ofWord (((BitField.ofWidths widths op.elem.bits) i).extract w) := by
  have hword : v.c0.word? = some w := by
    rw [show v.c0 = .ofWord w from hv, Fraction.word?_ofWord]
  rw [get_eval_of_not_wraps (by rw [hk]; rfl)]
  simp only [evalRaw, hk, Value.unpack_of_word? hword, Quad.get_map]

/-- The exact evaluation of gathering words: only the components of the pattern count. -/
theorem eval_pack (hk : op.kind = .pack widths) {v : Value} {q : Pixel}
    (hv : ∀ i : Fin 4, i.val < BitField.count widths → v i = .ofWord (q i)) :
    (op.eval v) 0 = .ofWord (BitField.packed widths op.elem.bits q) := by
  have hpacked : v.packed? op.elem widths = q.values.packed? op.elem widths :=
    Value.packed?_congr fun i hi => (hv i hi).trans (q.get_values i).symm
  rw [get_eval_of_not_wraps (by rw [hk]; rfl)]
  simp only [evalRaw, hk, Value.pack, hpacked, Value.packed?_values]
  rfl

end Patterns

/-- **Splitting undoes gathering, and gathering undoes splitting** up to the bits that no field covers.
For every integer element, and every pattern that the kernels accept: numbers that fit their fields
come back from the packed element, and an element that is split and gathered again keeps its bits
from the last field on and loses the ones below. The exact evaluation gives the numbers that the
kernels leave in the registers, whatever the components beyond the pattern are. -/
theorem gather_split_inverse {e : Elem} (hint : e.isInt = true) (widths : Quad Nat)
    (hsum : widths.toList.sum ≤ e.bits) (info info' : Info) :
    ∃ split gather, Chosen ⟨e, .unpack widths, info⟩ (.compute split) 0 0 ∧
      Chosen ⟨e, .pack widths, info'⟩ (.compute gather) 0 0 ∧
      (∀ q : Pixel, (∀ i : Fin 4, i.val < BitField.count widths → (q i).toNat < 2 ^ widths i) →
        ∀ i : Fin 4, i.val < BitField.count widths →
          (∀ x y, (split.apply x y (gather.apply x y q)) i = q i) ∧
          ∀ v : Value, (∀ j : Fin 4, j.val < BitField.count widths → v j = .ofWord (q j)) →
            ((Op.mk e (.unpack widths) info).eval ((Op.mk e (.pack widths) info').eval v)) i =
              .ofWord (q i)) ∧
      ∀ q : Pixel, (q 0).toNat < 2 ^ e.bits → ∀ x y,
        (∀ k, ((gather.apply x y (split.apply x y q)) 0).toNat.testBit k =
          (decide (e.bits - BitField.covered widths.toList ≤ k) && (q 0).toNat.testBit k)) ∧
        ∀ v : Value, v 0 = .ofWord (q 0) →
          ((Op.mk e (.pack widths) info').eval ((Op.mk e (.unpack widths) info).eval v)) 0 =
            .ofWord ((gather.apply x y (split.apply x y q)) 0) := by
  refine ⟨_, _, chosen_unpack rfl hint hsum, chosen_pack rfl hint hsum, fun q hq i hi => ?_,
    fun q hq x y => ⟨fun k => ?_, fun v hv => ?_⟩⟩
  · have hlen : ((BitField.ofWidths widths e.bits) i).len ≠ 0 :=
      mt BitField.len_eq_zero_iff.mp (Nat.not_le.mpr hi)
    have hback := BitField.extract_packed hsum e.bits_le hi (hq i hi)
    refine ⟨fun x y => ?_, fun v hv => ?_⟩
    · show (Quad.zipWith _ _ _) i = q i
      rw [Quad.get_zipWith, if_neg hlen]
      exact hback
    · rw [eval_unpack rfl (eval_pack rfl hv), if_neg hlen]
      exact congrArg Fraction.ofWord hback
  · rw [RegOp.pack_unpack, BitField.toNat_regather hsum e.bits_le hq, ← Nat.shiftRight_eq_div_pow,
      ← Nat.shiftLeft_eq, Nat.testBit_shiftLeft]
    by_cases hk : e.bits - BitField.covered widths.toList ≤ k
    · rw [Nat.testBit_shiftRight, Nat.add_sub_cancel' hk]
    · rw [decide_eq_false hk, Bool.false_and, Bool.false_and]
  · have hfields : ∀ i : Fin 4, i.val < BitField.count widths →
        ((Op.mk e (.unpack widths) info).eval v) i =
          .ofWord (((BitField.ofWidths widths e.bits).map (·.extract (q 0))) i) := by
      intro i hi
      rw [eval_unpack rfl hv, if_neg (mt BitField.len_eq_zero_iff.mp (Nat.not_le.mpr hi)),
        Quad.get_map]
    rw [eval_pack rfl hfields, RegOp.pack_unpack]
    rfl

/-- Ten bits for each of three colours and two for the last component fill a word. Three fields of
different width leave the lowest three bits of a byte uncovered. -/
theorem deepColour_inverse : (∃ split gather,
      Chosen (.ofKind .u32 (.unpack ⟨2, 10, 10, 10⟩)) (.compute split) 0 0 ∧
      Chosen (.ofKind .u32 (.pack ⟨2, 10, 10, 10⟩)) (.compute gather) 0 0 ∧
      (split.apply 0 0 (gather.apply 0 0 ⟨3, 0x155, 0x2aa, 0x3ff⟩)) 2 = 0x2aa) ∧
    ∃ split gather, Chosen (.ofKind .u8 (.unpack ⟨2, 1, 2, 0⟩)) (.compute split) 0 0 ∧
      Chosen (.ofKind .u8 (.pack ⟨2, 1, 2, 0⟩)) (.compute gather) 0 0 ∧
      ∀ k, ((gather.apply 0 0 (split.apply 0 0 ⟨0xff, 1, 2, 3⟩)) 0).toNat.testBit k =
        (decide (3 ≤ k) && Nat.testBit 0xff k) := by
  constructor
  · obtain ⟨split, gather, hs, hg, hback, -⟩ := gather_split_inverse (e := .u32) rfl
      ⟨2, 10, 10, 10⟩ (by decide) Info.blank Info.blank
    exact ⟨split, gather, hs, hg, (hback ⟨3, 0x155, 0x2aa, 0x3ff⟩ (by decide) 2 (by decide)).1 0 0⟩
  · obtain ⟨split, gather, hs, hg, -, hkept⟩ := gather_split_inverse (e := .u8) rfl ⟨2, 1, 2, 0⟩
      (by decide) Info.blank Info.blank
    exact ⟨split, gather, hs, hg, (hkept ⟨0xff, 1, 2, 3⟩ (by decide) 0 0).1⟩

end Op

end PixelConv
