import PixelConv.Bytes

/-!
# Bytes and words

Readings of the pieces of a buffer, and words as numbers: the word in `n ≤ 4` bytes is the number
with these bytes as digits, so it determines them (`Bytes.ofWord_word`) and is determined by them
(`Bytes.word_eq_of_bytes`).
-/

namespace PixelConv

namespace Bytes

/-! ## 1. Pieces -/

theorem getD_eq (b : Bytes) (i : Nat) (x : UInt8) : b.getD i x = b[i]?.getD x :=
  Array.getD_eq_getD_getElem?

theorem getD_of_lt {b : Bytes} {i : Nat} (h : i < b.size) (x y : UInt8) : b.getD i x = b.getD i y := by
  rw [getD_eq, getD_eq, Array.getElem?_eq_getElem h]
  rfl

theorem getD_of_le {b : Bytes} {i : Nat} (h : b.size ≤ i) (x : UInt8) : b.getD i x = x := by
  rw [getD_eq, Array.getElem?_eq_none h]
  rfl

/-- Two buffers of one size with the same readings are equal. -/
theorem ext_getD {a b : Bytes} (hs : a.size = b.size)
    (h : ∀ i, i < a.size → a.getD i 0 = b.getD i 0) : a = b := by
  refine Array.ext hs fun i ha hb => ?_
  have := h i ha
  rw [getD_eq, getD_eq, Array.getElem?_eq_getElem ha, Array.getElem?_eq_getElem hb] at this
  exact this

@[simp] theorem size_after (b : Bytes) (start : Nat) : (b.after start).size = b.size - start := by
  simp only [after, Array.size_extract, Nat.min_self]

theorem getD_extract (b : Bytes) {start stop i : Nat} (hi : i < stop - start) (hs : stop ≤ b.size)
    (x : UInt8) : (b.extract start stop).getD i x = b.getD (start + i) x := by
  rw [getD_eq, getD_eq, Array.getElem?_extract, if_pos (by omega)]

@[simp] theorem getD_after (b : Bytes) (start i : Nat) (x : UInt8) :
    (b.after start).getD i x = b.getD (start + i) x := by
  by_cases h : start + i < b.size
  · exact getD_extract b (by omega) (Nat.le_refl _) x
  · have h' : (b.after start).size ≤ i := by rw [size_after]; omega
    rw [getD_of_le h', getD_of_le (Nat.not_lt.mp h)]

@[simp] theorem size_zeros (n : Nat) : (zeros n).size = n := Array.size_replicate

@[simp] theorem getD_zeros (n i : Nat) : (zeros n).getD i 0 = 0 := by
  rw [getD_eq, zeros, Array.getElem?_replicate]
  split <;> rfl

theorem first_eq_ok {b : Bytes} {n : Nat} (h : n ≤ b.size) : b.first n = .ok (b.extract 0 n) :=
  if_pos h

theorem getD_mapIdx (b : Bytes) (f : Nat → UInt8 → UInt8) {i : Nat} (h : i < b.size) :
    (b.mapIdx f).getD i 0 = f i (b.getD i 0) := by
  rw [getD_eq, getD_eq, Array.getElem?_mapIdx, Array.getElem?_eq_getElem h]
  rfl

/-- A byte of a spliced buffer, as far as it exists. -/
theorem getD_splice (b : Bytes) (start : Nat) (piece : Bytes) {i : Nat} (h : i < b.size) (x : UInt8) :
    (b.splice start piece).getD i x =
      if start ≤ i then piece.getD (i - start) (b.getD i x) else b.getD i x := by
  rw [getD_eq, getElem?_splice, getD_eq b, Array.getElem?_eq_getElem h]
  rfl

/-- Bytes before the piece stay. -/
theorem getD_splice_before (b piece : Bytes) {start i : Nat} (h : i < start) (x : UInt8) :
    (b.splice start piece).getD i x = b.getD i x := by
  by_cases hi : i < b.size
  · rw [getD_splice b start piece hi, if_neg (Nat.not_le.mpr h)]
  · rw [getD_of_le (Nat.not_lt.mp hi), getD_of_le]
    rw [size_splice]
    exact Nat.not_lt.mp hi

/-- Bytes after the piece stay. -/
theorem getD_splice_beyond (b piece : Bytes) {start i : Nat} (h : start + piece.size ≤ i) (x : UInt8) :
    (b.splice start piece).getD i x = b.getD i x := by
  by_cases hi : i < b.size
  · rw [getD_splice b start piece hi, if_pos (by omega), getD_of_le (by omega)]
  · rw [getD_of_le (Nat.not_lt.mp hi), getD_of_le]
    rw [size_splice]
    exact Nat.not_lt.mp hi

/-- Bytes that the piece covers come from it. -/
theorem getD_splice_within (b piece : Bytes) {start i : Nat} (hb : start + i < b.size)
    (h : i < piece.size) (x : UInt8) :
    (b.splice start piece).getD (start + i) x = piece.getD i x := by
  rw [getD_splice b start piece hb, if_pos (by omega), Nat.add_sub_cancel_left]
  exact getD_of_lt h _ _

theorem getD_append_left {a b : Bytes} {i : Nat} (h : i < a.size) (x : UInt8) :
    (a ++ b).getD i x = a.getD i x := by
  rw [getD_eq, getD_eq, Array.getElem?_append_left h]

theorem getD_append_right (a b : Bytes) (i : Nat) (x : UInt8) :
    (a ++ b).getD (a.size + i) x = b.getD i x := by
  rw [getD_eq, getD_eq, Array.getElem?_append_right (Nat.le_add_right _ _), Nat.add_sub_cancel_left]

/-- A piece of no bytes changes nothing. -/
theorem splice_of_size_zero {b piece : Bytes} (h : piece.size = 0) (start : Nat) :
    b.splice start piece = b := by
  refine ext_getD (size_splice _ _ _) fun i hi => ?_
  rw [size_splice] at hi
  rw [getD_splice b start piece hi]
  split
  · exact getD_of_le (by omega) _
  · rfl

/-- A piece within the first of two buffers. -/
theorem splice_append_left {a piece : Bytes} {start : Nat} (h : start + piece.size ≤ a.size)
    (b : Bytes) : (a ++ b).splice start piece = a.splice start piece ++ b := by
  refine ext_getD (by simp only [size_splice, Array.size_append]) fun i hi => ?_
  rw [size_splice] at hi
  by_cases hia : i < a.size
  · rw [getD_append_left (by rw [size_splice]; exact hia), getD_splice _ _ _ hi,
      getD_splice _ _ _ hia, getD_append_left hia]
  · obtain ⟨j, rfl⟩ := Nat.exists_eq_add_of_le (Nat.not_lt.mp hia)
    rw [getD_splice_beyond _ _ (by omega), getD_append_right]
    have := getD_append_right (a.splice start piece) b j 0
    rw [size_splice] at this
    exact this.symm

/-- A piece within the second of two buffers. -/
theorem splice_append_right (a b piece : Bytes) (start : Nat) :
    (a ++ b).splice (a.size + start) piece = a ++ b.splice start piece := by
  refine ext_getD (by simp only [size_splice, Array.size_append]) fun i hi => ?_
  rw [size_splice] at hi
  by_cases hia : i < a.size
  · rw [getD_splice_before _ _ (by omega), getD_append_left hia, getD_append_left hia]
  · obtain ⟨j, rfl⟩ := Nat.exists_eq_add_of_le (Nat.not_lt.mp hia)
    rw [Array.size_append] at hi
    rw [getD_append_right, getD_splice _ _ _ (by rw [Array.size_append]; exact hi),
      getD_splice _ _ _ (by omega), getD_append_right]
    simp only [Nat.add_le_add_iff_left, Nat.add_sub_add_left]

/-- A buffer in two parts. -/
theorem extract_append_after (b : Bytes) (k : Nat) : b.extract 0 k ++ b.after k = b := by
  rw [after, Array.extract_append_extract, Nat.zero_min]
  exact Array.extract_eq_self_of_le (Nat.le_max_right _ _)

/-! ## 2. Words as numbers -/

theorem word_zero (b : Bytes) (start : Nat) : b.word 0 start = 0 := rfl

/-- The first byte is the lowest digit. -/
theorem word_succ (b : Bytes) (n start : Nat) :
    b.word (n + 1) start = (b.word n (start + 1) <<< 8) ||| (b.getD start 0).toUInt32 := by
  unfold word
  rw [List.range_succ_eq_map, List.foldr_cons, List.foldr_map]
  have hshift : (fun (k : Nat) (w : UInt32) => (w <<< 8) ||| (b.getD (start + k.succ) 0).toUInt32) =
      fun (k : Nat) (w : UInt32) => (w <<< 8) ||| (b.getD (start + 1 + k) 0).toUInt32 := by
    funext k w
    rw [Nat.add_assoc, Nat.add_comm 1 k]
  rw [hshift]
  rfl

theorem toNat_ofWord (w : UInt32) {k : Nat} (h : k < 4) :
    (ofWord w k).toNat = w.toNat / 256 ^ k % 256 := by
  have h8 : (8 * k).toUInt32.toNat = 8 * k := by
    rw [Nat.toUInt32, UInt32.toNat_ofNat']
    omega
  have hk : (8 * k).toUInt32.toNat % 32 = 8 * k := by rw [h8]; omega
  have hp : 2 ^ (8 * k) = 256 ^ k := by rw [Nat.pow_mul]
  unfold ofWord
  rw [UInt32.toNat_toUInt8, UInt32.toNat_shiftRight, hk, Nat.shiftRight_eq_div_pow, hp]

/-- A word of `n` bytes is a number of `n` digits, the first byte the lowest. -/
theorem toNat_word_lt_and_succ (b : Bytes) : ∀ (n start : Nat), n ≤ 4 →
    (b.word n start).toNat < 256 ^ n ∧
      (n < 4 → (b.word (n + 1) start).toNat =
        (b.word n (start + 1)).toNat * 256 + (b.getD start 0).toNat)
  | 0, start, _ => by
    refine ⟨by rw [word_zero]; decide, fun _ => ?_⟩
    rw [word_succ, word_zero]
    simp
  | n + 1, start, h => by
    obtain ⟨-, hstep⟩ := toNat_word_lt_and_succ b n start (by omega)
    obtain ⟨hlt, -⟩ := toNat_word_lt_and_succ b n (start + 1) (by omega)
    have hfull : (b.word (n + 1) start).toNat < 256 ^ (n + 1) := by
      rw [hstep (by omega), Nat.pow_succ]
      have := (b.getD start 0).toNat_lt
      omega
    refine ⟨hfull, fun hn => ?_⟩
    obtain ⟨-, hstep'⟩ := toNat_word_lt_and_succ b n (start + 1) (by omega)
    obtain ⟨hlt', -⟩ := toNat_word_lt_and_succ b n (start + 1 + 1) (by omega)
    -- three digits at most, so shifting by one more loses nothing
    have hbound : (b.word (n + 1) (start + 1)).toNat * 256 < 2 ^ 32 := by
      rw [hstep' (by omega)]
      have hdigit := (b.getD (start + 1) 0).toNat_lt
      have hpow : 256 ^ n ≤ 256 ^ 2 := Nat.pow_le_pow_right (by decide) (by omega)
      omega
    rw [word_succ, UInt32.toNat_or, UInt32.toNat_shiftLeft, UInt8.toNat_toUInt32]
    have h8 : (8 : UInt32).toNat % 32 = 8 := rfl
    rw [h8, Nat.shiftLeft_eq, show 2 ^ 8 = 256 from rfl, Nat.mod_eq_of_lt hbound, Nat.mul_comm _ 256]
    have hdigit : (b.getD start 0).toNat < 2 ^ 8 := (b.getD start 0).toNat_lt
    exact (Nat.two_pow_add_eq_or_of_lt hdigit _).symm

theorem toNat_word_lt (b : Bytes) {n : Nat} (start : Nat) (h : n ≤ 4) :
    (b.word n start).toNat < 256 ^ n :=
  (toNat_word_lt_and_succ b n start h).1

theorem toNat_word_succ (b : Bytes) {n : Nat} (start : Nat) (h : n < 4) :
    (b.word (n + 1) start).toNat = (b.word n (start + 1)).toNat * 256 + (b.getD start 0).toNat :=
  (toNat_word_lt_and_succ b n start (Nat.le_of_lt h)).2 h

/-- Digit `k` of a word is byte `k`. -/
theorem toNat_word_digit (b : Bytes) : ∀ {n : Nat} (start : Nat) {k : Nat}, n ≤ 4 → k < n →
    (b.word n start).toNat / 256 ^ k % 256 = (b.getD (start + k) 0).toNat
  | 0, _, k, _, hk => absurd hk (Nat.not_lt_zero k)
  | n + 1, start, k, hn, hk => by
    have hdigit := (b.getD start 0).toNat_lt
    rw [toNat_word_succ b start (by omega)]
    cases k with
    | zero =>
      rw [Nat.pow_zero, Nat.div_one, Nat.add_zero, Nat.mul_add_mod_self_right]
      exact Nat.mod_eq_of_lt hdigit
    | succ k =>
      have ih := toNat_word_digit b (start + 1) (k := k) (by omega : n ≤ 4) (by omega)
      have hdiv : ((b.word n (start + 1)).toNat * 256 + (b.getD start 0).toNat) / 256 ^ (k + 1) =
          (b.word n (start + 1)).toNat / 256 ^ k := by
        rw [Nat.pow_succ, Nat.mul_comm (256 ^ k) 256, ← Nat.div_div_eq_div_mul]
        congr 1
        omega
      rw [hdiv, ih, Nat.add_assoc, Nat.add_comm 1 k]

/-- A word gives back its bytes. -/
theorem ofWord_word (b : Bytes) {n k : Nat} (start : Nat) (hn : n ≤ 4) (hk : k < n) :
    ofWord (b.word n start) k = b.getD (start + k) 0 := by
  apply UInt8.toNat_inj.mp
  rw [toNat_ofWord _ (by omega), toNat_word_digit b start hn hk]

/-- The word depends on its bytes only. -/
theorem word_congr {a b : Bytes} {n s t : Nat}
    (h : ∀ k, k < n → a.getD (s + k) 0 = b.getD (t + k) 0) : a.word n s = b.word n t := by
  induction n generalizing s t with
  | zero => rfl
  | succ n ih =>
    have hrest : a.word n (s + 1) = b.word n (t + 1) := by
      refine ih fun k hk => ?_
      have := h (k + 1) (by omega)
      rw [Nat.add_assoc, Nat.add_comm 1 k, Nat.add_assoc, Nat.add_comm 1 k]
      exact this
    rw [word_succ, word_succ, hrest, show a.getD s 0 = b.getD t 0 from h 0 (by omega)]

end Bytes

/-- The low `n` bytes of a word. -/
def Word.low (n : Nat) (w : UInt32) : UInt32 := (w.toNat % 256 ^ n).toUInt32

namespace Word

theorem toNat_low (n : Nat) (w : UInt32) : (low n w).toNat = w.toNat % 256 ^ n := by
  have hw := w.toNat_lt
  have : w.toNat % 256 ^ n < 2 ^ 32 := Nat.lt_of_le_of_lt (Nat.mod_le _ _) hw
  rw [low, Nat.toUInt32, UInt32.toNat_ofNat', Nat.mod_eq_of_lt this]

theorem low_of_lt {n : Nat} {w : UInt32} (h : w.toNat < 256 ^ n) : low n w = w := by
  apply UInt32.toNat_inj.mp
  rw [toNat_low, Nat.mod_eq_of_lt h]

end Word

namespace Bytes

/-- Digits that agree make equal numbers. -/
theorem mod_pow_eq_of_digits {a b : Nat} : ∀ {n : Nat},
    (∀ k, k < n → a / 256 ^ k % 256 = b / 256 ^ k % 256) → a % 256 ^ n = b % 256 ^ n
  | 0, _ => by rw [Nat.pow_zero, Nat.mod_one, Nat.mod_one]
  | n + 1, h => by
    have ih := mod_pow_eq_of_digits (n := n) fun k hk => h k (by omega)
    have hn := h n (by omega)
    rw [Nat.mod_pow_succ, Nat.mod_pow_succ, ih, hn]

/-- The bytes of a word make up its low end. -/
theorem word_eq_of_bytes {b : Bytes} {n start : Nat} {w : UInt32} (hn : n ≤ 4)
    (h : ∀ k, k < n → b.getD (start + k) 0 = ofWord w k) : b.word n start = Word.low n w := by
  apply UInt32.toNat_inj.mp
  rw [Word.toNat_low, ← Nat.mod_eq_of_lt (toNat_word_lt b start hn)]
  refine mod_pow_eq_of_digits fun k hk => ?_
  rw [toNat_word_digit b start hn hk, h k hk, toNat_ofWord w (by omega)]

/-! ## 3. Overlapping pieces -/

/-- Pieces that are put down one after the other, `width` bytes apart: the next piece may cover what
goes beyond, so of each piece the first `width` bytes stay. -/
theorem getD_foldl_splice {step : Bytes → Nat → Bytes} {piece : Nat → Bytes} {width size count : Nat}
    (hstep : ∀ b n, b.size = size → n < count → step b n = b.splice (n * width) (piece n))
    (hpiece : ∀ n, n < count → width ≤ (piece n).size) {b : Bytes} (hb : b.size = size) :
    ∀ m, m ≤ count → ((List.range m).foldl step b).size = size ∧
      ∀ n j, n < m → j < width → n * width + j < size →
        ((List.range m).foldl step b).getD (n * width + j) 0 = (piece n).getD j 0
  | 0, _ => ⟨hb, fun n _ hn => absurd hn (Nat.not_lt_zero n)⟩
  | m + 1, hm => by
    obtain ⟨hsize, hbytes⟩ := getD_foldl_splice hstep hpiece hb m (by omega)
    rw [List.range_succ, List.foldl_append, List.foldl_cons, List.foldl_nil,
      hstep _ m hsize (by omega)]
    refine ⟨by rw [size_splice, hsize], fun n j hn hj hlt => ?_⟩
    by_cases hnm : n = m
    · subst hnm
      have hlen := hpiece n (by omega)
      exact getD_splice_within _ _ (by rw [hsize]; exact hlt) (by omega) 0
    · have hbefore : n * width + j < m * width := by
        have : (n + 1) * width ≤ m * width := Nat.mul_le_mul_right _ (by omega)
        rw [Nat.add_mul, Nat.one_mul] at this
        omega
      rw [getD_splice_before _ _ hbefore]
      exact hbytes n j (by omega) hj hlt

end Bytes

/-- Digits that are put together from the highest to the lowest, and are read again. -/
theorem digit_foldl {base : Nat} (hbase : 0 < base) {d : Nat → Nat} (hd : ∀ k, d k < base) :
    ∀ m, ((List.range m).map d).foldl (fun acc x => acc * base + x) 0 < base ^ m ∧
      ∀ j, j < m →
        ((List.range m).map d).foldl (fun acc x => acc * base + x) 0 / base ^ (m - 1 - j) % base = d j
  | 0 => ⟨by rw [Nat.pow_zero]; exact Nat.zero_lt_one, fun j hj => absurd hj (Nat.not_lt_zero j)⟩
  | m + 1 => by
    obtain ⟨hlt, hdigit⟩ := digit_foldl hbase hd m
    rw [List.range_succ, List.map_append, List.foldl_append]
    simp only [List.map_cons, List.map_nil, List.foldl_cons, List.foldl_nil]
    generalize ((List.range m).map d).foldl (fun acc x => acc * base + x) 0 = v at hlt hdigit
    have hdm := hd m
    refine ⟨?_, fun j hj => ?_⟩
    · have : (v + 1) * base ≤ base ^ m * base := Nat.mul_le_mul_right _ hlt
      rw [Nat.add_mul, Nat.one_mul] at this
      rw [Nat.pow_succ]
      omega
    · by_cases hjm : j = m
      · subst hjm
        rw [show j + 1 - 1 - j = 0 by omega, Nat.pow_zero, Nat.div_one, Nat.mul_add_mod_self_right,
          Nat.mod_eq_of_lt hdm]
      · have hexp : m + 1 - 1 - j = (m - 1 - j) + 1 := by omega
        rw [hexp, Nat.pow_succ, Nat.mul_comm (base ^ _) base, ← Nat.div_div_eq_div_mul,
          Nat.mul_comm v base, Nat.mul_add_div hbase, Nat.div_eq_of_lt hdm, Nat.add_zero]
        exact hdigit j (by omega)

end PixelConv
