import PixelConv.Kernel.Block
import PixelConv.Proofs.Words

/-!
# Elements of a shape

Where the components of a pixel lie in the planes of a shape, and what they are worth:
`Shape.element` and `Shape.pixel` read them, `Shape.planesOf` lays a single pixel out in memory.
An element depends on the bytes of its pixel alone (`Shape.element_congr`), and cutting whole blocks
off the front of the planes renumbers the pixels (`Shape.element_after`).
-/

namespace PixelConv

namespace Shape

/-! ## 1. Places -/

/-- The shapes that kernels transfer: a layout that exists, in which only bytes are divided, into
eight elements at most. -/
structure Regular (s : Shape) : Prop where
  wellFormed : s.layout.wellFormed = true
  frac_le : s.layout.frac ≤ 3
  bytes : 0 < s.layout.frac → s.elem = .u8

/-- The plane that holds component `c`. -/
def planeOf (s : Shape) (c : Fin 4) : Fin 4 := if s.layout.packed then 0 else c

/-- The byte at which component `c` of pixel `x` starts, for elements of whole bytes. -/
def startOf (s : Shape) (x : Nat) (c : Fin 4) : Nat :=
  if s.layout.packed then x * (s.elem.size * s.layout.count) + c.val * s.elem.size
  else x * s.elem.size

/-- Component `c` of pixel `x`. -/
def element (s : Shape) (planes : Quad Bytes) (x : Nat) (c : Fin 4) : UInt32 :=
  if 0 < s.layout.frac then Load.fraction s.layout.frac planes.c0 x
  else (planes (s.planeOf c)).word s.elem.size (s.startOf x c)

/-- The components of pixel `x`, with zeros in place of those that the shape does not have. -/
def pixel (s : Shape) (planes : Quad Bytes) (x : Nat) : Pixel :=
  Quad.ofFn fun c => if c.val < s.layout.count then s.element planes x c else 0

variable {s : Shape}

theorem elem_size_pos (e : Elem) : 0 < e.size := by cases e <;> decide

theorem elem_size_le (e : Elem) : e.size ≤ 4 := by cases e <;> decide

theorem Regular.count_pos (h : s.Regular) : 0 < s.layout.count :=
  (Layout.wellFormed_iff.mp h.wellFormed).1

theorem Regular.count_le (h : s.Regular) : s.layout.count ≤ 4 :=
  (Layout.wellFormed_iff.mp h.wellFormed).2.1

theorem Regular.count_eq_one (h : s.Regular) (hf : 0 < s.layout.frac) : s.layout.count = 1 :=
  (Layout.wellFormed_iff.mp h.wellFormed).2.2 hf

theorem Regular.frac_cases (h : s.Regular) (hf : 0 < s.layout.frac) :
    s.layout.frac = 1 ∨ s.layout.frac = 2 ∨ s.layout.frac = 3 := by
  have := h.frac_le
  omega

theorem Regular.planes_le (h : s.Regular) : s.layout.planes ≤ 4 := by
  have := h.count_le
  unfold Layout.planes
  split <;> omega

theorem Regular.planes_pos (h : s.Regular) : 0 < s.layout.planes := by
  have := h.count_pos
  unfold Layout.planes
  split <;> omega

theorem Regular.chunk_ne_zero (h : s.Regular) : s.elem.size * s.layout.count ≠ 0 :=
  Nat.ne_of_gt (Nat.mul_pos (elem_size_pos s.elem) h.count_pos)

theorem planeOf_lt {c : Fin 4} (hc : c.val < s.layout.count) :
    (s.planeOf c).val < s.layout.planes := by
  unfold planeOf Layout.planes
  split
  · exact Nat.zero_lt_one
  · exact hc

/-! ## 2. Bytes of a run of pixels -/

theorem bytesPerPlane_whole (hf : s.layout.frac = 0) (n : Nat) :
    s.bytesPerPlane n = n * (s.layout.perPlane * s.elem.size) := by
  simp only [bytesPerPlane, Layout.bytesPerPlane, hf, Nat.pow_zero, Nat.sub_self, Nat.add_zero,
    Nat.div_one, Nat.mul_assoc]

theorem bytesPerPlane_fraction (h : s.Regular) (hf : 0 < s.layout.frac) (n : Nat) :
    s.bytesPerPlane n = (n + (2 ^ s.layout.frac - 1)) / 2 ^ s.layout.frac := by
  have hper : s.layout.perPlane = 1 := by
    unfold Layout.perPlane
    rw [h.count_eq_one hf]
    split <;> rfl
  simp only [bytesPerPlane, Layout.bytesPerPlane, hper, h.bytes hf, Elem.size, Nat.mul_one]

theorem bytesPerPlane_mono {m n : Nat} (h : m ≤ n) : s.bytesPerPlane m ≤ s.bytesPerPlane n := by
  unfold bytesPerPlane Layout.bytesPerPlane
  refine Nat.div_le_div_right (Nat.add_le_add_right ?_ _)
  exact Nat.mul_le_mul_right _ (Nat.mul_le_mul_right _ h)

/-- Whole blocks and what follows them take their bytes one after the other. -/
theorem bytesPerPlane_add (h : s.Regular) {a : Nat} (ha : 2 ^ s.layout.frac ∣ a) (b : Nat) :
    s.bytesPerPlane (a + b) = s.bytesPerPlane a + s.bytesPerPlane b := by
  by_cases hf : s.layout.frac = 0
  · rw [bytesPerPlane_whole hf, bytesPerPlane_whole hf, bytesPerPlane_whole hf, Nat.add_mul]
  · have hf : 0 < s.layout.frac := Nat.pos_of_ne_zero hf
    rw [bytesPerPlane_fraction h hf, bytesPerPlane_fraction h hf, bytesPerPlane_fraction h hf]
    obtain ⟨k, rfl⟩ := ha
    have hpos : 0 < 2 ^ s.layout.frac := Nat.two_pow_pos _
    have hk : (2 ^ s.layout.frac * k + (2 ^ s.layout.frac - 1)) / 2 ^ s.layout.frac = k := by
      rw [Nat.mul_add_div hpos, Nat.div_eq_of_lt (by omega), Nat.add_zero]
    rw [hk, Nat.add_assoc, Nat.mul_add_div hpos]

/-- The bytes of an element lie within those of its pixel. -/
theorem startOf_add_lt (hf : s.layout.frac = 0) {c : Fin 4} (hc : c.val < s.layout.count)
    (x : Nat) {k : Nat} (hk : k < s.elem.size) : s.startOf x c + k < s.bytesPerPlane (x + 1) := by
  rw [bytesPerPlane_whole hf, Nat.add_mul, Nat.one_mul]
  unfold startOf Layout.perPlane
  split
  · have : (c.val + 1) * s.elem.size ≤ s.layout.count * s.elem.size := Nat.mul_le_mul_right _ hc
    rw [Nat.add_mul, Nat.one_mul] at this
    rw [Nat.mul_comm s.elem.size]
    omega
  · rw [Nat.one_mul]
    omega

theorem startOf_add (hf : s.layout.frac = 0) (a x : Nat) (c : Fin 4) :
    s.startOf (a + x) c = s.bytesPerPlane a + s.startOf x c := by
  rw [bytesPerPlane_whole hf]
  unfold startOf Layout.perPlane
  split
  · rw [Nat.add_mul, Nat.mul_comm s.elem.size]
    omega
  · rw [Nat.one_mul, Nat.add_mul]

/-- Every byte of a run of pixels belongs to an element. -/
theorem exists_place (h : s.Regular) (hf : s.layout.frac = 0) {n : Nat} {p : Fin 4}
    (hp : p.val < s.layout.planes) {i : Nat} (hi : i < s.bytesPerPlane n) :
    ∃ x c k, x < n ∧ c.val < s.layout.count ∧ k < s.elem.size ∧ s.planeOf c = p ∧
      i = s.startOf x c + k := by
  rw [bytesPerPlane_whole hf] at hi
  have hsize := elem_size_pos s.elem
  have hcount := h.count_pos
  have hle := h.count_le
  unfold Layout.planes at hp
  unfold planeOf startOf
  unfold Layout.perPlane at hi
  cases hpk : s.layout.packed with
  | true =>
    simp only [hpk, if_true] at hi hp ⊢
    have hchunk : 0 < s.layout.count * s.elem.size := Nat.mul_pos hcount hsize
    have hrest : i % (s.layout.count * s.elem.size) < s.layout.count * s.elem.size :=
      Nat.mod_lt _ hchunk
    have hc : i % (s.layout.count * s.elem.size) / s.elem.size < s.layout.count :=
      (Nat.div_lt_iff_lt_mul hsize).mpr hrest
    refine ⟨i / (s.layout.count * s.elem.size),
      ⟨i % (s.layout.count * s.elem.size) / s.elem.size, by omega⟩,
      i % (s.layout.count * s.elem.size) % s.elem.size,
      (Nat.div_lt_iff_lt_mul hchunk).mpr hi, hc, Nat.mod_lt _ hsize, ?_, ?_⟩
    · apply Fin.ext
      show 0 = p.val
      omega
    · have h1 := Nat.div_add_mod i (s.layout.count * s.elem.size)
      have h2 := Nat.div_add_mod (i % (s.layout.count * s.elem.size)) s.elem.size
      rw [Nat.mul_comm] at h1
      rw [Nat.mul_comm] at h2
      rw [Nat.mul_comm s.elem.size s.layout.count]
      show i = i / (s.layout.count * s.elem.size) * (s.layout.count * s.elem.size) +
        i % (s.layout.count * s.elem.size) / s.elem.size * s.elem.size + _
      omega
  | false =>
    simp only [hpk, Bool.false_eq_true, if_false, Nat.one_mul] at hi hp ⊢
    refine ⟨i / s.elem.size, p, i % s.elem.size, (Nat.div_lt_iff_lt_mul hsize).mpr hi, hp,
      Nat.mod_lt _ hsize, rfl, ?_⟩
    have := Nat.div_add_mod i s.elem.size
    rw [Nat.mul_comm] at this
    omega

/-- The byte of an element that shares it. -/
theorem fraction_byte_lt (h : s.Regular) (hf : 0 < s.layout.frac) (x : Nat) :
    x / 2 ^ s.layout.frac < s.bytesPerPlane (x + 1) := by
  rw [bytesPerPlane_fraction h hf]
  have hpos : 0 < 2 ^ s.layout.frac := Nat.two_pow_pos _
  have : x + 1 + (2 ^ s.layout.frac - 1) = x + 2 ^ s.layout.frac := by omega
  rw [this, Nat.add_div_right _ hpos]
  exact Nat.lt_succ_self _

/-! ## 3. Elements depend on their bytes -/

/-- Two sets of planes have the same bytes in the first `n` pixels of a shape. -/
def Agree (s : Shape) (n : Nat) (a b : Quad Bytes) : Prop :=
  ∀ p : Fin 4, p.val < s.layout.planes → ∀ i, i < s.bytesPerPlane n →
    (a p).getD i 0 = (b p).getD i 0

/-- **An element depends on the bytes of its pixel alone.** -/
theorem element_congr (hs : s.Regular) {n : Nat} {a b : Quad Bytes} (h : s.Agree n a b) {x : Nat}
    (hx : x < n) {c : Fin 4} (hc : c.val < s.layout.count) :
    s.element a x c = s.element b x c := by
  unfold element
  have hmono : s.bytesPerPlane (x + 1) ≤ s.bytesPerPlane n := bytesPerPlane_mono hx
  split
  · rename_i hf
    have hbyte := h 0 hs.planes_pos (x / 2 ^ s.layout.frac)
      (Nat.lt_of_lt_of_le (fraction_byte_lt hs hf x) hmono)
    unfold Load.fraction
    rw [show a.c0.getD (x / 2 ^ s.layout.frac) 0 = b.c0.getD (x / 2 ^ s.layout.frac) 0 from hbyte]
  · rename_i hf
    refine Bytes.word_congr fun k hk => ?_
    exact h _ (planeOf_lt hc) _
      (Nat.lt_of_lt_of_le (startOf_add_lt (by omega) hc x hk) hmono)

theorem pixel_congr (hs : s.Regular) {n : Nat} {a b : Quad Bytes} (h : s.Agree n a b) {x : Nat}
    (hx : x < n) : s.pixel a x = s.pixel b x := by
  refine Quad.ext_get fun c => ?_
  simp only [pixel, Quad.get_ofFn]
  split
  · rename_i hc
    exact element_congr hs h hx hc
  · rfl

/-- Planes whose elements are equal have the same bytes. -/
theorem agree_of_elements (hs : s.Regular) (hf : s.layout.frac = 0) {n : Nat} {a b : Quad Bytes}
    (h : ∀ x, x < n → ∀ c : Fin 4, c.val < s.layout.count → s.element a x c = s.element b x c) :
    s.Agree n a b := by
  intro p hp i hi
  obtain ⟨x, c, k, hx, hc, hk, rfl, rfl⟩ := exists_place hs hf hp hi
  have hword := h x hx c hc
  unfold element at hword
  rw [if_neg (by omega), if_neg (by omega)] at hword
  rw [← Bytes.ofWord_word _ _ (elem_size_le s.elem) hk, hword,
    Bytes.ofWord_word _ _ (elem_size_le s.elem) hk]

/-- **Cutting whole blocks off the front renumbers the pixels.** -/
theorem element_after (hs : s.Regular) {a : Nat} (ha : 2 ^ s.layout.frac ∣ a) (planes : Quad Bytes)
    (x : Nat) (c : Fin 4) :
    s.element (planes.map (·.after (s.bytesPerPlane a))) x c = s.element planes (a + x) c := by
  unfold element
  split
  · rename_i hf
    obtain ⟨k, rfl⟩ := ha
    have hpos : 0 < 2 ^ s.layout.frac := Nat.two_pow_pos _
    have hbytes : s.bytesPerPlane (2 ^ s.layout.frac * k) = k := by
      rw [bytesPerPlane_fraction hs hf, Nat.mul_add_div hpos, Nat.div_eq_of_lt (by omega),
        Nat.add_zero]
    have hplane : (planes.map (·.after k)).c0 = planes.c0.after k := rfl
    unfold Load.fraction
    rw [hbytes, Nat.mul_add_div hpos, Nat.mul_add_mod, hplane, Bytes.getD_after]
  · rename_i hf
    refine Bytes.word_congr fun k _ => ?_
    rw [Quad.get_map, Bytes.getD_after, startOf_add (by omega), Nat.add_assoc]

theorem pixel_after (hs : s.Regular) {a : Nat} (ha : 2 ^ s.layout.frac ∣ a) (planes : Quad Bytes)
    (x : Nat) :
    s.pixel (planes.map (·.after (s.bytesPerPlane a))) x = s.pixel planes (a + x) := by
  refine Quad.ext_get fun c => ?_
  simp only [pixel, Quad.get_ofFn]
  rw [element_after hs ha]

/-! ## 4. A single pixel in memory -/

/-- The number of values of an element. -/
def values (s : Shape) : Nat :=
  if 0 < s.layout.frac then 2 ^ (8 / 2 ^ s.layout.frac : Nat) else 256 ^ s.elem.size

/-- What an element keeps of a register. -/
def truncate (s : Shape) (w : UInt32) : UInt32 := (w.toNat % s.values).toUInt32

theorem truncate_whole (hf : s.layout.frac = 0) (w : UInt32) :
    s.truncate w = Word.low s.elem.size w := by
  simp only [truncate, values, hf, Nat.lt_irrefl, if_false, Word.low]

/-- The components of a pixel are values of the shape's elements, and those it does not have are
zero. -/
def Holds (s : Shape) (q : Pixel) : Prop :=
  ∀ c : Fin 4, if c.val < s.layout.count then (q c).toNat < s.values else q c = 0

/-- Byte `i` of plane `p` when the planes hold nothing but the pixel `q`. -/
def pixelByte (s : Shape) (q : Pixel) (p : Fin 4) (i : Nat) : UInt8 :=
  if 0 < s.layout.frac then
    if i = 0 then (q.c0.toNat * 2 ^ (8 - 8 / 2 ^ s.layout.frac : Nat)).toUInt8 else 0
  else if s.layout.packed then
    if i < s.elem.size * s.layout.count then
      Bytes.ofWord (q (Fin.ofNat 4 (i / s.elem.size))) (i % s.elem.size)
    else 0
  else if i < s.elem.size then Bytes.ofWord (q p) i else 0

/-- Planes of `n` bytes that hold the pixel `q`, followed by zeros. -/
def planesOf (s : Shape) (n : Nat) (q : Pixel) : Quad Bytes :=
  Quad.ofFn fun p => Array.ofFn fun i : Fin n => s.pixelByte q p i.val

theorem element_lt (s : Shape) (planes : Quad Bytes) (x : Nat) (c : Fin 4) :
    (s.element planes x c).toNat < s.values := by
  unfold element values
  split
  · unfold Load.fraction
    have hpos : 0 < 2 ^ (8 / 2 ^ s.layout.frac) := Nat.two_pow_pos _
    rw [Nat.toUInt32, UInt32.toNat_ofNat']
    exact Nat.lt_of_le_of_lt (Nat.mod_le _ _) (Nat.mod_lt _ hpos)
  · exact Bytes.toNat_word_lt _ _ (elem_size_le s.elem)

theorem values_pos (s : Shape) : 0 < s.values := by
  unfold values
  split
  · exact Nat.two_pow_pos _
  · exact Nat.pow_pos (by decide)

theorem holds_pixel (s : Shape) (planes : Quad Bytes) (x : Nat) : s.Holds (s.pixel planes x) := by
  intro c
  simp only [pixel, Quad.get_ofFn]
  split
  · exact element_lt s planes x c
  · rfl

theorem holds_zero (s : Shape) : s.Holds (Quad.const 0) := by
  intro c
  rw [Quad.get_const]
  split
  · exact s.values_pos
  · rfl

@[simp] theorem size_planesOf (s : Shape) (n : Nat) (q : Pixel) (p : Fin 4) :
    ((s.planesOf n q) p).size = n := by
  simp only [planesOf, Quad.get_ofFn, Array.size_ofFn]

theorem getD_planesOf (s : Shape) {n : Nat} (q : Pixel) (p : Fin 4) {i : Nat} (h : i < n) :
    ((s.planesOf n q) p).getD i 0 = s.pixelByte q p i := by
  have hi : i < (Array.ofFn fun i : Fin n => s.pixelByte q p i.val).size := by
    rw [Array.size_ofFn]
    exact h
  rw [planesOf, Quad.get_ofFn, Bytes.getD_eq, Array.getElem?_eq_getElem hi]
  simp only [Array.getElem_ofFn, Option.getD_some]

/-- An element that shares a byte, laid out in its highest bits, is read back. -/
theorem fraction_pixelByte (hs : s.Regular) (hf : 0 < s.layout.frac) {q : Pixel}
    (hq : q.c0.toNat < 2 ^ (8 / 2 ^ s.layout.frac : Nat)) {plane : Bytes}
    (hplane : plane.getD 0 0 = s.pixelByte q 0 0) :
    Load.fraction s.layout.frac plane 0 = q.c0 := by
  unfold Load.fraction
  rw [Nat.zero_div, Nat.zero_mod, hplane, pixelByte, if_pos hf, if_pos rfl]
  apply UInt32.toNat_inj.mp
  rcases hs.frac_cases hf with hf | hf | hf <;>
    simp only [hf, Nat.reducePow, Nat.reduceDiv, Nat.reduceSub, Nat.reduceMul, Nat.reduceAdd,
      Nat.toUInt8, Nat.toUInt32, UInt8.toNat_ofNat', UInt32.toNat_ofNat'] at hq ⊢ <;>
    omega

/-- The bytes of component `c` in the layout of a single pixel. -/
theorem pixelByte_startOf (hf : s.layout.frac = 0) (q : Pixel) {c : Fin 4}
    (hc : c.val < s.layout.count) {k : Nat} (hk : k < s.elem.size) :
    s.pixelByte q (s.planeOf c) (s.startOf 0 c + k) = Bytes.ofWord (q c) k := by
  have hpos := elem_size_pos s.elem
  rw [pixelByte, if_neg (by omega)]
  unfold startOf planeOf
  cases hpk : s.layout.packed with
  | true =>
    have hchunk : c.val * s.elem.size + k < s.elem.size * s.layout.count := by
      have hle : (c.val + 1) * s.elem.size ≤ s.layout.count * s.elem.size :=
        Nat.mul_le_mul_right _ hc
      rw [Nat.add_mul, Nat.one_mul] at hle
      rw [Nat.mul_comm s.elem.size]
      omega
    have hdiv : (c.val * s.elem.size + k) / s.elem.size = c.val := by
      rw [Nat.mul_comm, Nat.mul_add_div hpos, Nat.div_eq_of_lt hk, Nat.add_zero]
    have hmod : (c.val * s.elem.size + k) % s.elem.size = k := by
      rw [Nat.mul_comm, Nat.mul_add_mod, Nat.mod_eq_of_lt hk]
    simp only [if_true, Nat.zero_mul, Nat.zero_add]
    rw [if_pos hchunk, hdiv, hmod]
    congr
    exact Fin.ext (Nat.mod_eq_of_lt c.isLt)
  | false =>
    simp only [Bool.false_eq_true, if_false, Nat.zero_mul, Nat.zero_add]
    rw [if_pos hk]

/-- **A pixel that was laid out is read back.** -/
theorem pixel_planesOf (hs : s.Regular) {q : Pixel} (hq : s.Holds q) {n : Nat}
    (hn : s.bytesPerPlane 1 ≤ n) : s.pixel (s.planesOf n q) 0 = q := by
  refine Quad.ext_get fun c => ?_
  have hqc := hq c
  simp only [pixel, Quad.get_ofFn]
  split
  · rename_i hc
    rw [if_pos hc] at hqc
    unfold values at hqc
    unfold element
    split
    · rename_i hf
      rw [if_pos hf] at hqc
      have hzero : c = 0 := by
        have := hs.count_eq_one hf
        apply Fin.ext
        show c.val = 0
        omega
      have hlt := fraction_byte_lt hs hf 0
      rw [Nat.zero_div, Nat.zero_add] at hlt
      subst hzero
      exact fraction_pixelByte hs hf hqc (getD_planesOf s q 0 (by omega))
    · rename_i hf
      rw [if_neg hf] at hqc
      have hf : s.layout.frac = 0 := by omega
      rw [Bytes.word_eq_of_bytes (w := q c) (elem_size_le s.elem) fun k hk => ?_,
        Word.low_of_lt hqc]
      have hlt := startOf_add_lt hf hc 0 hk
      rw [Nat.zero_add] at hlt
      rw [getD_planesOf s q _ (by omega), pixelByte_startOf hf q hc hk]
  · rename_i hc
    rw [if_neg hc] at hqc
    exact hqc.symm

end Shape

end PixelConv
