import PixelConv.Proofs.Elements
import PixelConv.Proofs.Linking
import PixelConv.Proofs.Tiling

/-!
# Kernels on a block

What the kernels that are chosen for the ends of a program do to a block whose planes have room for
its pixels and the margins: a load fills the registers of each pixel with its elements
(`Chosen.load`), a store puts the registers of each pixel into its elements (`Chosen.store`).
Everything between them works on the registers of each pixel alone.
-/

namespace PixelConv

namespace Block

/-! ## 1. The registers of one pixel -/

/-- The registers of pixel `i`. -/
def pixel (b : Block) (i : Nat) : Pixel := Quad.ofFn (b.reg i)

theorem pixel_eq (b : Block) {i : Nat} (h : i < 32) : b.pixel i = b.pixels[i] := by
  refine Quad.ext_get fun c => ?_
  simp only [pixel, Quad.get_ofFn, reg, Vector.getElem?_eq_getElem h]

theorem pixel_mapPixels (b : Block) (f : Nat → Pixel → Pixel) {i : Nat} (h : i < 32) :
    (b.mapPixels f).pixel i = f i (b.pixel i) := by
  rw [pixel_eq _ h, pixel_eq _ h]
  simp only [mapPixels, Vector.getElem_mapIdx]

theorem pixel_start (input output : Quad Bytes) (x y : Nat) {i : Nat} (h : i < 32) :
    (start input output x y).pixel i = Quad.const 0 := by
  rw [pixel_eq _ h]
  simp only [start, Vector.getElem_replicate]

theorem reg_eq_pixel (b : Block) (i : Nat) (c : Fin 4) : b.reg i c = (b.pixel i) c := by
  rw [pixel, Quad.get_ofFn]

end Block

/-! ## 2. Loading -/

namespace Load

variable {s : Shape}

/-- Registers with the elements of pixel `i` in place of those that the shape has. -/
def into (s : Shape) (planes : Quad Bytes) (i : Nat) (q : Pixel) : Pixel :=
  Quad.ofFn fun c => if c.val < s.layout.count then s.element planes i c else q c

theorem into_zero (s : Shape) (planes : Quad Bytes) (i : Nat) :
    into s planes i (Quad.const 0) = s.pixel planes i := by
  refine Quad.ext_get fun c => ?_
  simp only [into, Shape.pixel, Quad.get_ofFn, Quad.get_const]

theorem fraction_eq_into (hs : s.Regular) (hf : 0 < s.layout.frac) (planes : Quad Bytes) (i : Nat)
    (q : Pixel) : { q with c0 := fraction s.layout.frac planes.c0 i } = into s planes i q := by
  have hcount := hs.count_eq_one hf
  refine Quad.ext_get fun c => ?_
  simp only [into, Quad.get_ofFn, Shape.element, if_pos hf, hcount]
  match c with
  | 0 | 1 | 2 | 3 => rfl

theorem interleaved_eq_into (hf : s.layout.frac = 0) (hp : s.layout.packed = true)
    {planes : Quad Bytes} {i : Nat} (h : s.bytesPerPlane (i + 1) ≤ planes.c0.size) (q : Pixel) :
    interleaved s.elem.size s.layout.count planes.c0 i q = into s planes i q := by
  have hroom : (i + 1) * (s.elem.size * s.layout.count) ≤ planes.c0.size := by
    rw [Shape.bytesPerPlane_whole hf, Layout.perPlane, if_pos hp, Nat.mul_comm s.layout.count] at h
    exact h
  refine Quad.ext_get fun c => ?_
  simp only [interleaved, if_pos hroom, into, Quad.get_ofFn, Shape.element, hf, Nat.lt_irrefl,
    if_false, Shape.planeOf, Shape.startOf, hp, if_true]
  rfl

theorem planar_eq_into (hf : s.layout.frac = 0) (hp : s.layout.packed = false)
    {planes : Quad Bytes} {i : Nat}
    (h : ∀ p : Fin 4, p.val < s.layout.planes → s.bytesPerPlane (i + 1) ≤ (planes p).size)
    (q : Pixel) :
    planar s.elem.size s.layout.count planes i q = into s planes i q := by
  refine Quad.ext_get fun c => ?_
  simp only [planar, into, Quad.get_ofFn, Shape.element, hf, Nat.lt_irrefl, if_false, Shape.planeOf,
    Shape.startOf, hp, Bool.false_eq_true]
  by_cases hc : c.val < s.layout.count
  · have hroom : (i + 1) * s.elem.size ≤ (planes c).size := by
      have := h c (by rw [Layout.planes, hp]; exact hc)
      rw [Shape.bytesPerPlane_whole hf, Layout.perPlane, hp] at this
      simpa using this
    simp only [hc, hroom, decide_true, Bool.and_self, if_true]
  · simp only [hc, decide_false, Bool.false_and, Bool.false_eq_true, if_false]

end Load

theorem Word.byte_eq (w : UInt32) {k : Nat} (h : k < 4) (n : UInt32) (hn : n.toNat = 8 * k) :
    (Word.byte w n).toNat = w.toNat / 256 ^ k % 256 := by
  unfold Word.byte
  have hmod : n.toNat % 32 = 8 * k := by rw [hn]; omega
  have hp : 2 ^ (8 * k) = 256 ^ k := by rw [Nat.pow_mul]
  rw [UInt32.toNat_and, UInt32.toNat_shiftRight, hmod, Nat.shiftRight_eq_div_pow, hp]
  show _ &&& (2 ^ 8 - 1) = _
  rw [Nat.and_two_pow_sub_one_eq_mod]

/-- Each byte of a word is a word of one byte. -/
theorem Word.byte_word (plane : Bytes) (start : Nat) {k : Nat} (h : k < 4) (n : UInt32)
    (hn : n.toNat = 8 * k) : Word.byte (plane.word 4 start) n = plane.word 1 (start + k) := by
  apply UInt32.toNat_inj.mp
  rw [Word.byte_eq _ h n hn, Bytes.toNat_word_digit plane start (Nat.le_refl 4) h,
    Bytes.toNat_word_succ plane _ (by decide), Bytes.word_zero]
  show _ = 0 * 256 + _
  omega

theorem Load.triple_eq_into {planes : Quad Bytes} {i : Nat} (h : 3 * i + 4 ≤ planes.c0.size)
    (q : Pixel) :
    Load.triple planes.c0 i q = Load.into ⟨.u8, ⟨3, true, 0⟩⟩ planes i q := by
  have hcomp : ∀ c : Fin 4, Shape.element ⟨.u8, ⟨3, true, 0⟩⟩ planes i c =
      planes.c0.word 1 (3 * i + c.val) := by
    intro c
    show planes.c0.word 1 (i * (1 * 3) + c.val * 1) = _
    rw [Nat.one_mul, Nat.mul_one, Nat.mul_comm]
  unfold Load.triple
  rw [if_pos h]
  refine Quad.ext_get fun c => ?_
  simp only [Load.into, Quad.get_ofFn, hcomp]
  match c with
  | 0 => exact Word.byte_word planes.c0 (3 * i) (by decide : 0 < 4) 0 rfl
  | 1 => exact Word.byte_word planes.c0 (3 * i) (by decide : 1 < 4) 8 rfl
  | 2 => exact Word.byte_word planes.c0 (3 * i) (by decide : 2 < 4) 16 rfl
  | 3 => rfl

/-- The block after a load or a computation: only the registers change, pixel by pixel. -/
structure Block.Computed (f : Nat → Pixel → Pixel) (b b' : Block) : Prop where
  pixel : ∀ i, i < blockPixels → b'.pixel i = f i (b.pixel i)
  input : b'.input = b.input
  output : b'.output = b.output
  x : b'.x = b.x
  y : b'.y = b.y

theorem Block.computed_mapPixels {f g : Nat → Pixel → Pixel} (b : Block)
    (h : ∀ i, i < blockPixels → ∀ q, g i q = f i q) : Block.Computed f b (b.mapPixels g) :=
  ⟨fun i hi => by rw [Block.pixel_mapPixels b g hi, h i hi], rfl, rfl, rfl, rfl⟩

/-- A transfer that the kernels take, within the range they know. -/
theorem Setup.transfer_eq_ok {op : Op} {l l' : Layout} (hl : op.transfer? = some l)
    (h : Setup.transfer op = .ok l') (hwf : l.wellFormed = true) (hfrac : l.frac ≤ 3) :
    l' = l ∧ Shape.Regular ⟨op.elem, l⟩ := by
  unfold Setup.transfer at h
  rw [hl] at h
  simp only at h
  split at h
  · cases h
  · rename_i hwide
    have hreg : Shape.Regular ⟨op.elem, l⟩ := by
      refine ⟨hwf, hfrac, fun hf => ?_⟩
      simp only [Bool.and_eq_true, decide_eq_true_eq, not_and, ne_eq, Decidable.not_not] at hwide
      exact hwide hf
    have hcount := hreg.count_le
    refine ⟨?_, hreg⟩
    cases h
    obtain ⟨count, packed, frac⟩ := l
    simp only [Layout.mk.injEq, true_and]
    simp only at hcount hfrac
    omega

/-- **The kernel of a read** fills the registers of each pixel with its elements. -/
theorem Chosen.load {s : Shape} {info : Info} {k : Kernel} {r w : Nat}
    (h : Chosen ⟨s.elem, .read s.layout, info⟩ k r w) (hwf : s.layout.wellFormed = true)
    (hfrac : s.layout.frac ≤ 3) :
    s.Regular ∧ r ≤ 1 ∧ w = 0 ∧ ∀ b : Block,
      Conversion.Room s b.input (s.bytesPerPlane blockPixels + r) →
        ∃ b', k.run b = .ok b' ∧ Block.Computed (Load.into s b.input) b b' := by
  cases h with
  | @generic setup _ hs hk =>
    cases hs
    -- the general kernel, for the layout of the program
    obtain ⟨l, hl, rfl⟩ : ∃ l, Setup.transfer ⟨s.elem, .read s.layout, info⟩ = .ok l ∧
        k = Kernel.load s.elem.size l := by
      cases ht : Setup.transfer ⟨s.elem, .read s.layout, info⟩ with
      | error e => simp only [Setup.load, ht] at hk; cases hk
      | ok l => simp only [Setup.load, ht] at hk; exact ⟨l, rfl, (Except.ok.inj hk).symm⟩
    obtain ⟨rfl, hreg⟩ := Setup.transfer_eq_ok rfl hl hwf hfrac
    have hreg : s.Regular := hreg
    refine ⟨hreg, by omega, rfl, fun b hroom => ?_⟩
    have hsize : ∀ p : Fin 4, p.val < s.layout.planes → ∀ i, i < blockPixels →
        s.bytesPerPlane (i + 1) ≤ (b.input p).size := fun p hp i hi =>
      Nat.le_trans (Shape.bytesPerPlane_mono hi) (hroom p hp)
    simp only [Kernel.run]
    split
    · rename_i hf
      exact ⟨_, rfl, b.computed_mapPixels fun i _ q => Load.fraction_eq_into hreg hf b.input i q⟩
    · rename_i hf
      have hf : s.layout.frac = 0 := by omega
      split
      · rename_i hp
        rw [if_neg hreg.chunk_ne_zero]
        exact ⟨_, rfl, b.computed_mapPixels fun i hi q =>
          Load.interleaved_eq_into hf hp (hsize 0 hreg.planes_pos i hi) q⟩
      · rename_i hp
        exact ⟨_, rfl, b.computed_mapPixels fun i hi q =>
          Load.planar_eq_into hf (Bool.eq_false_iff.mpr hp) (fun p hp => hsize p hp i hi) q⟩
  | loadTriples hk he =>
    obtain ⟨elem, layout⟩ := s
    cases hk
    cases he
    refine ⟨⟨hwf, hfrac, fun _ => rfl⟩, Nat.le_refl 1, rfl, fun b hroom => ?_⟩
    have hsize : 97 ≤ b.input.c0.size := hroom 0 (by decide)
    refine ⟨_, rfl, b.computed_mapPixels fun i hi q => Load.triple_eq_into ?_ q⟩
    have : i < 32 := hi
    omega
  | storeTriples hk => cases hk
  | clearAlpha hk => cases hk
  | swapEnds hk => cases hk
  | toUnit hk => cases hk
  | dot3 hk => cases hk

/-! ## 3. Storing -/

namespace Store

variable {s : Shape}

/-- A plane whose bytes at the place of a component are those of a register holds its low end. -/
theorem element_eq_truncate (hf : s.layout.frac = 0) {planes : Quad Bytes} {i : Nat} {c : Fin 4}
    {w : UInt32} (h : ∀ k, k < s.elem.size →
      (planes (s.planeOf c)).getD (s.startOf i c + k) 0 = Bytes.ofWord w k) :
    s.element planes i c = s.truncate w := by
  rw [Shape.truncate_whole hf, Shape.element, if_neg (by omega)]
  exact Bytes.word_eq_of_bytes (Shape.elem_size_le s.elem) h

theorem element_interleaved (hf : s.layout.frac = 0) (hp : s.layout.packed = true) (b : Block)
    {planes : Quad Bytes} {i : Nat} (hi : i < blockPixels)
    (h : s.bytesPerPlane (i + 1) ≤ planes.c0.size) {c : Fin 4} (hc : c.val < s.layout.count) :
    s.element { planes with c0 := interleaved s.elem.size s.layout.count b planes.c0 } i c =
      s.truncate ((b.pixel i) c) := by
  have hsize := Shape.elem_size_pos s.elem
  have hcount : 0 < s.layout.count := by omega
  have hchunk : 0 < s.elem.size * s.layout.count := Nat.mul_pos hsize hcount
  refine element_eq_truncate hf fun k hk => ?_
  have hlt := Shape.startOf_add_lt hf hc i hk
  have hroom : (i + 1) * (s.elem.size * s.layout.count) ≤ planes.c0.size := by
    rw [Shape.bytesPerPlane_whole hf, Layout.perPlane, if_pos hp, Nat.mul_comm s.layout.count] at h
    exact h
  have hplane : s.planeOf c = 0 := by rw [Shape.planeOf, if_pos hp]
  have hstart : s.startOf i c + k =
      s.elem.size * s.layout.count * i + (c.val * s.elem.size + k) := by
    rw [Shape.startOf, if_pos hp, Nat.mul_comm i]
    omega
  have hrest : c.val * s.elem.size + k < s.elem.size * s.layout.count := by
    have hle : (c.val + 1) * s.elem.size ≤ s.layout.count * s.elem.size := Nat.mul_le_mul_right _ hc
    rw [Nat.add_mul, Nat.one_mul] at hle
    rw [Nat.mul_comm s.elem.size]
    omega
  have hdiv : (s.startOf i c + k) / (s.elem.size * s.layout.count) = i := by
    rw [hstart, Nat.mul_add_div hchunk, Nat.div_eq_of_lt hrest, Nat.add_zero]
  have hmod : (s.startOf i c + k) % (s.elem.size * s.layout.count) / s.elem.size = c.val := by
    rw [hstart, Nat.mul_add_mod, Nat.mod_eq_of_lt hrest, Nat.mul_comm, Nat.mul_add_div hsize,
      Nat.div_eq_of_lt hk, Nat.add_zero]
  have hbyte : (s.startOf i c + k) % s.elem.size = k := by
    rw [hstart, Nat.mul_assoc, Nat.mul_add_mod, Nat.mul_comm, Nat.mul_add_mod,
      Nat.mod_eq_of_lt hk]
  rw [hplane]
  show (interleaved s.elem.size s.layout.count b planes.c0).getD _ 0 = _
  unfold interleaved
  rw [Bytes.getD_mapIdx _ _ (by omega)]
  simp only [hdiv, hmod, hbyte, hi, hroom, decide_true, Bool.and_self, if_true]
  rw [Block.reg_eq_pixel]
  congr
  exact Fin.ext (Nat.mod_eq_of_lt c.isLt)

theorem element_planar (hf : s.layout.frac = 0) (hp : s.layout.packed = false) (b : Block)
    {planes : Quad Bytes} {i : Nat} (hi : i < blockPixels) {c : Fin 4}
    (hc : c.val < s.layout.count) (h : s.bytesPerPlane (i + 1) ≤ (planes c).size) :
    s.element (Quad.ofFn fun c =>
        if c.val < s.layout.count then planar s.elem.size b c (planes c) else planes c) i c =
      s.truncate ((b.pixel i) c) := by
  have hsize := Shape.elem_size_pos s.elem
  refine element_eq_truncate hf fun k hk => ?_
  have hlt := Shape.startOf_add_lt hf hc i hk
  have hroom : (i + 1) * s.elem.size ≤ (planes c).size := by
    rw [Shape.bytesPerPlane_whole hf, Layout.perPlane, hp] at h
    simpa using h
  have hplane : s.planeOf c = c := by rw [Shape.planeOf, hp]; rfl
  have hstart : s.startOf i c + k = s.elem.size * i + k := by
    rw [Shape.startOf, hp, if_neg (by decide), Nat.mul_comm]
  have hdiv : (s.startOf i c + k) / s.elem.size = i := by
    rw [hstart, Nat.mul_add_div hsize, Nat.div_eq_of_lt hk, Nat.add_zero]
  have hbyte : (s.startOf i c + k) % s.elem.size = k := by
    rw [hstart, Nat.mul_add_mod, Nat.mod_eq_of_lt hk]
  rw [hplane, Quad.get_ofFn, if_pos hc]
  unfold planar
  rw [Bytes.getD_mapIdx _ _ (by omega)]
  simp only [hdiv, hbyte, hi, hroom, decide_true, Bool.and_self, if_true]
  rw [Block.reg_eq_pixel]

theorem element_fraction (hs : s.Regular) (hf : 0 < s.layout.frac) (b : Block)
    {planes : Quad Bytes} {i : Nat} (hi : i < blockPixels)
    (h : s.bytesPerPlane blockPixels ≤ planes.c0.size) (c : Fin 4) :
    s.element { planes with c0 := fraction s.layout.frac b planes.c0 } i c =
      s.truncate ((b.pixel i) 0) := by
  have hbyte : i / 2 ^ s.layout.frac < blockPixels / 2 ^ s.layout.frac := by
    have hi : i < 32 := hi
    show i / 2 ^ s.layout.frac < 32 / 2 ^ s.layout.frac
    rcases hs.frac_cases hf with hf | hf | hf <;> rw [hf] <;> omega
  have hroom := Shape.fraction_byte_lt hs hf i
  have hmono : s.bytesPerPlane (i + 1) ≤ s.bytesPerPlane blockPixels := Shape.bytesPerPlane_mono hi
  -- the digits of the byte are the low bits of the registers of its pixels
  have hpos : 0 < 2 ^ (8 / 2 ^ s.layout.frac) := Nat.two_pow_pos _
  obtain ⟨hlt, hdigit⟩ := digit_foldl hpos (d := fun k =>
    (b.reg (i / 2 ^ s.layout.frac * 2 ^ s.layout.frac + k) 0).toNat % 2 ^ (8 / 2 ^ s.layout.frac))
    (fun k => Nat.mod_lt _ hpos) (2 ^ s.layout.frac)
  have hmod : i % 2 ^ s.layout.frac < 2 ^ s.layout.frac := Nat.mod_lt _ (Nat.two_pow_pos _)
  have hindex : i / 2 ^ s.layout.frac * 2 ^ s.layout.frac + i % 2 ^ s.layout.frac = i := by
    rw [Nat.mul_comm]
    exact Nat.div_add_mod i _
  have hexp : 2 ^ (8 - 8 / 2 ^ s.layout.frac * (i % 2 ^ s.layout.frac + 1)) =
      (2 ^ (8 / 2 ^ s.layout.frac)) ^ (2 ^ s.layout.frac - 1 - i % 2 ^ s.layout.frac) := by
    rw [← Nat.pow_mul]
    congr 1
    rcases hs.frac_cases hf with hf | hf | hf <;> rw [hf] at hmod ⊢ <;>
      simp only [Nat.reducePow, Nat.reduceDiv, Nat.reduceSub] at hmod ⊢ <;> omega
  have hfull : (2 ^ (8 / 2 ^ s.layout.frac)) ^ 2 ^ s.layout.frac = 2 ^ 8 := by
    rcases hs.frac_cases hf with hf | hf | hf <;> simp [hf]
  have hread := hdigit _ hmod
  rw [hindex, ← hexp, Block.reg_eq_pixel] at hread
  rw [hfull] at hlt
  rw [Shape.element, if_pos hf, Shape.truncate, Shape.values, if_pos hf]
  show Load.fraction s.layout.frac (fraction s.layout.frac b planes.c0) i = _
  unfold Load.fraction fraction
  rw [Bytes.getD_mapIdx _ _ (by omega), if_pos hbyte]
  unfold fractionByte
  simp only [Nat.toUInt8, UInt8.toNat_ofNat', Nat.mod_eq_of_lt hlt]
  rw [hread]

/-- The word of four bytes that is stored for a pixel of three. -/
def tripleWord (b : Block) (x : Nat) : Bytes :=
  #[Bytes.ofWord (b.reg x 0) 0, Bytes.ofWord (b.reg x 1) 0, Bytes.ofWord (b.reg x 2) 0, 0]

/-- Words of four bytes, three bytes apart, leave three bytes of each. -/
theorem getD_triples (b : Block) {plane : Bytes} (h : 97 ≤ plane.size) {i j : Nat} (hi : i < 32)
    (hj : j < 3) : (triples b plane).getD (i * 3 + j) 0 = (tripleWord b i).getD j 0 := by
  have hstep : ∀ (d : Bytes) (n : Nat), d.size = plane.size → n < blockPixels →
      (if 3 * n + 4 ≤ d.size then d.splice (3 * n) (tripleWord b n) else d) =
        d.splice (n * 3) (tripleWord b n) := by
    intro d n hd hn
    have hn : n < 32 := hn
    rw [if_pos (by omega), Nat.mul_comm]
  have hpiece : ∀ n, n < blockPixels → 3 ≤ (tripleWord b n).size := by
    intro n _
    show 3 ≤ 4
    decide
  exact (Bytes.getD_foldl_splice hstep hpiece rfl blockPixels (Nat.le_refl _)).2 i j hi hj (by omega)

theorem getD_tripleWord (b : Block) (i : Nat) {c : Fin 4} (hc : c.val < 3) :
    (tripleWord b i).getD c.val 0 = Bytes.ofWord (b.reg i c) 0 := by
  match c, hc with
  | 0, _ | 1, _ | 2, _ => rfl

/-- A first plane with the bytes of three registers per pixel. -/
theorem element_first {planes : Quad Bytes} {first : Bytes} {i : Nat} {c : Fin 4} {w : UInt32}
    (h : first.getD (i * 3 + c.val) 0 = Bytes.ofWord w 0) :
    Shape.element ⟨.u8, ⟨3, true, 0⟩⟩ { planes with c0 := first } i c =
      Shape.truncate ⟨.u8, ⟨3, true, 0⟩⟩ w := by
  refine element_eq_truncate rfl fun k hk => ?_
  have hk : k = 0 := by
    have : k < 1 := hk
    omega
  subst hk
  have hstart : Shape.startOf ⟨.u8, ⟨3, true, 0⟩⟩ i c + 0 = i * 3 + c.val := by
    show i * (1 * 3) + c.val * 1 = _
    omega
  rw [hstart]
  exact h

theorem element_triples (b : Block) {planes : Quad Bytes} (h : 97 ≤ planes.c0.size) {i : Nat}
    (hi : i < blockPixels) {c : Fin 4} (hc : c.val < 3) :
    Shape.element ⟨.u8, ⟨3, true, 0⟩⟩ { planes with c0 := triples b planes.c0 } i c =
      Shape.truncate ⟨.u8, ⟨3, true, 0⟩⟩ ((b.pixel i) c) := by
  refine element_first ?_
  rw [getD_triples b h hi hc, getD_tripleWord b i hc, Block.reg_eq_pixel]

theorem size_triples (b : Block) (plane : Bytes) : (triples b plane).size = plane.size := by
  unfold triples
  generalize List.range blockPixels = xs
  induction xs generalizing plane with
  | nil => rfl
  | cons x xs ih =>
    rw [List.foldl_cons, ih]
    split
    · exact Bytes.size_splice _ _ _
    · rfl

end Store

/-- **The kernel of a write** puts the registers of each pixel into its elements. -/
theorem Chosen.store {s : Shape} {info : Info} {k : Kernel} {r w : Nat}
    (h : Chosen ⟨s.elem, .write s.layout, info⟩ k r w) (hwf : s.layout.wellFormed = true)
    (hfrac : s.layout.frac ≤ 3) :
    s.Regular ∧ r = 0 ∧ w ≤ 1 ∧ ∀ b : Block,
      Conversion.Room s b.output (s.bytesPerPlane blockPixels + w) →
        ∃ b', k.run b = .ok b' ∧ Conversion.SameSize b'.output b.output ∧
          ∀ i, i < blockPixels → ∀ c : Fin 4, c.val < s.layout.count →
            s.element b'.output i c = s.truncate ((b.pixel i) c) := by
  cases h with
  | @generic setup _ hs hk =>
    cases hs
    obtain ⟨l, hl, rfl⟩ : ∃ l, Setup.transfer ⟨s.elem, .write s.layout, info⟩ = .ok l ∧
        k = Kernel.store s.elem.size l := by
      cases ht : Setup.transfer ⟨s.elem, .write s.layout, info⟩ with
      | error e => simp only [Setup.store, ht] at hk; cases hk
      | ok l => simp only [Setup.store, ht] at hk; exact ⟨l, rfl, (Except.ok.inj hk).symm⟩
    obtain ⟨rfl, hreg⟩ := Setup.transfer_eq_ok rfl hl hwf hfrac
    have hreg : s.Regular := hreg
    refine ⟨hreg, rfl, by omega, fun b hroom => ?_⟩
    have hsize : ∀ p : Fin 4, p.val < s.layout.planes → ∀ i, i < blockPixels →
        s.bytesPerPlane (i + 1) ≤ (b.output p).size := fun p hp i hi =>
      Nat.le_trans (Shape.bytesPerPlane_mono hi) (hroom p hp)
    simp only [Kernel.run]
    split
    · rename_i hf
      refine ⟨_, rfl, Conversion.sameSize_first Array.size_mapIdx, fun i hi c hc => ?_⟩
      have hzero : c = 0 := by
        have := hreg.count_eq_one hf
        apply Fin.ext
        show c.val = 0
        omega
      subst hzero
      exact Store.element_fraction hreg hf b hi (hroom 0 hreg.planes_pos) 0
    · rename_i hf
      have hf : s.layout.frac = 0 := by omega
      split
      · rename_i hp
        rw [if_neg hreg.chunk_ne_zero]
        exact ⟨_, rfl, Conversion.sameSize_first Array.size_mapIdx, fun i hi c hc =>
          Store.element_interleaved hf hp b hi (hsize 0 hreg.planes_pos i hi) hc⟩
      · rename_i hp
        have hp : s.layout.packed = false := Bool.eq_false_iff.mpr hp
        refine ⟨_, rfl, fun p => ?_, fun i hi c hc => ?_⟩
        · rw [Quad.get_ofFn]
          split
          · exact Array.size_mapIdx
          · rfl
        · exact Store.element_planar hf hp b hi hc
            (hsize c (by rw [Layout.planes, hp]; exact hc) i hi)
  | storeTriples hk he =>
    obtain ⟨elem, layout⟩ := s
    cases hk
    cases he
    refine ⟨⟨hwf, hfrac, fun _ => rfl⟩, rfl, Nat.le_refl 1, fun b hroom => ?_⟩
    exact ⟨b.mapFirst (Store.triples b), rfl, Conversion.sameSize_first (Store.size_triples b _),
      fun i hi c hc => Store.element_triples b (hroom 0 (by decide)) hi hc⟩
  | loadTriples hk => cases hk
  | clearAlpha hk => cases hk
  | swapEnds hk => cases hk
  | toUnit hk => cases hk
  | dot3 hk => cases hk

end PixelConv
