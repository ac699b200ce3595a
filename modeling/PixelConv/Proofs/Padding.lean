import PixelConv.Proofs.Safety

/-!
# What lies after the pixels of a row

A block is converted as a whole, so the routine also sees what stands after the pixels of a row:
padding, the next row or nothing. Elements of whole bytes keep it out of the output. Where output
elements share bytes, the last byte of a row has room for pixels that were not asked for; they are
converted with the others. If the source bytes of the row hold them too they are settled, otherwise
the padding shows (`Conversion.Spills`).

Main statement: runs on two sources that agree on the bytes of their pixels have the same output,
but for the low bits of the last byte of a row that spills (`Backend.run_ignores_padding`).
-/

namespace PixelConv

/-! ## 1. Pixels that a row of bytes holds -/

/-- The pixels that the bytes of the first `width` pixels have room for. -/
def Layout.covered (l : Layout) (width : Nat) : Nat :=
  (width + (2 ^ l.frac - 1)) / 2 ^ l.frac * 2 ^ l.frac

theorem Layout.le_covered (l : Layout) (width : Nat) : width ≤ l.covered width := by
  have hpos : 0 < 2 ^ l.frac := Nat.two_pow_pos _
  have hdiv := Nat.div_add_mod (width + (2 ^ l.frac - 1)) (2 ^ l.frac)
  have hmod := Nat.mod_lt (width + (2 ^ l.frac - 1)) hpos
  rw [Nat.mul_comm] at hdiv
  unfold covered
  omega

/-- The pixels of a row that ends within byte `q`. -/
theorem Layout.covered_of_within {l : Layout} {width q : Nat} (hstart : q * 2 ^ l.frac < width)
    (hend : width < q * 2 ^ l.frac + 2 ^ l.frac) :
    width / 2 ^ l.frac = q ∧ l.covered width = q * 2 ^ l.frac + 2 ^ l.frac := by
  have hnext : (width + (2 ^ l.frac - 1)) / 2 ^ l.frac = q + 1 := by
    refine Nat.div_eq_of_lt_le ?_ ?_
    · rw [Nat.succ_mul]
      omega
    · rw [Nat.succ_mul, Nat.succ_mul]
      omega
  refine ⟨Nat.div_eq_of_lt_le (Nat.le_of_lt hstart) (by rw [Nat.succ_mul]; exact hend), ?_⟩
  rw [covered, hnext, Nat.succ_mul]

namespace Shape

variable {s : Shape}

theorem bytesPerPlane_covered (hs : s.Regular) (width : Nat) :
    s.bytesPerPlane (s.layout.covered width) = s.bytesPerPlane width := by
  by_cases hf : s.layout.frac = 0
  · simp only [Layout.covered, hf, Nat.pow_zero, Nat.sub_self, Nat.add_zero, Nat.div_one,
      Nat.mul_one]
  · have hf : 0 < s.layout.frac := Nat.pos_of_ne_zero hf
    have hpos : 0 < 2 ^ s.layout.frac := Nat.two_pow_pos _
    rw [bytesPerPlane_fraction hs hf, bytesPerPlane_fraction hs hf, Layout.covered, Nat.mul_comm,
      Nat.mul_add_div hpos, Nat.div_eq_of_lt (Nat.sub_lt hpos Nat.zero_lt_one), Nat.add_zero]

/-- The byte of a pixel that has room in the row. -/
theorem byte_of_covered (hs : s.Regular) (hf : 0 < s.layout.frac) {width x : Nat}
    (hx : x < s.layout.covered width) : x / 2 ^ s.layout.frac < s.bytesPerPlane width := by
  rw [bytesPerPlane_fraction hs hf]
  exact Nat.div_lt_of_lt_mul (by rw [Nat.mul_comm]; exact hx)

/-- Rows that agree on the bytes of their pixels agree on all pixels in them. -/
theorem Agree.pixel_covered (hs : s.Regular) {width : Nat} {a b : Quad Bytes}
    (h : s.Agree width a b) {x : Nat} (hx : x < s.layout.covered width) :
    s.pixel a x = s.pixel b x :=
  pixel_congr hs (fun p hp i hi => h p hp i (by rwa [bytesPerPlane_covered hs] at hi)) hx

end Shape

/-! ## 2. High bits -/

/-- The highest `n` bits of two bytes are the same. -/
def SameHighBits (n : Nat) (u v : UInt8) : Prop := u.toNat / 2 ^ (8 - n) = v.toNat / 2 ^ (8 - n)

theorem SameHighBits.eq {u v : UInt8} (h : SameHighBits 8 u v) : u = v := by
  rw [SameHighBits, Nat.sub_self, Nat.pow_zero, Nat.div_one, Nat.div_one] at h
  exact UInt8.toNat_inj.mp h

/-- Elements that are equal have the same bits in their bytes. -/
theorem Load.fraction_bits {frac j k : Nat} (hk : k < 2 ^ frac) {a b : Bytes}
    (h : fraction frac a (j * 2 ^ frac + k) = fraction frac b (j * 2 ^ frac + k)) :
    (a.getD j 0).toNat / 2 ^ (8 - 8 / 2 ^ frac * (k + 1) : Nat) % 2 ^ (8 / 2 ^ frac : Nat) =
      (b.getD j 0).toNat / 2 ^ (8 - 8 / 2 ^ frac * (k + 1) : Nat) % 2 ^ (8 / 2 ^ frac : Nat) := by
  have hpos : 0 < 2 ^ frac := Nat.two_pow_pos _
  have hdiv : (j * 2 ^ frac + k) / 2 ^ frac = j := by
    rw [Nat.mul_comm, Nat.mul_add_div hpos, Nat.div_eq_of_lt hk, Nat.add_zero]
  have hmod : (j * 2 ^ frac + k) % 2 ^ frac = k := by
    rw [Nat.mul_comm, Nat.mul_add_mod, Nat.mod_eq_of_lt hk]
  have hlt : ∀ n : Nat, n % 2 ^ (8 / 2 ^ frac) < 2 ^ 32 := fun n =>
    Nat.lt_of_lt_of_le (Nat.mod_lt n (Nat.two_pow_pos _)) (Nat.pow_le_pow_right (by decide)
      (Nat.le_trans (Nat.div_le_self 8 _) (by decide)))
  have hnat := congrArg UInt32.toNat h
  simp only [fraction, hdiv, hmod, Nat.toUInt32, UInt32.toNat_ofNat'] at hnat
  rwa [Nat.mod_eq_of_lt (hlt _), Nat.mod_eq_of_lt (hlt _)] at hnat

/-- **The first `t` elements of a byte are its high bits.** -/
theorem Load.sameHighBits {frac j : Nat} {a b : Bytes} : ∀ t, t ≤ 2 ^ frac →
    (∀ k, k < t → fraction frac a (j * 2 ^ frac + k) = fraction frac b (j * 2 ^ frac + k)) →
    SameHighBits (8 / 2 ^ frac * t) (a.getD j 0) (b.getD j 0)
  | 0, _, _ => by
    rw [SameHighBits, Nat.mul_zero, Nat.div_eq_of_lt (UInt8.toNat_lt _),
      Nat.div_eq_of_lt (UInt8.toNat_lt _)]
  | t + 1, ht, h => by
    have hbits : 8 / 2 ^ frac * (t + 1) ≤ 8 :=
      Nat.le_trans (Nat.mul_le_mul_left _ ht) (Nat.div_mul_le_self 8 _)
    have hstep : 8 - 8 / 2 ^ frac * t = 8 - 8 / 2 ^ frac * (t + 1) + 8 / 2 ^ frac := by
      rw [Nat.mul_succ] at hbits ⊢
      generalize 8 / 2 ^ frac = bits at hbits ⊢
      omega
    -- the bits so far, and those of the next element
    have hhigh := sameHighBits t (by omega) fun k hk => h k (by omega)
    have hlow := fraction_bits ht (h t (Nat.lt_succ_self t))
    rw [SameHighBits, hstep, Nat.pow_add, ← Nat.div_div_eq_div_mul,
      ← Nat.div_div_eq_div_mul] at hhigh
    rw [SameHighBits, ← Nat.div_add_mod ((a.getD j 0).toNat / _) (2 ^ (8 / 2 ^ frac)), hhigh, hlow,
      Nat.div_add_mod]

/-! ## 3. Blocks of two sources -/

namespace Conversion

variable {c : Conversion} {f : Nat → Nat → Pixel → Pixel}

/-- The last output byte of a row has room for pixels that its source bytes do not hold. -/
def Spills (c : Conversion) (width : Nat) : Prop :=
  c.read.layout.covered width < c.write.layout.covered width

instance (c : Conversion) (width : Nat) : Decidable (c.Spills width) :=
  inferInstanceAs (Decidable (_ < _))

/-- The bits of the last output byte of a row that its source bytes determine. -/
def settledBits (c : Conversion) (width : Nat) : Nat :=
  8 / 2 ^ c.write.layout.frac *
    (c.read.layout.covered width - width / 2 ^ c.write.layout.frac * 2 ^ c.write.layout.frac)

/-- Byte `i` of plane `p` is the last one of a row that spills, and two values of it have the same
settled bits. -/
structure SpilledByte (c : Conversion) (dst : View) (rows width : Nat) (p : Fin 4) (i : Nat)
    (u v : UInt8) : Prop where
  spills : c.Spills width
  first : p = 0
  last : ∃ r, r < rows ∧ i = r * dst.stride p + width / 2 ^ c.write.layout.frac
  settled : SameHighBits (c.settledBits width) u v

/-- The routine sees the pixels of the row. -/
theorem Presents.pixel_eq (h : c.Pixelwise f) {input src : Quad Bytes} {x : Nat}
    (hsrc : c.Presents input x src) (hx : c.blockSize ∣ x) {i : Nat} (hi : i < c.blockSize) :
    c.read.pixel src i = c.read.pixel input (x + i) := by
  have hscratch := h.read_scratch
  rw [← Shape.pixel_after h.read (Nat.dvd_trans h.read_aligned hx)]
  refine Shape.pixel_congr h.read (n := c.blockSize) (fun p hp j hj => ?_) hi
  rw [hsrc.byte p hp j (by omega), Quad.get_map, Bytes.getD_after]

section Blocks

variable {input input' src src' dst dst' piece piece' : Quad Bytes} {x y width : Nat}

/-- The same block of two rows: elements are the same as far as the rows determine them. -/
theorem Pixelwise.elements_eq (h : c.Pixelwise f) (hagree : c.read.Agree width input input')
    (hx : c.blockSize ∣ x) (hsrc : c.Presents input x src) (hsrc' : c.Presents input' x src')
    (hdst : c.Accepts dst) (hdst' : c.Accepts dst') (hrun : c.onBlock src dst x y = .ok piece)
    (hrun' : c.onBlock src' dst' x y = .ok piece') {i : Nat} (hi : i < c.blockSize)
    (hcovered : x + i < c.read.layout.covered width) {k : Fin 4} (hk : k.val < c.write.layout.count) :
    c.write.element piece i k = c.write.element piece' i k := by
  obtain ⟨out, hout, -, hpixels⟩ := h.onBlock src dst x y hsrc.room hdst
  obtain ⟨out', hout', -, hpixels'⟩ := h.onBlock src' dst' x y hsrc'.room hdst'
  cases hrun.symm.trans hout
  cases hrun'.symm.trans hout'
  rw [hpixels i hi k hk, hpixels' i hi k hk, hsrc.pixel_eq h hx hi, hsrc'.pixel_eq h hx hi,
    hagree.pixel_covered h.read hcovered]

/-- Bytes of whole elements. -/
theorem bytes_eq_of_whole (hw : c.write.Regular) (hf : c.write.layout.frac = 0)
    (helements : ∀ i, i < c.blockSize → x + i < c.read.layout.covered width →
      ∀ k : Fin 4, k.val < c.write.layout.count →
        c.write.element piece i k = c.write.element piece' i k)
    {p : Fin 4} (hp : p.val < c.write.layout.planes) {j : Nat}
    (hj : j < c.write.bytesPerPlane (min c.blockSize (width - x))) :
    (piece p).getD j 0 = (piece' p).getD j 0 := by
  have hcovered := c.read.layout.le_covered width
  exact Shape.agree_of_elements hw hf
    (fun i hi k hk => helements i (by omega) (by omega) k hk) p hp j hj

/-- A byte of the row that elements share lies within its block, and its first element is a pixel of
the row. -/
theorem Pixelwise.shared_place (h : c.Pixelwise f) (hf : 0 < c.write.layout.frac)
    (hx : c.blockSize ∣ x) {j : Nat}
    (hj : j < c.write.bytesPerPlane (min c.blockSize (width - x))) :
    j * 2 ^ c.write.layout.frac + 2 ^ c.write.layout.frac ≤ c.blockSize ∧
      x + j * 2 ^ c.write.layout.frac =
        (c.write.bytesPerPlane x + j) * 2 ^ c.write.layout.frac ∧
      x + j * 2 ^ c.write.layout.frac < width := by
  have hpos : 0 < 2 ^ c.write.layout.frac := Nat.two_pow_pos _
  obtain ⟨m, hm⟩ := h.write_aligned
  obtain ⟨q, hq⟩ := Nat.dvd_trans ⟨m, hm⟩ hx
  rw [Shape.bytesPerPlane_fraction h.write hf] at hj ⊢
  generalize 2 ^ c.write.layout.frac = d at hpos hm hq hj ⊢
  have hstart : j * d < min c.blockSize (width - x) := by
    rw [Nat.lt_div_iff_mul_lt hpos] at hj
    omega
  have hjm : j < m := Nat.lt_of_mul_lt_mul_left (a := d) (by rw [← hm, Nat.mul_comm]; omega)
  have hle : d * (j + 1) ≤ d * m := Nat.mul_le_mul_left d hjm
  rw [← hm, Nat.mul_succ, Nat.mul_comm d j] at hle
  refine ⟨hle, ?_, by omega⟩
  rw [hq, Nat.mul_add_div hpos, Nat.div_eq_of_lt (Nat.sub_lt hpos Nat.zero_lt_one), Nat.add_zero,
    Nat.add_mul, Nat.mul_comm q d]

/-- Bytes that elements share: only the last one of the row can be unsettled, and only if the row
spills. -/
theorem Pixelwise.byte_of_fraction (h : c.Pixelwise f) (hf : 0 < c.write.layout.frac)
    (hx : c.blockSize ∣ x)
    (helements : ∀ i, i < c.blockSize → x + i < c.read.layout.covered width →
      ∀ k : Fin 4, k.val < c.write.layout.count →
        c.write.element piece i k = c.write.element piece' i k)
    {j : Nat} (hj : j < c.write.bytesPerPlane (min c.blockSize (width - x))) :
    (piece 0).getD j 0 = (piece' 0).getD j 0 ∨
      c.Spills width ∧ c.write.bytesPerPlane x + j = width / 2 ^ c.write.layout.frac ∧
        SameHighBits (c.settledBits width) ((piece 0).getD j 0) ((piece' 0).getD j 0) := by
  obtain ⟨hblock, hplace, hstart⟩ := h.shared_place hf hx hj
  have hcovered := c.read.layout.le_covered width
  have hbits : ∀ t, t ≤ 2 ^ c.write.layout.frac →
      x + j * 2 ^ c.write.layout.frac + t ≤ c.read.layout.covered width →
      SameHighBits (8 / 2 ^ c.write.layout.frac * t) ((piece 0).getD j 0)
        ((piece' 0).getD j 0) := by
    intro t ht hend
    refine Load.sameHighBits t ht fun k hk => ?_
    have heq := helements (j * 2 ^ c.write.layout.frac + k) (by omega) (by omega) 0
      h.write.count_pos
    rw [Shape.element, Shape.element, if_pos hf, if_pos hf] at heq
    exact heq
  by_cases hfull : x + j * 2 ^ c.write.layout.frac + 2 ^ c.write.layout.frac ≤
      c.read.layout.covered width
  · have hall : 8 / 2 ^ c.write.layout.frac * 2 ^ c.write.layout.frac = 8 := by
      rcases h.write.frac_cases hf with hf | hf | hf <;> rw [hf]
    have hsame := hbits _ (Nat.le_refl _) hfull
    rw [hall] at hsame
    exact .inl hsame.eq
  · -- the row ends within the byte
    obtain ⟨hlast, hwritten⟩ := Layout.covered_of_within (hplace ▸ hstart)
      (show width < _ by omega)
    refine .inr ⟨?_, hlast.symm, ?_⟩
    · rw [Spills, hwritten]
      omega
    · rw [settledBits, hlast, ← hplace]
      exact hbits _ (by omega) (by omega)

end Blocks

/-- **The same row of two sources.** -/
theorem Pixelwise.lockstep (h : c.Pixelwise f) {input input' : Quad Bytes} {width : Nat}
    (hagree : c.read.Agree width input input') (dst : View) {rows r : Nat} (hr : r < rows) (y : Nat) :
    Lockstep c c input input' width y fun p i u v =>
      u = v ∨ c.SpilledByte dst rows width p (r * dst.stride p + i) u v := by
  intro x hx _ src src' out out' piece piece' hsrc hsrc' hout hout' hrun hrun' p hp j hj _
  have helements := fun i hi hcovered k hk => h.elements_eq hagree hx hsrc hsrc' hout hout' hrun
    hrun' (i := i) hi hcovered (k := k) hk
  by_cases hf : c.write.layout.frac = 0
  · exact .inl (bytes_eq_of_whole h.write hf helements hp hj)
  · have hf : 0 < c.write.layout.frac := Nat.pos_of_ne_zero hf
    -- elements share bytes in a single plane only
    obtain rfl : p = 0 := Layout.plane_eq_zero (h.write.count_eq_one hf) hp
    rcases h.byte_of_fraction hf hx helements hj with heq | ⟨hspills, hlast, hsettled⟩
    · exact .inl heq
    · exact .inr ⟨hspills, rfl, ⟨r, hr, by rw [hlast]⟩, hsettled⟩

/-- A row of elements that share bytes: all pixels that the output bytes have room for are converted,
also those that were not asked for. -/
theorem Pixelwise.convertRow_covered (h : c.Pixelwise f) (hf : 0 < c.write.layout.frac)
    (input output : Quad Bytes) {width : Nat} (hroom : c.write.bytesPerPlane width ≤ (output 0).size)
    (y : Nat) : ∃ out, c.convertRow input output width y = .ok out ∧ SameSize out output ∧
      ∀ x, x < c.write.layout.covered width →
        Load.fraction c.write.layout.frac (out 0) x = (f x y (c.read.pixel input x)) 0 := by
  have hpos : 0 < 2 ^ c.write.layout.frac := Nat.two_pow_pos _
  -- the elements of a byte in block `x` are those of the block
  have hstep : Lockstep c c input input width y fun p i u _ => p = 0 →
      ∀ k, k < 2 ^ c.write.layout.frac → Load.fraction c.write.layout.frac #[u] k =
        (f (i * 2 ^ c.write.layout.frac + k) y
          (c.read.pixel input (i * 2 ^ c.write.layout.frac + k))) 0 := by
    intro x hx _ src src' dst dst' piece piece' hsrc _ hdst _ hrun _ p hp j hj _ hzero k hk
    subst hzero
    obtain ⟨out, hout, -, hpixels⟩ := h.onBlock src dst x y hsrc.room hdst
    cases hrun.symm.trans hout
    obtain ⟨hblock, hplace, -⟩ := h.shared_place hf hx hj
    have hi : j * 2 ^ c.write.layout.frac + k < c.blockSize := by omega
    have helement := hpixels _ hi 0 h.write.count_pos
    rw [hsrc.pixel_eq h hx hi, Shape.element, if_pos hf, ← Nat.add_assoc, hplace] at helement
    rw [← helement]
    refine fraction_congr ?_ ?_
    · rw [Nat.div_eq_of_lt hk, Nat.mul_comm, Nat.mul_add_div hpos, Nat.div_eq_of_lt hk, Nat.add_zero]
      rfl
    · rw [Nat.mul_comm, Nat.mul_add_mod]
  obtain ⟨out, -, hrun, -, hsize, -, hbytes⟩ := convertRow_lockstep h.robust.paired
    (fun _ => frac_lt_wordBits h.read) hstep (fun _ => rfl)
  refine ⟨out, hrun, hsize, fun x hx => ?_⟩
  have hbyte := Shape.byte_of_covered h.write hf hx
  have hbits := hbytes 0 h.write.planes_pos _ hbyte (Nat.lt_of_lt_of_le hbyte hroom) rfl
    (x % 2 ^ c.write.layout.frac) (Nat.mod_lt x hpos)
  rw [Nat.div_add_mod'] at hbits
  rw [← hbits]
  refine fraction_congr ?_ (Nat.mod_mod x _).symm
  rw [Nat.div_eq_of_lt (Nat.mod_lt x hpos)]
  rfl

/-- The same for a view of one row. -/
theorem Pixelwise.run_covered (h : c.Pixelwise f) (hf : 0 < c.write.layout.frac) (src dst : View)
    (width : Nat) (hrows : min src.rows dst.rows = 1)
    (hroom : c.write.bytesPerPlane width ≤ (dst.planes 0).size) :
    ∃ out, c.run src dst width = .ok out ∧ ∀ x, x < c.write.layout.covered width →
      Load.fraction c.write.layout.frac (out.planes 0) x =
        (f x dst.firstRow (c.read.pixel (src.row 0) x)) 0 := by
  have hsize := size_rowOutput_le c dst width 0 0
  rw [if_pos (show (0 : Fin 4).val < _ from h.write.planes_pos), Nat.zero_mul, Nat.sub_zero,
    Nat.min_eq_left hroom] at hsize
  obtain ⟨piece, hrow, hpiece, hbits⟩ := h.convertRow_covered hf (src.row 0)
    (c.rowOutput dst width 0) (Nat.le_of_eq hsize.symm) (dst.firstRow + 0)
  obtain ⟨out, hstep, hbytes⟩ := rowStep_bytes hrow hpiece
  refine ⟨out, ?_, fun x hx => ?_⟩
  · unfold run
    rw [measured_eq (frac_lt_wordBits h.write), hrows, List.range_one, List.foldlM_cons, hstep]
    rfl
  · have hbyte := Shape.byte_of_covered h.write hf hx
    have hout := hbytes 0 (x / 2 ^ c.write.layout.frac) (by omega)
    rw [Nat.zero_mul, Nat.zero_add, if_pos ⟨Nat.zero_le _, by rw [hpiece 0, hsize]; exact hbyte⟩,
      Nat.sub_zero] at hout
    exact (fraction_congr hout rfl).trans (hbits x hx)

end Conversion

/-! ## 4. Runs on two sources -/

namespace Backend

/-- **Padding is ignored, unless a row spills.** Let the portable backend build a conversion from a
checked program, with at most eight elements to a byte. On two sources with the same number of rows
that agree on the bytes of the first `width` pixels of each row, both runs come to an end. Where rows
do not spill the outputs are the same. Otherwise they differ at most in the last byte of a row, in
bits that belong to no pixel of the source bytes. -/
theorem run_ignores_padding {p : Program} {cpu : CpuSet} {matched : List Match} {c : Conversion}
    (hcheck : p.check = .ok (.ok ())) (hbuild : portable.build p cpu = .ok (matched, .ok c))
    (hread : c.read.layout.frac ≤ 3) (hwrite : c.write.layout.frac ≤ 3) (a b dst : View)
    (width : Nat) (hrows : b.rows = a.rows)
    (hagree : ∀ r, r < min a.rows dst.rows → c.read.Agree width (a.row r) (b.row r)) :
    ∃ outA outB, c.run a dst width = .ok outA ∧ c.run b dst width = .ok outB ∧
      Conversion.SameFrame outA dst ∧ Conversion.SameFrame outB dst ∧
      (¬c.Spills width → outA = outB) ∧
      ∀ p i, i < (dst.planes p).size →
        (outA.planes p).getD i 0 = (outB.planes p).getD i 0 ∨
          c.SpilledByte dst (min a.rows dst.rows) width p i ((outA.planes p).getD i 0)
            ((outB.planes p).getD i 0) := by
  obtain ⟨f, hpix⟩ := portable_pixelwise hcheck hbuild hread hwrite
  obtain ⟨outA, outB, hrunA, hrunB, hframeA, hframeB, hbytes⟩ := Conversion.run_lockstep
    (fun p i u v => u = v ∨ c.SpilledByte dst (min a.rows dst.rows) width p i u v)
    hpix.robust.paired (Conversion.frac_lt_wordBits hpix.write)
    (fun _ _ => Conversion.frac_lt_wordBits hpix.read) hrows
    (fun r hr => hpix.lockstep (hagree r hr) dst hr (dst.firstRow + r))
    (fun p i _ => .inl rfl)
  refine ⟨outA, outB, hrunA, hrunB, hframeA, hframeB, fun hspills => ?_, hbytes⟩
  refine (hframeA.trans hframeB.symm).eq_of_bytes fun p i hi => ?_
  rcases hbytes p i (by rw [← hframeB.size p]; exact hi) with heq | hspilled
  · exact heq
  · exact absurd hspilled.spills hspills

/-- Rows of a single plane. -/
def stacked (plane : Bytes) (stride rows : Nat) : View :=
  ⟨⟨plane, #[], #[], #[]⟩, ⟨stride, 0, 0, 0⟩, 0, rows⟩

theorem nibbles_ignore_padding : (dividing 1).check = .ok (.ok ()) ∧
    ∃ matched c outA outB, portable.build (dividing 1) CpuSet.none = .ok (matched, .ok c) ∧
      c.run (stacked #[1, 2, 3, 9, 4, 5, 6, 9] 4 2) (stacked #[0, 0, 0, 0] 2 2) 3 = .ok outA ∧
      c.run (stacked #[1, 2, 3, 8, 4, 5, 6] 4 2) (stacked #[0, 0, 0, 0] 2 2) 3 = .ok outB ∧
      (outA.planes 0).getD 2 0 = (outB.planes 0).getD 2 0 ∧
      ((outA.planes 0).getD 3 0 = (outB.planes 0).getD 3 0 ∨
        SameHighBits 4 ((outA.planes 0).getD 3 0) ((outB.planes 0).getD 3 0)) := by
  have hcheck : (dividing 1).check = .ok (.ok ()) := rfl
  obtain ⟨matched, c, hbuild, hends⟩ := exists_build (dividing 1) CpuSet.none
    (fun c => (c.read, c.write)) (a := (⟨.u8, ⟨1, false, 0⟩⟩, ⟨.u8, ⟨1, false, 1⟩⟩))
    (by decide +kernel)
  obtain ⟨hread, hwrite⟩ := Prod.mk.inj hends
  have hsettled : c.settledBits 3 = 4 := by
    rw [Conversion.settledBits, hread, hwrite]
    decide
  obtain ⟨outA, outB, hrunA, hrunB, -, -, -, hbytes⟩ := run_ignores_padding hcheck hbuild
    (by rw [hread]; decide) (by rw [hwrite]; decide)
    (stacked #[1, 2, 3, 9, 4, 5, 6, 9] 4 2) (stacked #[1, 2, 3, 8, 4, 5, 6] 4 2)
    (stacked #[0, 0, 0, 0] 2 2) 3 rfl (by rw [hread]; unfold Shape.Agree; decide +kernel)
  refine ⟨hcheck, matched, c, outA, outB, hbuild, hrunA, hrunB, ?_, ?_⟩
  · -- the second row ends with the next byte
    refine (hbytes 0 2 (by decide)).resolve_right fun hspilled => ?_
    obtain ⟨r, -, hlast⟩ := hspilled.last
    rw [hwrite] at hlast
    have hlast : 2 = r * 2 + 1 := hlast
    omega
  · refine (hbytes 0 3 (by decide)).imp_right fun hspilled => ?_
    have hbits := hspilled.settled
    rw [hsettled] at hbits
    exact hbits

/-- Bits are the lowest ones of the bytes. -/
theorem bits_pixelwise : ∃ matched c, portable.build (dividing 3) CpuSet.none = .ok (matched, .ok c) ∧
    c.read = ⟨.u8, ⟨1, false, 0⟩⟩ ∧ c.write = ⟨.u8, ⟨1, false, 3⟩⟩ ∧
      c.Pixelwise fun _ _ q => q.map (Shape.truncate ⟨.u8, ⟨1, false, 3⟩⟩) := by
  obtain ⟨matched, c, hbuild, hlength⟩ := exists_build (dividing 3) CpuSet.none
    Conversion.chainLength? (a := some 2) (by decide +kernel)
  have hp : (dividing 3).Framed ⟨.u8, ⟨1, false, 0⟩⟩ ⟨.u8, ⟨1, false, 3⟩⟩ [] :=
    ⟨⟨_, _, rfl⟩, fun _ hop => absurd hop List.not_mem_nil, rfl, rfl⟩
  rcases portable_build_eq_ok hp hbuild with ⟨s, comps, -, rfl⟩ | ⟨chain, hlinked, -, rfl⟩
  · cases hlength
  · obtain ⟨gs, hgs, hpix⟩ := Chain.pixelwise hp hlinked (by decide) (by decide) chain.needs "scalar"
    cases hgs
    exact ⟨matched, _, hbuild, rfl, rfl, hpix⟩

/-- **Padding shows in a row that spills**: one pixel is asked for, and the byte after it decides on
a bit of the output. -/
theorem bits_show_padding : (dividing 3).check = .ok (.ok ()) ∧
    ∃ matched c outA outB, portable.build (dividing 3) CpuSet.none = .ok (matched, .ok c) ∧
      c.read.Agree 1 ((stacked #[1, 1] 2 1).row 0) ((stacked #[1, 0] 2 1).row 0) ∧
      c.run (stacked #[1, 1] 2 1) (stacked #[0] 1 1) 1 = .ok outA ∧
      c.run (stacked #[1, 0] 2 1) (stacked #[0] 1 1) 1 = .ok outB ∧ outA ≠ outB := by
  obtain ⟨matched, c, hbuild, hread, hwrite, hpix⟩ := bits_pixelwise
  have hruns : ∀ src : View, src.rows = 1 → ∃ out, c.run src (stacked #[0] 1 1) 1 = .ok out ∧
      Load.fraction 3 (out.planes 0) 1 =
        Shape.truncate ⟨.u8, ⟨1, false, 3⟩⟩ ((c.read.pixel (src.row 0) 1) 0) := by
    intro src hrows
    obtain ⟨out, hrun, hbits⟩ := hpix.run_covered (by rw [hwrite]; decide) src (stacked #[0] 1 1)
      1 (by rw [hrows]; rfl) (by rw [hwrite]; decide)
    have hbit := hbits 1 (by rw [hwrite]; decide)
    rw [hwrite, Quad.get_map] at hbit
    exact ⟨out, hrun, hbit⟩
  obtain ⟨outA, hrunA, hbitA⟩ := hruns (stacked #[1, 1] 2 1) rfl
  obtain ⟨outB, hrunB, hbitB⟩ := hruns (stacked #[1, 0] 2 1) rfl
  rw [hread] at hbitA hbitB
  refine ⟨rfl, matched, c, outA, outB, hbuild, ?_, hrunA, hrunB, ?_⟩
  · rw [hread]
    unfold Shape.Agree
    decide +kernel
  · rintro rfl
    exact absurd (hbitA.symm.trans hbitB) (by decide +kernel)

end Backend

end PixelConv
