import PixelConv.Proofs.Rows

/-!
# Two runs in lockstep

What comes of a conversion on any buffers, with rows too short for their pixels or none at all. A
block is always converted as a whole: in place where there is room for it and its margins, through
scratch buffers elsewhere. Either way the routine sees the input as if it went on with zeros, and the
bytes of the pixels that it stores are what arrives (`Conversion.convertBlock_done`).

Main statement: two conversions of the same shapes, on two sources, leave bytes that are related
wherever their routines store related bytes (`Conversion.run_lockstep`). What a single run does is
the case of one conversion and one source. A run breaks off only where the bytes of its pixels cannot
be measured (`Conversion.run_eq_error`).
-/

namespace PixelConv

/-- The bytes of two runs of pixels suffice for both together. -/
theorem Shape.bytesPerPlane_add_le (s : Shape) (a b : Nat) :
    s.bytesPerPlane (a + b) ≤ s.bytesPerPlane a + s.bytesPerPlane b := by
  unfold bytesPerPlane Layout.bytesPerPlane
  have hpos : 0 < 2 ^ s.layout.frac := Nat.two_pow_pos _
  generalize 2 ^ s.layout.frac = d at hpos
  have hsplit : (a + b) * s.layout.perPlane * s.elem.size =
      a * s.layout.perPlane * s.elem.size + b * s.layout.perPlane * s.elem.size := by
    rw [Nat.add_mul, Nat.add_mul]
  rw [hsplit]
  generalize a * s.layout.perPlane * s.elem.size = u
  generalize b * s.layout.perPlane * s.elem.size = v
  have hu := Nat.div_add_mod (u + (d - 1)) d
  have hv := Nat.div_add_mod (v + (d - 1)) d
  have hmodu := Nat.mod_lt (u + (d - 1)) hpos
  have hmodv := Nat.mod_lt (v + (d - 1)) hpos
  refine Nat.le_of_lt_succ (Nat.div_lt_of_lt_mul ?_)
  rw [Nat.mul_succ, Nat.mul_add]
  omega

namespace Conversion

/-! ## 1. The bytes of a block -/

/-- On planes that have the bytes of a block and the margins the routine does not fault, and such a
block fits into the scratch buffers. -/
structure Robust (c : Conversion) : Prop where
  notCopy : c.copiesRows = false
  read_planes : c.read.layout.planes ≤ 4
  write_planes : c.write.layout.planes ≤ 4
  block_pos : 0 < c.blockSize
  read_scratch : c.read.bytesPerPlane c.blockSize + c.readMargin ≤ scratchBytes
  write_scratch : c.write.bytesPerPlane c.blockSize + c.writeMargin ≤ scratchBytes
  onBlock : ∀ src dst x y, Room c.read src (c.read.bytesPerPlane c.blockSize + c.readMargin) →
    Room c.write dst (c.write.bytesPerPlane c.blockSize + c.writeMargin) →
    ∃ out, c.onBlock src dst x y = .ok out ∧ SameSize out dst

theorem Pixelwise.robust {c : Conversion} {f : Nat → Nat → Pixel → Pixel} (h : c.Pixelwise f) :
    c.Robust where
  notCopy := h.notCopy
  read_planes := h.read.planes_le
  write_planes := h.write.planes_le
  block_pos := h.block_pos
  read_scratch := h.read_scratch
  write_scratch := h.write_scratch
  onBlock src dst x y hsrc hdst := by
    obtain ⟨out, hrun, hsize, -⟩ := h.onBlock src dst x y hsrc hdst
    exact ⟨out, hrun, hsize⟩

/-- What the routine may get to see of a block from column `x` on: planes with room for it that start
like the input, where what is missing there counts as zero. -/
structure Presents (c : Conversion) (input : Quad Bytes) (x : Nat) (src : Quad Bytes) : Prop where
  room : Room c.read src (c.read.bytesPerPlane c.blockSize + c.readMargin)
  byte : ∀ p : Fin 4, p.val < c.read.layout.planes → ∀ i, i < scratchBytes →
    (src p).getD i 0 = (input p).getD (c.read.bytesPerPlane x + i) 0

/-- Where a block may be stored. -/
def Accepts (c : Conversion) (dst : Quad Bytes) : Prop :=
  Room c.write dst (c.write.bytesPerPlane c.blockSize + c.writeMargin)

/-- What converting the block of `n` pixels from column `x` on does to the output: the bytes to its
left stay, and those of its pixels, where they exist, are what the routine stores. -/
structure BytesDone (c : Conversion) (input output out : Quad Bytes) (x y n : Nat) : Prop where
  size : SameSize out output
  left : ∀ (p : Fin 4) i, i < c.write.bytesPerPlane x → (out p).getD i 0 = (output p).getD i 0
  stored : ∃ src dst piece, c.Presents input x src ∧ c.Accepts dst ∧
    c.onBlock src dst x y = .ok piece ∧ ∀ p : Fin 4, p.val < c.write.layout.planes →
      ∀ j, j < c.write.bytesPerPlane n → c.write.bytesPerPlane x + j < (output p).size →
        (out p).getD (c.write.bytesPerPlane x + j) 0 = (piece p).getD j 0

variable {c : Conversion}

theorem presents_inPlace {input : Quad Bytes} {x : Nat} (hin : Room c.read input
    (c.read.bytesPerPlane x + c.read.bytesPerPlane c.blockSize + c.readMargin)) :
    c.Presents input x (input.map (·.after (c.read.bytesPerPlane x))) where
  room p hp := by
    have := hin p hp
    rw [Quad.get_map, Bytes.size_after]
    omega
  byte p _ i _ := by rw [Quad.get_map, Bytes.getD_after]

theorem presents_scratchInput (h : c.Robust) (input : Quad Bytes) (x : Nat) :
    c.Presents input x (c.scratchInput input x) where
  room := room_scratchInput c input x h.read_scratch
  byte p hp i hi := by
    rw [scratchInput, Quad.get_ofFn, if_pos hp, ← Bytes.getD_after]
    by_cases hb : i < ((input p).after (c.read.bytesPerPlane x)).size
    · exact getD_scratch hb hi
    · rw [scratch, Bytes.getD_splice_beyond _ _ (by omega), Bytes.getD_zeros,
        Bytes.getD_of_le (Nat.le_of_not_lt hb)]

/-- A block in place. -/
theorem convertInPlace_done (h : c.Robust) {input output : Quad Bytes} {x n : Nat} (y : Nat)
    (hin : Room c.read input (c.read.bytesPerPlane x + c.read.bytesPerPlane c.blockSize +
      c.readMargin))
    (hout : Room c.write output (c.write.bytesPerPlane x + c.write.bytesPerPlane c.blockSize +
      c.writeMargin)) :
    ∃ out, c.convertInPlace input output x y = .ok out ∧ c.BytesDone input output out x y n := by
  have hsrc := presents_inPlace hin
  have hdst : c.Accepts (output.map (·.after (c.write.bytesPerPlane x))) := by
    intro p hp
    have := hout p hp
    rw [Quad.get_map, Bytes.size_after]
    omega
  obtain ⟨piece, hrun, hsize⟩ := h.onBlock _ _ x y hsrc.room hdst
  refine ⟨Quad.zipWith (fun b piece => b.splice (c.write.bytesPerPlane x) piece) output piece,
    by simp only [convertInPlace, hrun, Except.map], fun p => ?_, fun p i hi => ?_,
    _, _, piece, hsrc, hdst, hrun, fun p hp j hj hroom => ?_⟩
  · rw [Quad.get_zipWith, Bytes.size_splice]
  · rw [Quad.get_zipWith, Bytes.getD_splice_before _ _ hi]
  · have hpiece := hsize p
    rw [Quad.get_map, Bytes.size_after] at hpiece
    rw [Quad.get_zipWith, Bytes.getD_splice_within _ _ hroom (by omega)]

/-- A block through scratch buffers. -/
theorem convertViaScratch_done (h : c.Robust) (input output : Quad Bytes) {x n : Nat} (y : Nat)
    (hn : n ≤ c.blockSize) :
    ∃ out, c.convertViaScratch input output x y n = .ok out ∧
      c.BytesDone input output out x y n := by
  have hsrc := presents_scratchInput h input x
  have hdst : c.Accepts (Quad.const (Bytes.zeros scratchBytes)) := fun p _ => by
    rw [Quad.get_const, Bytes.size_zeros]
    exact h.write_scratch
  obtain ⟨piece, hrun, hsize⟩ := h.onBlock _ _ x y hsrc.room hdst
  have hbytes : ∀ p : Fin 4, c.write.bytesPerPlane n ≤ (piece p).size := fun p => by
    have hmono : c.write.bytesPerPlane n ≤ c.write.bytesPerPlane c.blockSize :=
      Shape.bytesPerPlane_mono hn
    have hscratch := h.write_scratch
    rw [hsize p, Quad.get_const, Bytes.size_zeros]
    omega
  -- what is taken of each plane
  let taken (p : Fin 4) : Bytes := (piece p).extract 0
    (min ((output p).size - c.write.bytesPerPlane x) (c.write.bytesPerPlane n))
  let result : Quad Bytes := Quad.ofFn fun p =>
    if p.val < c.write.layout.planes then (output p).splice (c.write.bytesPerPlane x) (taken p)
    else output p
  have htake : ∀ p, c.takeScratch output piece x n p = .ok (result p) := by
    intro p
    have := hbytes p
    simp only [takeScratch, result, Quad.get_ofFn, taken]
    split
    · rw [Bytes.first_eq_ok (by omega)]
      rfl
    · rfl
  refine ⟨result, ?_, fun p => ?_, fun p i hi => ?_, _, _, piece, hsrc, hdst, hrun,
    fun p hp j hj hroom => ?_⟩
  · unfold convertViaScratch
    rw [hrun]
    exact Quad.ofFnM_eq_ok_iff.mpr htake
  · simp only [result, Quad.get_ofFn]
    split
    · rw [Bytes.size_splice]
    · rfl
  · simp only [result, Quad.get_ofFn]
    split
    · rw [Bytes.getD_splice_before _ _ hi]
    · rfl
  · have := hbytes p
    have hlen : (taken p).size =
        min ((output p).size - c.write.bytesPerPlane x) (c.write.bytesPerPlane n) := by
      rw [Array.size_extract]
      omega
    simp only [result, Quad.get_ofFn, if_pos hp]
    rw [Bytes.getD_splice_within _ _ hroom (by omega), Bytes.getD_extract _ (by omega) (by omega),
      Nat.zero_add]

/-- **One block**, whichever way it is converted and whatever the buffers are. -/
theorem convertBlock_done (h : c.Robust) (hread : c.read.layout.frac < wordBits)
    (input output : Quad Bytes) {x n : Nat} (y : Nat) (hn : n ≤ c.blockSize) :
    ∃ out, c.convertBlock input output x y n = .ok out ∧ c.BytesDone input output out x y n := by
  obtain ⟨b, hb, hroom⟩ := holds_spec h.read_planes input x c.blockSize c.readMargin
  obtain ⟨b', hb', hroom'⟩ := holds_spec h.write_planes output x c.blockSize c.writeMargin
  have hscratch := convertViaScratch_done h input output (x := x) y hn
  unfold convertBlock isDirect
  rw [measured_eq hread]
  by_cases hfull : n = c.blockSize
  · rw [if_neg (fun hne => hne hfull), hb]
    cases b with
    | false => exact hscratch
    | true =>
      simp only [hb']
      cases b' with
      | false => exact hscratch
      | true => exact convertInPlace_done h y (hroom rfl) (hroom' rfl)
  · rw [if_pos hfull]
    exact hscratch

/-! ## 2. Rows -/

variable {c' : Conversion}

/-- Conversions that go through a row in the same blocks. -/
structure Paired (c c' : Conversion) : Prop where
  left : c.Robust
  right : c'.Robust
  read : c'.read = c.read
  write : c'.write = c.write
  blockSize : c'.blockSize = c.blockSize

theorem Robust.paired (h : c.Robust) : Paired c c := ⟨h, h, rfl, rfl, rfl⟩

/-- Whatever the routines may get to see of the same block of two rows, the bytes of its pixels that
they store are related. -/
def Lockstep (c c' : Conversion) (input input' : Quad Bytes) (width y : Nat)
    (related : Fin 4 → Nat → UInt8 → UInt8 → Prop) : Prop :=
  ∀ ⦃x : Nat⦄, c.blockSize ∣ x → x < width → ∀ ⦃src src' dst dst' piece piece' : Quad Bytes⦄,
    c.Presents input x src → c'.Presents input' x src' → c.Accepts dst → c'.Accepts dst' →
    c.onBlock src dst x y = .ok piece → c'.onBlock src' dst' x y = .ok piece' →
    ∀ p : Fin 4, p.val < c.write.layout.planes →
      ∀ j, j < c.write.bytesPerPlane (min c.blockSize (width - x)) →
        c.write.bytesPerPlane x + j < c.write.bytesPerPlane width →
        related p (c.write.bytesPerPlane x + j) ((piece p).getD j 0) ((piece' p).getD j 0)

variable {input input' output output' : Quad Bytes} {width y : Nat}
  {related : Fin 4 → Nat → UInt8 → UInt8 → Prop}

/-- A relation that any bytes of the pixels are in. -/
theorem lockstep_of_place (h : ∀ p : Fin 4, p.val < c.write.layout.planes →
    ∀ i, i < c.write.bytesPerPlane width → ∀ u v, related p i u v) :
    Lockstep c c' input input' width y related := by
  intro x _ _ src src' dst dst' piece piece' _ _ _ _ _ _ p hp j _ hj
  exact h p hp _ hj _ _

/-- **The first `m` blocks of a row**: the bytes to the left of the next one are related. -/
theorem convertBlocks_lockstep (h : Paired c c')
    (hread : 0 < width → c.read.layout.frac < wordBits)
    (hstep : Lockstep c c' input input' width y related) (hsize : SameSize output' output) :
    ∀ m, m ≤ (width + c.blockSize - 1) / c.blockSize → ∃ out out',
      ((List.range m).map (· * c.blockSize)).foldlM (fun output x =>
        c.convertBlock input output x y (min c.blockSize (width - x))) output = .ok out ∧
      ((List.range m).map (· * c.blockSize)).foldlM (fun output x =>
        c'.convertBlock input' output x y (min c.blockSize (width - x))) output' = .ok out' ∧
      SameSize out output ∧ SameSize out' output' ∧ ∀ p : Fin 4, p.val < c.write.layout.planes →
        ∀ i, i < c.write.bytesPerPlane (min (m * c.blockSize) width) → i < (output p).size →
          related p i ((out p).getD i 0) ((out' p).getD i 0)
  | 0, _ => by
    refine ⟨output, output', rfl, rfl, fun _ => rfl, fun _ => rfl, fun p _ i hi _ => ?_⟩
    have hzero : c.write.bytesPerPlane 0 = 0 := by
      simp only [Shape.bytesPerPlane, Layout.bytesPerPlane, Nat.zero_mul, Nat.zero_add]
      exact Nat.div_eq_of_lt (Nat.sub_lt (Nat.two_pow_pos _) Nat.zero_lt_one)
    rw [Nat.zero_mul, Nat.zero_min, hzero] at hi
    exact absurd hi (Nat.not_lt_zero i)
  | m + 1, hm => by
    obtain ⟨out, out', hrun, hrun', hout, hout', hdone⟩ :=
      convertBlocks_lockstep h hread hstep hsize m (by omega)
    have hpos := h.left.block_pos
    have hstart : m * c.blockSize < width := block_lt_width hpos hm
    have hfrac := hread (Nat.zero_lt_of_lt hstart)
    have hn : min c.blockSize (width - m * c.blockSize) ≤ c.blockSize := Nat.min_le_left _ _
    obtain ⟨next, hnext, hbytes⟩ := convertBlock_done h.left hfrac input out (x := m * c.blockSize)
      y hn
    obtain ⟨next', hnext', hbytes'⟩ := convertBlock_done h.right (by rw [h.read]; exact hfrac)
      input' out' (x := m * c.blockSize) y (Nat.le_trans hn (Nat.le_of_eq h.blockSize.symm))
    obtain ⟨src, dst, piece, hsrc, hdst, hblock, hstored⟩ := hbytes.stored
    obtain ⟨src', dst', piece', hsrc', hdst', hblock', hstored'⟩ := hbytes'.stored
    have hleft' := hbytes'.left
    rw [h.write] at hstored' hleft'
    refine ⟨next, next', ?_, ?_, fun p => (hbytes.size p).trans (hout p),
      fun p => (hbytes'.size p).trans (hout' p), fun p hp i hi hroom => ?_⟩
    · rw [List.range_succ, List.map_append]
      exact foldlM_concat hrun hnext
    · rw [List.range_succ, List.map_append]
      exact foldlM_concat hrun' hnext'
    · by_cases hleft : i < c.write.bytesPerPlane (m * c.blockSize)
      · rw [hbytes.left p i hleft, hleft' p i hleft]
        exact hdone p hp i (by rw [Nat.min_eq_left (Nat.le_of_lt hstart)]; exact hleft) hroom
      · -- a byte of the new block
        obtain ⟨j, rfl⟩ := Nat.exists_eq_add_of_le (Nat.not_lt.mp hleft)
        have hend : min ((m + 1) * c.blockSize) width =
            m * c.blockSize + min c.blockSize (width - m * c.blockSize) := by
          rw [Nat.add_mul, Nat.one_mul]
          omega
        have hadd := c.write.bytesPerPlane_add_le (m * c.blockSize)
          (min c.blockSize (width - m * c.blockSize))
        have hwidth : c.write.bytesPerPlane (min ((m + 1) * c.blockSize) width) ≤
            c.write.bytesPerPlane width := Shape.bytesPerPlane_mono (Nat.min_le_right _ _)
        rw [← hend] at hadd
        have hj : j < c.write.bytesPerPlane (min c.blockSize (width - m * c.blockSize)) := by omega
        rw [hstored p hp j hj (by rw [hout p]; exact hroom),
          hstored' p hp j hj (by rw [hout' p, hsize p]; exact hroom)]
        exact hstep (Nat.dvd_mul_left _ _) hstart hsrc hsrc' hdst hdst' hblock hblock' p hp j hj
          (by omega)

theorem convertRow_of_notCopy (h : c.copiesRows = false) (input output : Quad Bytes)
    (width y : Nat) : c.convertRow input output width y =
      (blockStarts (max c.blockSize 1) width).foldlM (fun output x =>
        c.convertBlock input output x y (min (max c.blockSize 1) (width - x))) output := by
  unfold convertRow
  cases hr : c.routine with
  | copy =>
    rw [copiesRows, hr] at h
    cases h
  | chain k => rfl
  | shuffle s => rfl

/-- **One row.** -/
theorem convertRow_lockstep (h : Paired c c') (hread : 0 < width → c.read.layout.frac < wordBits)
    (hstep : Lockstep c c' input input' width y related) (hsize : SameSize output' output) :
    ∃ out out', c.convertRow input output width y = .ok out ∧
      c'.convertRow input' output' width y = .ok out' ∧ SameSize out output ∧
      SameSize out' output' ∧ ∀ p : Fin 4, p.val < c.write.layout.planes →
        ∀ i, i < c.write.bytesPerPlane width → i < (output p).size →
          related p i ((out p).getD i 0) ((out' p).getD i 0) := by
  have hpos := h.left.block_pos
  obtain ⟨out, out', hrun, hrun', hout, hout', hdone⟩ := convertBlocks_lockstep h hread hstep hsize
    ((width + c.blockSize - 1) / c.blockSize) (Nat.le_refl _)
  have hblock : max c.blockSize 1 = c.blockSize := Nat.max_eq_left hpos
  rw [blocks_cover hpos] at hdone
  refine ⟨out, out', ?_, ?_, hout, hout', hdone⟩
  · rw [convertRow_of_notCopy h.left.notCopy, hblock]
    exact hrun
  · rw [convertRow_of_notCopy h.right.notCopy, h.blockSize, hblock]
    exact hrun'

/-! ## 3. Views -/

/-- A row of a plane, cut to the bytes of its pixels, may be shorter than they are. -/
theorem size_rowOutput_le (c : Conversion) (dst : View) (width r : Nat) (p : Fin 4) :
    ((c.rowOutput dst width r) p).size =
      if p.val < c.write.layout.planes then
        min (c.write.bytesPerPlane width) ((dst.planes p).size - r * dst.stride p)
      else 0 := by
  simp only [rowOutput, Quad.get_ofFn]
  split
  · rw [Array.size_extract, View.cut]
    omega
  · rfl

section Views

variable {src src' dst dst' : View} {r : Nat}

/-- A row that was converted is put into its place: each byte is as before or one of the row. -/
theorem rowStep_bytes {piece : Quad Bytes}
    (hrun : c.convertRow (src.row r) (c.rowOutput dst width r) width (dst.firstRow + r) = .ok piece)
    (hpiece : SameSize piece (c.rowOutput dst width r)) :
    ∃ out, c.rowStep src width dst r = .ok out ∧ ∀ p i, i < (dst.planes p).size →
      (out.planes p).getD i 0 =
        if r * dst.stride p ≤ i ∧ i < r * dst.stride p + (piece p).size then
          (piece p).getD (i - r * dst.stride p) 0
        else (dst.planes p).getD i 0 := by
  refine ⟨{ dst with planes := Quad.ofFn fun p => (dst.planes p).splice (dst.cut r p) (piece p) },
    ?_, fun p i hi => ?_⟩
  · show Except.map _ (c.convertRow (src.row r) _ _ _) = _
    rw [hrun]
    rfl
  have hsize := (hpiece p).trans (size_rowOutput_le c dst width r p)
  have hcut : dst.cut r p = min (r * dst.stride p) (dst.planes p).size := rfl
  rw [Quad.get_ofFn]
  by_cases hrow : r * dst.stride p ≤ i ∧ i < r * dst.stride p + (piece p).size
  · rw [if_pos hrow, hcut, Nat.min_eq_left (by omega)]
    obtain ⟨j, rfl⟩ := Nat.exists_eq_add_of_le hrow.1
    rw [Bytes.getD_splice_within _ _ hi (by omega), Nat.add_sub_cancel_left]
  · rw [if_neg hrow]
    by_cases hbefore : i < dst.cut r p
    · exact Bytes.getD_splice_before _ _ hbefore 0
    · refine Bytes.getD_splice_beyond _ _ ?_ 0
      split at hsize <;> omega

/-- **One row of a view**: bytes that are related stay so. -/
theorem rowStep_lockstep (h : Paired c c') (hread : 0 < width → c.read.layout.frac < wordBits)
    (hframe : SameFrame dst' dst)
    (hstep : Lockstep c c' (src.row r) (src'.row r) width (dst.firstRow + r)
      fun p i => related p (r * dst.stride p + i))
    (hbytes : ∀ p i, i < (dst.planes p).size →
      related p i ((dst.planes p).getD i 0) ((dst'.planes p).getD i 0)) :
    ∃ out out', c.rowStep src width dst r = .ok out ∧ c'.rowStep src' width dst' r = .ok out' ∧
      ∀ p i, i < (dst.planes p).size →
        related p i ((out.planes p).getD i 0) ((out'.planes p).getD i 0) := by
  have hsize : SameSize (c'.rowOutput dst' width r) (c.rowOutput dst width r) := fun p => by
    rw [size_rowOutput_le, size_rowOutput_le, h.write, hframe.size p, hframe.stride]
  obtain ⟨piece, piece', hrun, hrun', hpiece, hpiece', hrow⟩ := convertRow_lockstep h hread hstep
    hsize
  rw [← hframe.firstRow] at hrun'
  obtain ⟨out, hout, hbyte⟩ := rowStep_bytes hrun hpiece
  obtain ⟨out', hout', hbyte'⟩ := rowStep_bytes hrun' hpiece'
  refine ⟨out, out', hout, hout', fun p i hi => ?_⟩
  have hlen : (piece' p).size = (piece p).size := by rw [hpiece' p, hsize p, hpiece p]
  have hlen' := (hpiece p).trans (size_rowOutput_le c dst width r p)
  rw [hbyte p i hi, hbyte' p i (by rw [hframe.size p]; exact hi), hframe.stride, hlen]
  by_cases hin : r * dst.stride p ≤ i ∧ i < r * dst.stride p + (piece p).size
  · rw [if_pos hin, if_pos hin]
    split at hlen'
    · rename_i hp
      have hrel := hrow p hp (i - r * dst.stride p) (by omega) (by rw [← hpiece p]; omega)
      rw [Nat.add_sub_cancel' hin.1] at hrel
      exact hrel
    · omega
  · rw [if_neg hin, if_neg hin]
    exact hbytes p i hi

variable (related) in
/-- **A view**: what the routines store in the same block of the same row is related, so all bytes
are. -/
theorem run_lockstep (h : Paired c c') (hwrite : c.write.layout.frac < wordBits)
    (hread : 0 < min src.rows dst.rows → 0 < width → c.read.layout.frac < wordBits)
    (hrows : src'.rows = src.rows)
    (hstep : ∀ r, r < min src.rows dst.rows → Lockstep c c' (src.row r) (src'.row r) width
      (dst.firstRow + r) fun p i => related p (r * dst.stride p + i))
    (hbytes : ∀ p i, i < (dst.planes p).size →
      related p i ((dst.planes p).getD i 0) ((dst.planes p).getD i 0)) :
    ∃ out out', c.run src dst width = .ok out ∧ c'.run src' dst width = .ok out' ∧
      SameFrame out dst ∧ SameFrame out' dst ∧ ∀ p i, i < (dst.planes p).size →
        related p i ((out.planes p).getD i 0) ((out'.planes p).getD i 0) := by
  have hupto : ∀ n, n ≤ min src.rows dst.rows → ∃ out out',
      (List.range n).foldlM (c.rowStep src width) dst = .ok out ∧
      (List.range n).foldlM (c'.rowStep src' width) dst = .ok out' ∧
      SameFrame out dst ∧ SameFrame out' dst ∧ ∀ p i, i < (dst.planes p).size →
        related p i ((out.planes p).getD i 0) ((out'.planes p).getD i 0) := by
    intro n
    induction n with
    | zero => exact fun _ => ⟨dst, dst, rfl, rfl, .refl dst, .refl dst, hbytes⟩
    | succ n ih =>
      intro hn
      obtain ⟨out, out', hrun, hrun', hframe, hframe', hrel⟩ := ih (by omega)
      have hnext := hstep n (by omega)
      rw [← hframe.firstRow, ← hframe.stride] at hnext
      obtain ⟨next, next', hnext, hnext', hrel⟩ := rowStep_lockstep h (hread (by omega))
        (hframe'.trans hframe.symm) hnext
        (fun p i hi => hrel p i (by rw [← hframe.size p]; exact hi))
      refine ⟨next, next', ?_, ?_, (sameFrame_of_rowStep hnext).trans hframe,
        (sameFrame_of_rowStep hnext').trans hframe',
        fun p i hi => hrel p i (by rw [hframe.size p]; exact hi)⟩
      · rw [List.range_succ]
        exact foldlM_concat hrun hnext
      · rw [List.range_succ]
        exact foldlM_concat hrun' hnext'
  obtain ⟨out, out', hrun, hrun', hrest⟩ := hupto _ (Nat.le_refl _)
  refine ⟨out, out', (measured_eq hwrite _).trans hrun, ?_, hrest⟩
  unfold run
  rw [measured_eq (by rw [h.write]; exact hwrite), hrows]
  exact hrun'

/-- The bytes that a run works with can be measured: those of the destination, and those of the
source if there is a pixel to convert. -/
def Measurable (c : Conversion) (src dst : View) (width : Nat) : Prop :=
  c.write.layout.frac < wordBits ∧
    (0 < min src.rows dst.rows → 0 < width → c.read.layout.frac < wordBits)

instance (c : Conversion) (src dst : View) (width : Nat) : Decidable (c.Measurable src dst width) :=
  inferInstanceAs (Decidable (_ ∧ _))

/-- **A run whose bytes cannot be measured breaks off there.** -/
theorem run_eq_error (h : c.copiesRows = false) (hm : ¬c.Measurable src dst width) :
    c.run src dst width = .error .oversizedShift := by
  unfold run
  by_cases hwrite : c.write.layout.frac < wordBits
  · rw [measured_eq hwrite]
    -- there is a first row, and it has a first block
    obtain ⟨hrows, hwidth, hread⟩ : 0 < min src.rows dst.rows ∧ 0 < width ∧
        ¬c.read.layout.frac < wordBits := by
      refine ⟨?_, ?_, ?_⟩ <;> refine Decidable.byContradiction fun hn => hm ⟨hwrite, ?_⟩
      · exact fun hpos => absurd hpos hn
      · exact fun _ hpos => absurd hpos hn
      · exact fun _ _ => Decidable.not_not.mp hn
    obtain ⟨rows, hrows⟩ := Nat.exists_eq_succ_of_ne_zero (Nat.ne_of_gt hrows)
    have hblocks : 0 < (width + max c.blockSize 1 - 1) / max c.blockSize 1 :=
      Nat.div_pos (by omega) (by omega)
    obtain ⟨blocks, hblocks⟩ := Nat.exists_eq_succ_of_ne_zero (Nat.ne_of_gt hblocks)
    have hrow : c.rowStep src width dst 0 = .error .oversizedShift := by
      have hconvert : ∀ input output y,
          c.convertRow input output width y = .error .oversizedShift := by
        intro input output y
        rw [convertRow_of_notCopy h, blockStarts, hblocks, List.range_succ_eq_map, List.map_cons,
          List.foldlM_cons, convertBlock, measured, if_neg hread]
        rfl
      rw [rowStep, hconvert]
      rfl
    rw [hrows, List.range_succ_eq_map, List.foldlM_cons, hrow]
    rfl
  · rw [measured, if_neg hwrite]

end Views

end Conversion

end PixelConv
