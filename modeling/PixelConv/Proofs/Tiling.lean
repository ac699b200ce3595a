import PixelConv.Conversion
import PixelConv.Proofs.Elements

/-!
# Tiling

A conversion whose routine treats the pixels of a block one by one (`Conversion.Pixelwise`) treats
the pixels of a whole view one by one. Blocks are converted from left to right: a block in place may
spoil what lies to its right, which a later block overwrites, and never what lies to its left; a
block through scratch buffers changes its own bytes only. The invariant of a row is that the pixels
to the left of the next block are right (`Conversion.convertBlocks_spec`); a view is done row by row
(`Conversion.exists_stages`).
-/

namespace PixelConv

/-- Entry `r` of the rows of a view: its planes from there on. -/
def View.row (v : View) (r : Nat) : Quad Bytes :=
  Quad.ofFn fun p => (v.planes p).after (r * v.stride p)

/-- The used planes of row `r` have the bytes of `width` pixels. -/
def View.HoldsRow (v : View) (s : Shape) (width r : Nat) : Prop :=
  ∀ p : Fin 4, p.val < s.layout.planes → r * v.stride p + s.bytesPerPlane width ≤ (v.planes p).size

/-- The bytes of `width` pixels end before the next row starts. -/
def View.RowsApart (v : View) (s : Shape) (width : Nat) : Prop :=
  v.rows ≤ 1 ∨ ∀ p : Fin 4, p.val < s.layout.planes → s.bytesPerPlane width ≤ v.stride p

theorem View.eq_of_planes {a b : View} (hplanes : ∀ p, a.planes p = b.planes p)
    (hstride : a.stride = b.stride) (hfirst : a.firstRow = b.firstRow) (hrows : a.rows = b.rows) :
    a = b := by
  obtain ⟨planes, stride, firstRow, rows⟩ := a
  cases Quad.ext_get hplanes
  cases hstride
  cases hfirst
  cases hrows
  rfl

namespace Conversion

/-! ## 1. Pixel by pixel -/

/-- The planes that a shape uses have at least so many bytes. -/
def Room (s : Shape) (planes : Quad Bytes) (bytes : Nat) : Prop :=
  ∀ p : Fin 4, p.val < s.layout.planes → bytes ≤ (planes p).size

/-- All planes have the same sizes. -/
def SameSize (a b : Quad Bytes) : Prop := ∀ p : Fin 4, (a p).size = (b p).size

theorem sameSize_first {planes : Quad Bytes} {first : Bytes} (h : first.size = planes.c0.size) :
    SameSize { planes with c0 := first } planes := by
  intro p
  match p with
  | 0 => exact h
  | 1 | 2 | 3 => rfl

/-- Pixel by pixel, the elements of `out` in columns `x` to `x + n` are `f` of those of `input`. -/
def Converted (c : Conversion) (f : Nat → Nat → Pixel → Pixel) (input out : Quad Bytes)
    (y x n : Nat) : Prop :=
  ∀ i, x ≤ i → i < n → ∀ k : Fin 4, k.val < c.write.layout.count →
    c.write.element out i k = f i y (c.read.pixel input i) k

/-- The routine turns each pixel of a block into `f` of it, by its column and row, when the planes
have the bytes of a block and the margins. Such a block fits into the scratch buffers. -/
structure Pixelwise (c : Conversion) (f : Nat → Nat → Pixel → Pixel) : Prop where
  notCopy : c.copiesRows = false
  read : c.read.Regular
  write : c.write.Regular
  block_pos : 0 < c.blockSize
  read_aligned : 2 ^ c.read.layout.frac ∣ c.blockSize
  write_aligned : 2 ^ c.write.layout.frac ∣ c.blockSize
  read_scratch : c.read.bytesPerPlane c.blockSize + c.readMargin ≤ scratchBytes
  write_scratch : c.write.bytesPerPlane c.blockSize + c.writeMargin ≤ scratchBytes
  onBlock : ∀ src dst x y, Room c.read src (c.read.bytesPerPlane c.blockSize + c.readMargin) →
    Room c.write dst (c.write.bytesPerPlane c.blockSize + c.writeMargin) →
    ∃ out, c.onBlock src dst x y = .ok out ∧ SameSize out dst ∧
      ∀ i, i < c.blockSize → ∀ k : Fin 4, k.val < c.write.layout.count →
        c.write.element out i k = f (x + i) y (c.read.pixel src i) k

variable {c : Conversion} {f : Nat → Nat → Pixel → Pixel}

/-! ## 2. One block -/

theorem all_take {α : Type} {q : Quad α} {n : Nat} {test : α → Bool}
    (h : (q.toList.take n).all test = true) (p : Fin 4) (hp : p.val < n) : test (q p) = true := by
  refine List.all_eq_true.mp h _ (List.mem_of_getElem? (i := p.val) ?_)
  rw [List.getElem?_take_of_lt hp]
  exact Quad.getElem?_toList q p

/-- Shifts below the width of a machine word do not fault. -/
theorem measured_eq {s : Shape} (h : s.layout.frac < wordBits) {α : Type} (answer : Checked α) :
    measured s answer = answer :=
  if_pos h

/-- What is worked out needed no shift beyond that. -/
theorem of_measured_eq_ok {s : Shape} {α : Type} {answer : Checked α} {a : α}
    (h : measured s answer = .ok a) : s.layout.frac < wordBits ∧ answer = .ok a := by
  unfold measured at h
  split at h
  · exact ⟨by assumption, h⟩
  · cases h

theorem frac_lt_wordBits {s : Shape} (h : s.Regular) : s.layout.frac < wordBits :=
  Nat.lt_of_le_of_lt h.frac_le (by decide)

/-- The test for room never faults, and it is right. -/
theorem holds_spec {s : Shape} (hs : s.layout.planes ≤ 4) (planes : Quad Bytes)
    (x pixels margin : Nat) :
    ∃ b, holds s planes x pixels margin = .ok b ∧
      (b = true → Room s planes (s.bytesPerPlane x + s.bytesPerPlane pixels + margin)) := by
  unfold holds
  rw [if_pos hs]
  refine ⟨_, rfl, fun h p hp => ?_⟩
  exact of_decide_eq_true (all_take h p hp)

/-- A piece put at the place of column `x` keeps the elements to the left and brings its own. -/
theorem element_splice {s : Shape} (hs : s.Regular) {x n : Nat} (hx : 2 ^ s.layout.frac ∣ x)
    {output piece : Quad Bytes} (result : Quad Bytes)
    (hresult : ∀ p : Fin 4, p.val < s.layout.planes →
      result p = (output p).splice (s.bytesPerPlane x) (piece p))
    (hpiece : Room s piece (s.bytesPerPlane n)) (hroom : Room s output (s.bytesPerPlane (x + n)))
    {k : Fin 4} (hk : k.val < s.layout.count) :
    (∀ i, i < x → s.element result i k = s.element output i k) ∧
      ∀ i, i < n → s.element result (x + i) k = s.element piece i k := by
  constructor
  · intro i hi
    refine Shape.element_congr hs (n := x) (fun p hp j hj => ?_) hi hk
    rw [hresult p hp, Bytes.getD_splice_before _ _ hj]
  · intro i hi
    rw [← Shape.element_after hs hx]
    refine Shape.element_congr hs (n := n) (fun p hp j hj => ?_) hi hk
    have hsize := hroom p hp
    have hlen := hpiece p hp
    rw [Shape.bytesPerPlane_add hs hx] at hsize
    rw [Quad.get_map, Bytes.getD_after, hresult p hp,
      Bytes.getD_splice_within _ _ (by omega) (by omega)]

/-- What converting the block of `n` pixels from column `x` on has to do: keep the elements to its
left and convert its own. -/
def BlockDone (c : Conversion) (f : Nat → Nat → Pixel → Pixel) (input output out : Quad Bytes)
    (x y n : Nat) : Prop :=
  SameSize out output ∧
    (∀ i, i < x → ∀ k : Fin 4, k.val < c.write.layout.count →
      c.write.element out i k = c.write.element output i k) ∧
    c.Converted f input out y x (x + n)

/-- A block in place. -/
theorem convertInPlace_spec (h : c.Pixelwise f) {input output : Quad Bytes} {x y n : Nat}
    (hx : c.blockSize ∣ x) (hn : n ≤ c.blockSize)
    (hin : Room c.read input (c.read.bytesPerPlane x + c.read.bytesPerPlane c.blockSize +
      c.readMargin))
    (hout : Room c.write output (c.write.bytesPerPlane x + c.write.bytesPerPlane c.blockSize +
      c.writeMargin)) :
    ∃ out, c.convertInPlace input output x y = .ok out ∧ c.BlockDone f input output out x y n := by
  have hread : 2 ^ c.read.layout.frac ∣ x := Nat.dvd_trans h.read_aligned hx
  have hwrite : 2 ^ c.write.layout.frac ∣ x := Nat.dvd_trans h.write_aligned hx
  obtain ⟨piece, hrun, hsize, hpixels⟩ := h.onBlock
    (input.map (·.after (c.read.bytesPerPlane x))) (output.map (·.after (c.write.bytesPerPlane x)))
    x y
    (fun p hp => by rw [Quad.get_map, Bytes.size_after]; have := hin p hp; omega)
    (fun p hp => by rw [Quad.get_map, Bytes.size_after]; have := hout p hp; omega)
  refine ⟨Quad.zipWith (fun b piece => b.splice (c.write.bytesPerPlane x) piece) output piece,
    by simp only [convertInPlace, hrun, Except.map], fun p => ?_, ?_⟩
  · rw [Quad.get_zipWith, Bytes.size_splice]
  · have hpiece : Room c.write piece (c.write.bytesPerPlane c.blockSize) := by
      intro p hp
      have := hout p hp
      rw [hsize p, Quad.get_map, Bytes.size_after]
      omega
    have hroom : Room c.write output (c.write.bytesPerPlane (x + c.blockSize)) := by
      intro p hp
      have := hout p hp
      rw [Shape.bytesPerPlane_add h.write hwrite]
      omega
    have hsplice := fun (k : Fin 4) (hk : k.val < c.write.layout.count) =>
      element_splice h.write hwrite
        (Quad.zipWith (fun b piece => b.splice (c.write.bytesPerPlane x) piece) output piece)
        (fun p _ => Quad.get_zipWith _ _ _ p) hpiece hroom hk
    refine ⟨fun i hi k hk => (hsplice k hk).1 i hi, fun i hxi hi k hk => ?_⟩
    obtain ⟨j, rfl⟩ := Nat.exists_eq_add_of_le hxi
    rw [(hsplice k hk).2 j (by omega), hpixels j (by omega) k hk, Shape.pixel_after h.read hread]

@[simp] theorem size_scratch (b : Bytes) : (scratch b).size = scratchBytes := by
  rw [scratch, Bytes.size_splice, Bytes.size_zeros]

/-- A scratch buffer starts like what was put into it. -/
theorem getD_scratch {b : Bytes} {i : Nat} (hb : i < b.size) (hi : i < scratchBytes) :
    (scratch b).getD i 0 = b.getD i 0 := by
  have hsize : 0 + i < (Bytes.zeros scratchBytes).size := by
    rw [Bytes.size_zeros]
    omega
  have h := Bytes.getD_splice_within (Bytes.zeros scratchBytes) b hsize hb 0
  rw [Nat.zero_add] at h
  exact h

/-- The pixels of a block, in scratch buffers. -/
theorem pixel_scratchInput (h : c.Pixelwise f) {input : Quad Bytes} {x n : Nat}
    (hx : c.blockSize ∣ x) (hn : n ≤ c.blockSize)
    (hin : Room c.read input (c.read.bytesPerPlane (x + n))) {i : Nat} (hi : i < n) :
    c.read.pixel (c.scratchInput input x) i = c.read.pixel input (x + i) := by
  have hread : 2 ^ c.read.layout.frac ∣ x := Nat.dvd_trans h.read_aligned hx
  rw [← Shape.pixel_after h.read hread]
  refine Shape.pixel_congr h.read (n := n) (fun p hp j hj => ?_) hi
  have hroom := hin p hp
  have hscratch := h.read_scratch
  have hmono : c.read.bytesPerPlane n ≤ c.read.bytesPerPlane c.blockSize :=
    Shape.bytesPerPlane_mono hn
  rw [Shape.bytesPerPlane_add h.read hread] at hroom
  rw [scratchInput, Quad.get_ofFn, if_pos hp, Quad.get_map,
    getD_scratch (by rw [Bytes.size_after]; omega) (by omega)]

theorem room_scratchInput (c : Conversion) (input : Quad Bytes) (x : Nat) {bytes : Nat}
    (h : bytes ≤ scratchBytes) : Room c.read (c.scratchInput input x) bytes := by
  intro p hp
  rw [scratchInput, Quad.get_ofFn, if_pos hp, size_scratch]
  exact h

/-- A block through scratch buffers. -/
theorem convertViaScratch_spec (h : c.Pixelwise f) {input output : Quad Bytes} {x y n : Nat}
    (hx : c.blockSize ∣ x) (hn : n ≤ c.blockSize)
    (hin : Room c.read input (c.read.bytesPerPlane (x + n)))
    (hout : Room c.write output (c.write.bytesPerPlane (x + n))) :
    ∃ out, c.convertViaScratch input output x y n = .ok out ∧
      c.BlockDone f input output out x y n := by
  have hwrite : 2 ^ c.write.layout.frac ∣ x := Nat.dvd_trans h.write_aligned hx
  have hmono : c.write.bytesPerPlane n ≤ c.write.bytesPerPlane c.blockSize :=
    Shape.bytesPerPlane_mono hn
  have hscratch := h.write_scratch
  obtain ⟨out, hrun, hsize, hpixels⟩ := h.onBlock (c.scratchInput input x)
    (Quad.const (Bytes.zeros scratchBytes)) x y (room_scratchInput c input x h.read_scratch)
    (fun p _ => by rw [Quad.get_const, Bytes.size_zeros]; exact h.write_scratch)
  have hsize' : ∀ p : Fin 4, (out p).size = scratchBytes := fun p => by
    rw [hsize p, Quad.get_const, Bytes.size_zeros]
  -- the bytes of the pixels are there, both in the scratch buffer and in the row
  let piece : Quad Bytes := out.map (·.extract 0 (c.write.bytesPerPlane n))
  let result : Quad Bytes := Quad.ofFn fun p =>
    if p.val < c.write.layout.planes then (output p).splice (c.write.bytesPerPlane x) (piece p)
    else output p
  have htake : ∀ p, c.takeScratch output out x n p = .ok (result p) := by
    intro p
    simp only [takeScratch, result, Quad.get_ofFn, piece, Quad.get_map]
    split
    · rename_i hp
      have hroom := hout p hp
      rw [Shape.bytesPerPlane_add h.write hwrite] at hroom
      have hmin : min ((output p).size - c.write.bytesPerPlane x) (c.write.bytesPerPlane n) =
          c.write.bytesPerPlane n := Nat.min_eq_right (by omega)
      rw [hmin, Bytes.first_eq_ok (by rw [hsize' p]; omega)]
      rfl
    · rfl
  have hpieceSize : Room c.write piece (c.write.bytesPerPlane n) := by
    intro p _
    have := hsize' p
    simp only [piece, Quad.get_map, Array.size_extract]
    omega
  have hsplice := fun (k : Fin 4) (hk : k.val < c.write.layout.count) =>
    element_splice h.write hwrite result
      (fun p hp => by simp only [result, Quad.get_ofFn, if_pos hp]) hpieceSize hout hk
  refine ⟨result, ?_, fun p => ?_, fun i hi k hk => (hsplice k hk).1 i hi,
    fun i hxi hi k hk => ?_⟩
  · unfold convertViaScratch
    rw [hrun]
    exact Quad.ofFnM_eq_ok_iff.mpr htake
  · simp only [result, Quad.get_ofFn]
    split
    · rw [Bytes.size_splice]
    · rfl
  · obtain ⟨j, rfl⟩ := Nat.exists_eq_add_of_le hxi
    have hj : j < n := by omega
    have hpiece : c.write.element piece j k = c.write.element out j k := by
      refine Shape.element_congr h.write (n := n) (fun p hp i hi => ?_) hj hk
      have := hsize' p
      simp only [piece, Quad.get_map]
      rw [Bytes.getD_extract _ (by omega) (by omega), Nat.zero_add]
    rw [(hsplice k hk).2 j hj, hpiece, hpixels j (by omega) k hk,
      pixel_scratchInput h hx hn hin hj]

/-- **One block**, whichever way it is converted. -/
theorem convertBlock_spec (h : c.Pixelwise f) {input output : Quad Bytes} {x y n : Nat}
    (hx : c.blockSize ∣ x) (hn : n ≤ c.blockSize)
    (hin : Room c.read input (c.read.bytesPerPlane (x + n)))
    (hout : Room c.write output (c.write.bytesPerPlane (x + n))) :
    ∃ out, c.convertBlock input output x y n = .ok out ∧
      c.BlockDone f input output out x y n := by
  obtain ⟨b, hb, hroom⟩ := holds_spec h.read.planes_le input x c.blockSize c.readMargin
  obtain ⟨b', hb', hroom'⟩ := holds_spec h.write.planes_le output x c.blockSize c.writeMargin
  unfold convertBlock isDirect
  rw [measured_eq (frac_lt_wordBits h.read)]
  by_cases hfull : n = c.blockSize
  · rw [if_neg (fun hne => hne hfull), hb]
    cases b with
    | false => exact convertViaScratch_spec h hx hn hin hout
    | true =>
      simp only [hb']
      cases b' with
      | false => exact convertViaScratch_spec h hx hn hin hout
      | true => exact convertInPlace_spec h hx hn (hroom rfl) (hroom' rfl)
  · rw [if_pos hfull]
    exact convertViaScratch_spec h hx hn hin hout

/-! ## 3. One row -/

/-- A fold that does not fault, and one step more. -/
theorem foldlM_concat {α : Type} {step : α → Nat → Checked α} {xs : List Nat} {x : Nat} {a b d : α}
    (h : xs.foldlM step a = .ok b) (hstep : step b x = .ok d) :
    (xs ++ [x]).foldlM step a = .ok d := by
  rw [List.foldlM_append, h]
  show (step b x >>= fun d => .ok d) = .ok d
  rw [hstep]
  rfl

/-- A block that is counted starts before the end of the row. -/
theorem block_lt_width {block width m : Nat} (hpos : 0 < block)
    (hm : m + 1 ≤ (width + block - 1) / block) : m * block < width := by
  have hle : (m + 1) * block ≤ width + block - 1 := (Nat.le_div_iff_mul_le hpos).mp hm
  rw [Nat.add_mul, Nat.one_mul] at hle
  omega

/-- All blocks together cover the row. -/
theorem blocks_cover {block : Nat} (hpos : 0 < block) (width : Nat) :
    min ((width + block - 1) / block * block) width = width := by
  have hdiv := Nat.div_add_mod (width + block - 1) block
  have hmod := Nat.mod_lt (width + block - 1) hpos
  rw [Nat.mul_comm] at hdiv
  omega

/-- The first `m` blocks of a row of `width` pixels. -/
theorem convertBlocks_spec (h : c.Pixelwise f) {input output : Quad Bytes} {width y : Nat}
    (hin : Room c.read input (c.read.bytesPerPlane width))
    (hout : Room c.write output (c.write.bytesPerPlane width)) :
    ∀ m, m ≤ (width + c.blockSize - 1) / c.blockSize →
      ∃ out, ((List.range m).map (· * c.blockSize)).foldlM
          (fun output x => c.convertBlock input output x y (min c.blockSize (width - x))) output =
            .ok out ∧
        SameSize out output ∧ c.Converted f input out y 0 (min (m * c.blockSize) width)
  | 0, _ => by
    refine ⟨output, rfl, fun p => rfl, fun i _ hi => ?_⟩
    rw [Nat.zero_mul] at hi
    omega
  | m + 1, hm => by
    obtain ⟨out, hrun, hsize, hdone⟩ := convertBlocks_spec h hin hout m (by omega)
    have hstart : m * c.blockSize < width := block_lt_width h.block_pos hm
    have hend : m * c.blockSize + min c.blockSize (width - m * c.blockSize) =
        min ((m + 1) * c.blockSize) width := by
      rw [Nat.add_mul, Nat.one_mul]
      omega
    have hle : min ((m + 1) * c.blockSize) width ≤ width := Nat.min_le_right _ _
    have hin' : Room c.read input (c.read.bytesPerPlane
        (m * c.blockSize + min c.blockSize (width - m * c.blockSize))) := fun p hp =>
      Nat.le_trans (by rw [hend]; exact Shape.bytesPerPlane_mono hle) (hin p hp)
    have hout' : Room c.write out (c.write.bytesPerPlane
        (m * c.blockSize + min c.blockSize (width - m * c.blockSize))) := fun p hp => by
      rw [hsize p, hend]
      exact Nat.le_trans (Shape.bytesPerPlane_mono hle) (hout p hp)
    obtain ⟨out', hrun', hsize', hkeep, hdone'⟩ :=
      convertBlock_spec h (y := y) (Nat.dvd_mul_left _ _) (Nat.min_le_left _ _) hin' hout'
    refine ⟨out', ?_, fun p => (hsize' p).trans (hsize p), fun i _ hi k hk => ?_⟩
    · rw [List.range_succ, List.map_append]
      exact foldlM_concat hrun hrun'
    · by_cases hleft : i < m * c.blockSize
      · rw [hkeep i hleft k hk]
        exact hdone i (Nat.zero_le i) (by omega) k hk
      · exact hdone' i (Nat.not_lt.mp hleft) (by rw [hend]; exact hi) k hk

/-- **One row.** -/
theorem convertRow_spec (h : c.Pixelwise f) {input output : Quad Bytes} {width y : Nat}
    (hin : Room c.read input (c.read.bytesPerPlane width))
    (hout : Room c.write output (c.write.bytesPerPlane width)) :
    ∃ out, c.convertRow input output width y = .ok out ∧ SameSize out output ∧
      c.Converted f input out y 0 width := by
  obtain ⟨out, hrun, hsize, hdone⟩ := convertBlocks_spec h (y := y) hin hout
    ((width + c.blockSize - 1) / c.blockSize) (Nat.le_refl _)
  have hblock : max c.blockSize 1 = c.blockSize := Nat.max_eq_left h.block_pos
  rw [blocks_cover h.block_pos] at hdone
  refine ⟨out, ?_, hsize, hdone⟩
  have hcopy := h.notCopy
  unfold convertRow
  cases hr : c.routine with
  | copy =>
    simp only [copiesRows, hr] at hcopy
    cases hcopy
  | chain k =>
    simp only [hblock]
    exact hrun
  | shuffle s =>
    simp only [hblock]
    exact hrun

/-! ## 4. A view -/

/-- The views differ in the bytes of their planes at most. -/
structure SameFrame (a b : View) : Prop where
  stride : a.stride = b.stride
  firstRow : a.firstRow = b.firstRow
  rows : a.rows = b.rows
  size : SameSize a.planes b.planes

theorem SameFrame.refl (v : View) : SameFrame v v := ⟨rfl, rfl, rfl, fun _ => rfl⟩

theorem SameFrame.trans {u v w : View} (h : SameFrame u v) (h' : SameFrame v w) : SameFrame u w :=
  ⟨h.stride.trans h'.stride, h.firstRow.trans h'.firstRow, h.rows.trans h'.rows,
    fun p => (h.size p).trans (h'.size p)⟩

theorem SameFrame.symm {u v : View} (h : SameFrame u v) : SameFrame v u :=
  ⟨h.stride.symm, h.firstRow.symm, h.rows.symm, fun p => (h.size p).symm⟩

theorem SameFrame.eq_of_bytes {a b : View} (h : SameFrame a b)
    (hbytes : ∀ p i, i < (b.planes p).size → (a.planes p).getD i 0 = (b.planes p).getD i 0) :
    a = b :=
  View.eq_of_planes (fun p => Bytes.ext_getD (h.size p) fun i hi => hbytes p i (by
    rw [← h.size p]
    exact hi)) h.stride h.firstRow h.rows

theorem SameFrame.holdsRow {u v : View} (h : SameFrame u v) {s : Shape} {width r : Nat}
    (hv : v.HoldsRow s width r) : u.HoldsRow s width r := by
  intro p hp
  rw [h.stride, h.size p]
  exact hv p hp

theorem SameFrame.room {u v : View} (h : SameFrame u v) {s : Shape} {r bytes : Nat}
    (hv : Room s (v.row r) bytes) : Room s (u.row r) bytes := by
  intro p hp
  have hroom := hv p hp
  simp only [View.row, Quad.get_ofFn, Bytes.size_after] at hroom ⊢
  rw [h.stride, h.size p]
  exact hroom

/-- Byte `i` of plane `p` lies outside the pixels of row `r`. -/
def OutsideRow (s : Shape) (v : View) (width r : Nat) (p : Fin 4) (i : Nat) : Prop :=
  p.val < s.layout.planes → i < r * v.stride p ∨ r * v.stride p + s.bytesPerPlane width ≤ i

/-- The pixels of row `r` are converted on the way from `dst` to `out`, and no other byte
changes. -/
structure RowDone (c : Conversion) (f : Nat → Nat → Pixel → Pixel) (src : View) (width : Nat)
    (dst out : View) (r : Nat) : Prop where
  frame : SameFrame out dst
  converted : c.Converted f (src.row r) (out.row r) (dst.firstRow + r) 0 width
  outside : ∀ p i, OutsideRow c.write dst width r p i →
    (out.planes p).getD i 0 = (dst.planes p).getD i 0

/-- The rows that a conversion works on have the bytes of their pixels. -/
theorem room_row {s : Shape} {v : View} {width r : Nat} (h : v.HoldsRow s width r) :
    Room s (v.row r) (s.bytesPerPlane width) := by
  intro p hp
  have := h p hp
  simp only [View.row, Quad.get_ofFn, Bytes.size_after]
  omega

theorem size_row (v : View) (r : Nat) (p : Fin 4) :
    ((v.row r) p).size = (v.planes p).size - r * v.stride p := by
  rw [View.row, Quad.get_ofFn, Bytes.size_after]

theorem size_rowOutput {dst : View} {width r : Nat}
    (hdst : Room c.write (dst.row r) (c.write.bytesPerPlane width)) (p : Fin 4) :
    ((c.rowOutput dst width r) p).size =
      if p.val < c.write.layout.planes then c.write.bytesPerPlane width else 0 := by
  simp only [rowOutput, Quad.get_ofFn]
  split
  · rename_i hp
    have hroom := hdst p hp
    rw [size_row] at hroom
    rw [Array.size_extract, View.cut]
    omega
  · rfl

theorem room_rowOutput {dst : View} {width r : Nat}
    (hdst : Room c.write (dst.row r) (c.write.bytesPerPlane width)) :
    Room c.write (c.rowOutput dst width r) (c.write.bytesPerPlane width) := by
  intro p hp
  exact Nat.le_of_eq (by rw [size_rowOutput hdst p, if_pos hp])

/-- A row that is converted is put into its place. -/
theorem rowStep_of_convertRow (hw : c.write.Regular) {src dst : View} {width r : Nat}
    (hdst : Room c.write (dst.row r) (c.write.bytesPerPlane width)) {piece : Quad Bytes}
    (hrun : c.convertRow (src.row r) (c.rowOutput dst width r) width (dst.firstRow + r) = .ok piece)
    (hsize : SameSize piece (c.rowOutput dst width r))
    (hdone : c.Converted f (src.row r) piece (dst.firstRow + r) 0 width) :
    ∃ out, c.rowStep src width dst r = .ok out ∧ c.RowDone f src width dst out r := by
  have hcut : ∀ p : Fin 4, dst.cut r p = min (r * dst.stride p) (dst.planes p).size := fun _ => rfl
  refine ⟨{ dst with planes := Quad.ofFn fun p => (dst.planes p).splice (dst.cut r p) (piece p) },
    ?_, ⟨rfl, rfl, rfl, fun p => by rw [Quad.get_ofFn, Bytes.size_splice]⟩, ?_, ?_⟩
  · unfold rowStep
    show Except.map _ (c.convertRow (src.row r) _ _ _) = _
    rw [hrun]
    rfl
  · intro i hi hiw k hk
    rw [← hdone i hi hiw k hk]
    refine Shape.element_congr hw (n := width) (fun p hp j hj => ?_) hiw hk
    have hroom := hdst p hp
    rw [size_row] at hroom
    simp only [View.row, Quad.get_ofFn, Bytes.getD_after]
    rw [hcut p, Nat.min_eq_left (by omega), Bytes.getD_splice_within _ _ (by omega)
      (by rw [hsize p, size_rowOutput hdst p, if_pos hp]; exact hj)]
  · intro p i houtside
    simp only [Quad.get_ofFn]
    by_cases hi : i < dst.cut r p
    · exact Bytes.getD_splice_before _ _ hi 0
    · refine Bytes.getD_splice_beyond _ _ ?_ 0
      rw [hsize p, size_rowOutput hdst p]
      split
      · rename_i hp
        have hroom := hdst p hp
        rw [size_row] at hroom
        rw [hcut p] at hi ⊢
        rcases houtside hp with hlt | hge
        · omega
        · omega
      · omega

/-- **One row of a view.** -/
theorem rowStep_spec (h : c.Pixelwise f) {src dst : View} {width r : Nat}
    (hsrc : src.HoldsRow c.read width r) (hdst : dst.HoldsRow c.write width r) :
    ∃ out, c.rowStep src width dst r = .ok out ∧ c.RowDone f src width dst out r := by
  obtain ⟨piece, hrun, hsize, hdone⟩ := convertRow_spec h (y := dst.firstRow + r) (room_row hsrc)
    (room_rowOutput (room_row hdst))
  exact rowStep_of_convertRow h.write (room_row hdst) hrun hsize hdone

/-- Elements of a row do not change when none of its bytes does. -/
theorem element_row_congr {s : Shape} (hs : s.Regular) {a b : View} (hstride : a.stride = b.stride)
    {width r : Nat} (h : ∀ p : Fin 4, p.val < s.layout.planes → ∀ i, i < s.bytesPerPlane width →
      (a.planes p).getD (r * a.stride p + i) 0 = (b.planes p).getD (r * a.stride p + i) 0)
    {x : Nat} (hx : x < width) {k : Fin 4} (hk : k.val < s.layout.count) :
    s.element (a.row r) x k = s.element (b.row r) x k := by
  refine Shape.element_congr hs (n := width) (fun p hp i hi => ?_) hx hk
  simp only [View.row, Quad.get_ofFn, Bytes.getD_after]
  rw [← hstride]
  exact h p hp i hi

/-- The views that a conversion goes through, from the destination to the outcome: each row is done
on the way from one to the next. -/
structure Stages (c : Conversion) (f : Nat → Nat → Pixel → Pixel) (src dst : View) (width : Nat)
    (views : Nat → View) : Prop where
  start : views 0 = dst
  done : c.run src dst width = .ok (views (min src.rows dst.rows))
  frame : ∀ r, r ≤ min src.rows dst.rows → SameFrame (views r) dst
  row : ∀ r, r < min src.rows dst.rows → c.RowDone f src width (views r) (views (r + 1)) r

/-- **A view**: a conversion that does every row goes through all of them. -/
theorem exists_stages {src dst : View} {width : Nat} (hw : c.write.layout.frac < wordBits)
    (hrow : ∀ v r, SameFrame v dst → r < min src.rows dst.rows →
      ∃ out, c.rowStep src width v r = .ok out ∧ c.RowDone f src width v out r) :
    ∃ views, c.Stages f src dst width views := by
  have hupto : ∀ n, n ≤ min src.rows dst.rows → ∃ views : Nat → View, views 0 = dst ∧
      (List.range n).foldlM (c.rowStep src width) dst = .ok (views n) ∧
      (∀ r, r ≤ n → SameFrame (views r) dst) ∧
      ∀ r, r < n → c.RowDone f src width (views r) (views (r + 1)) r := by
    intro n
    induction n with
    | zero =>
      exact fun _ => ⟨fun _ => dst, rfl, rfl, fun _ _ => SameFrame.refl dst,
        fun r hr => absurd hr (Nat.not_lt_zero r)⟩
    | succ n ih =>
      intro hn
      obtain ⟨views, hstart, hrun, hframe, hdone⟩ := ih (by omega)
      obtain ⟨out, hstep, hout⟩ := hrow (views n) n (hframe n (Nat.le_refl n)) (by omega)
      -- one view more at the end
      refine ⟨fun r => if r ≤ n then views r else out, ?_, ?_, fun r hr => ?_, fun r hr => ?_⟩
      · simp only [if_pos (Nat.zero_le n)]
        exact hstart
      · simp only [if_neg (Nat.not_succ_le_self n)]
        rw [List.range_succ]
        exact foldlM_concat hrun hstep
      · by_cases hrn : r ≤ n
        · simp only [if_pos hrn]
          exact hframe r hrn
        · simp only [if_neg hrn]
          exact hout.frame.trans (hframe n (Nat.le_refl n))
      · by_cases hrn : r < n
        · simp only [if_pos (Nat.le_of_lt hrn), if_pos (Nat.succ_le_of_lt hrn)]
          exact hdone r hrn
        · obtain rfl : r = n := by omega
          simp only [if_pos (Nat.le_refl r), if_neg (Nat.not_succ_le_self r)]
          exact hout
  obtain ⟨views, hstart, hrun, hframe, hdone⟩ := hupto _ (Nat.le_refl _)
  exact ⟨views, hstart, (measured_eq hw _).trans hrun, hframe, hdone⟩

theorem Pixelwise.exists_stages (h : c.Pixelwise f) {src dst : View} {width : Nat}
    (hsrc : ∀ r, r < min src.rows dst.rows → src.HoldsRow c.read width r)
    (hdst : ∀ r, r < min src.rows dst.rows → dst.HoldsRow c.write width r) :
    ∃ views, c.Stages f src dst width views :=
  Conversion.exists_stages (frac_lt_wordBits h.write) fun _ r hframe hr =>
    rowStep_spec h (hsrc r hr) (hframe.holdsRow (hdst r hr))

/-- **Rows that are apart stay as they were done.** -/
theorem Stages.converted {views : Nat → View} {src dst : View} {width : Nat}
    (h : c.Stages f src dst width views) (hw : c.write.Regular)
    (hapart : dst.RowsApart c.write width) {r : Nat} (hr : r < min src.rows dst.rows) :
    ∀ n, r < n → n ≤ min src.rows dst.rows →
      c.Converted f (src.row r) ((views n).row r) (dst.firstRow + r) 0 width := by
  intro n hrn
  induction n with
  | zero => exact absurd hrn (Nat.not_lt_zero r)
  | succ n ih =>
    intro hn
    have hdone := h.row n (by omega)
    have hframe := h.frame n (by omega)
    by_cases hlast : r = n
    · subst hlast
      rw [← hframe.firstRow]
      exact hdone.converted
    · -- an earlier row, and the rows are apart
      intro i hi hiw k hk
      rw [← ih (by omega) (by omega) i hi hiw k hk]
      refine element_row_congr hw hdone.frame.stride (fun p hp j hj => ?_) hiw hk
      refine hdone.outside p _ fun _ => .inl ?_
      have hstride : c.write.bytesPerPlane width ≤ dst.stride p := by
        rcases hapart with hrows | hstride
        · omega
        · exact hstride p hp
      have hmul : (r + 1) * dst.stride p ≤ n * dst.stride p :=
        Nat.mul_le_mul_right _ (by omega)
      rw [hdone.frame.stride, hframe.stride]
      rw [Nat.add_mul, Nat.one_mul] at hmul
      omega

end Conversion

end PixelConv
