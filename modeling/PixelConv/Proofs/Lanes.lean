import PixelConv.Proofs.Tiling
import PixelConv.Proofs.Traces

/-!
# Shuffles treat pixels one by one

A shuffle stores whole lanes, each of which covers the end of the lane before it. What stays of a
lane are the bytes of its pixels, and each of these is the byte that its trace stands for in the
source pixel (`Shuffle.pixelwise`).
-/

namespace PixelConv

namespace Shuffle

/-! ## 1. The bytes of one output pixel -/

/-- Byte `b` of entry `c` of a list whose entries have `n` bytes each. -/
theorem getElem?_flatMap {α β : Type} {f : α → List β} {n : Nat} :
    ∀ {l : List α}, (∀ x ∈ l, (f x).length = n) → ∀ {c b : Nat}, b < n →
      (l.flatMap f)[c * n + b]? = l[c]?.bind fun x => (f x)[b]?
  | [], _, c, b, _ => rfl
  | x :: l, h, c, b, hb => by
    have hx : (f x).length = n := h x List.mem_cons_self
    rw [List.flatMap_cons]
    cases c with
    | zero =>
      rw [Nat.zero_mul, Nat.zero_add, List.getElem?_append_left (by omega)]
      rfl
    | succ c =>
      have hle : (f x).length ≤ (c + 1) * n + b := by
        rw [hx, Nat.add_mul, Nat.one_mul]
        omega
      have hsub : (c + 1) * n + b - (f x).length = c * n + b := by
        rw [hx, Nat.add_mul, Nat.one_mul]
        omega
      rw [List.getElem?_append_right hle, hsub,
        getElem?_flatMap (fun x hx => h x (List.mem_cons_of_mem _ hx)) hb]
      rfl

theorem length_toList (t : ByteTrace) (h : t.len ≤ 4) : t.toList.length = t.len := by
  rw [ByteTrace.toList, List.length_take]
  exact Nat.min_eq_left h

/-- Byte `b` of component `c` of the output pixel. -/
theorem getElem?_outputBytes {comps : Quad ByteTrace} {len limit count : Nat}
    (ht : Tracks comps len limit) (hlen : len ≤ 4) {c b : Fin 4} (hc : c.val < count)
    (hb : b.val < len) :
    (outputBytes comps count)[c.val * len + b.val]? = some ((comps c).places b) := by
  have hall : ∀ t ∈ comps.toList.take count, t.toList.length = len := by
    intro t hmem
    have hmem := List.mem_of_mem_take hmem
    simp only [Quad.toList, List.mem_cons, List.not_mem_nil, or_false] at hmem
    have hcomp : ∃ c, t = comps c := by
      rcases hmem with rfl | rfl | rfl | rfl
      · exact ⟨0, rfl⟩
      · exact ⟨1, rfl⟩
      · exact ⟨2, rfl⟩
      · exact ⟨3, rfl⟩
    obtain ⟨c, rfl⟩ := hcomp
    rw [length_toList _ (by rw [ht.len c]; exact hlen), ht.len c]
  unfold outputBytes
  rw [getElem?_flatMap hall hb, List.getElem?_take, if_pos hc, Quad.getElem?_toList, Option.bind_some,
    ByteTrace.toList, List.getElem?_take, if_pos (by rw [ht.len c]; exact hb), Quad.getElem?_toList]

/-! ## 2. Lanes -/

variable {p : Program} {s : Shuffle} {r w : Shape} {comps : Quad ByteTrace}

/-- A byte of the input pixel, from the bytes of its plane. -/
theorem getD_input (hr : chunk? r = some (r.layout.count * r.elem.size)) (hwf : r.Regular)
    (src : Quad Bytes) (i : Nat) {offset : Nat} (h : offset < r.layout.count * r.elem.size) :
    src.c0.getD (i * (r.layout.count * r.elem.size) + offset) 0 =
      (ByteSource.input offset).value r.elem.size (r.pixel src i) := by
  obtain ⟨hf, -, -, hplace⟩ := chunk?_eq_some hr
  have hsize := Shape.elem_size_pos r.elem
  have hcount := hwf.count_le
  have hc : offset / r.elem.size < r.layout.count := (Nat.div_lt_iff_lt_mul hsize).mpr h
  have hk : offset % r.elem.size < r.elem.size := Nat.mod_lt _ hsize
  have hfin : (Fin.ofNat 4 (offset / r.elem.size)).val = offset / r.elem.size :=
    Nat.mod_eq_of_lt (by omega)
  obtain ⟨hplane, hstart⟩ := hplace (Fin.ofNat 4 (offset / r.elem.size)) (by rw [hfin]; exact hc)
  have hindex : i * (r.layout.count * r.elem.size) + offset =
      r.startOf i (Fin.ofNat 4 (offset / r.elem.size)) + offset % r.elem.size := by
    have := Nat.div_add_mod offset r.elem.size
    rw [Nat.mul_comm] at this
    rw [hstart i, hfin]
    omega
  show _ = Bytes.ofWord ((r.pixel src i) _) _
  rw [Shape.pixel, Quad.get_ofFn, if_pos (by rw [hfin]; exact hc), Shape.element,
    if_neg (by omega), hplane, Bytes.ofWord_word _ _ (Shape.elem_size_le r.elem) hk, hindex]
  rfl

/-- The byte that a cell of a lane takes from the input of its pixel. -/
theorem cellByte_laneCells (hs : Solved p s r w comps) (hr : r.Regular)
    (hw : w.layout.count ≤ 4) (src : Quad Bytes) {n m : Nat} (hm : m < s.pixels) {c b : Fin 4}
    (hc : c.val < w.layout.count) (hb : b.val < w.elem.size)
    (hj : m * (w.layout.count * w.elem.size) + (c.val * w.elem.size + b.val) < 16) :
    cellByte (src.c0.after (n * s.read))
        s.cells[m * (w.layout.count * w.elem.size) + (c.val * w.elem.size + b.val)] =
      ((comps c).places b).value r.elem.size (r.pixel src (n * s.pixels + m)) := by
  obtain ⟨len, ht⟩ := (tracks_loaded r).follow_all hs.followed
  have hlen : len = w.elem.size := by
    rw [← ht.len 0]
    exact hs.len
  subst hlen
  have hsize := Shape.elem_size_pos w.elem
  have hchunk : 0 < w.layout.count * w.elem.size := Nat.mul_pos (by omega) hsize
  have hrest : c.val * w.elem.size + b.val < w.layout.count * w.elem.size := by
    have : (c.val + 1) * w.elem.size ≤ w.layout.count * w.elem.size := Nat.mul_le_mul_right _ hc
    rw [Nat.add_mul, Nat.one_mul] at this
    omega
  have hdiv : (m * (w.layout.count * w.elem.size) + (c.val * w.elem.size + b.val)) /
      (w.layout.count * w.elem.size) = m := by
    rw [Nat.mul_comm, Nat.mul_add_div hchunk, Nat.div_eq_of_lt hrest, Nat.add_zero]
  have hmod : (m * (w.layout.count * w.elem.size) + (c.val * w.elem.size + b.val)) %
      (w.layout.count * w.elem.size) = c.val * w.elem.size + b.val := by
    rw [Nat.mul_comm, Nat.mul_add_mod, Nat.mod_eq_of_lt hrest]
  have hlt : m * (w.layout.count * w.elem.size) + (c.val * w.elem.size + b.val) <
      s.pixels * (w.layout.count * w.elem.size) := by
    have : (m + 1) * (w.layout.count * w.elem.size) ≤ s.pixels * (w.layout.count * w.elem.size) :=
      Nat.mul_le_mul_right _ hm
    rw [Nat.add_mul, Nat.one_mul] at this
    omega
  have hbyte := getElem?_outputBytes ht (Shape.elem_size_le w.elem) hc hb
  have hdefined := hs.defined _ (List.mem_of_getElem? hbyte)
  simp only [hs.cells, laneCells, Vector.getElem_ofFn, if_pos hlt, hdiv, hmod, hbyte,
    Option.bind_some]
  cases hplace : (comps c).places b with
  | input offset =>
    simp only [cell?, Option.getD_some, cellByte]
    rw [Bytes.getD_after, hs.read, ← getD_input hs.readChunk hr src _ (ht.below c b offset hplace)]
    congr 1
    rw [Nat.add_mul, Nat.mul_assoc, Nat.add_assoc]
  | zero => rfl
  | ones => rfl
  | undefined => exact absurd hplace hdefined

/-- **What stays of the lanes of a block.** -/
theorem getD_runLanes (hs : Solved p s r w comps) (hr : r.Regular) (hw : w.layout.count ≤ 4)
    (src : Quad Bytes) (dst : Bytes) {lanes i : Nat} (hi : i < s.pixels * lanes)
    (hdst : lanes * s.write ≤ dst.size) {c b : Fin 4} (hc : c.val < w.layout.count)
    (hb : b.val < w.elem.size) :
    (s.runLanes lanes src.c0 dst).getD
        (i * (w.layout.count * w.elem.size) + c.val * w.elem.size + b.val) 0 =
      ((comps c).places b).value r.elem.size (r.pixel src i) := by
  have hpos := hs.pixels_pos
  have hlane : i / s.pixels < lanes := Nat.div_lt_of_lt_mul hi
  have hm : i % s.pixels < s.pixels := Nat.mod_lt _ hpos
  have hsplit : i / s.pixels * s.pixels + i % s.pixels = i := by
    rw [Nat.mul_comm]
    exact Nat.div_add_mod i s.pixels
  have hrest : c.val * w.elem.size + b.val < w.layout.count * w.elem.size := by
    have : (c.val + 1) * w.elem.size ≤ w.layout.count * w.elem.size := Nat.mul_le_mul_right _ hc
    rw [Nat.add_mul, Nat.one_mul] at this
    omega
  have hlt : i % s.pixels * (w.layout.count * w.elem.size) + (c.val * w.elem.size + b.val) <
      s.write := by
    have : (i % s.pixels + 1) * (w.layout.count * w.elem.size) ≤
        s.pixels * (w.layout.count * w.elem.size) := Nat.mul_le_mul_right _ hm
    rw [Nat.add_mul, Nat.one_mul] at this
    rw [hs.write]
    omega
  have hindex : i * (w.layout.count * w.elem.size) + c.val * w.elem.size + b.val =
      i / s.pixels * s.write +
        (i % s.pixels * (w.layout.count * w.elem.size) + (c.val * w.elem.size + b.val)) := by
    have hmul : i * (w.layout.count * w.elem.size) =
        i / s.pixels * (s.pixels * (w.layout.count * w.elem.size)) +
          i % s.pixels * (w.layout.count * w.elem.size) := by
      rw [← Nat.mul_assoc (i / s.pixels), ← Nat.add_mul, hsplit]
    rw [hmul, hs.write]
    omega
  have hroom : i / s.pixels * s.write +
      (i % s.pixels * (w.layout.count * w.elem.size) + (c.val * w.elem.size + b.val)) <
        dst.size := by
    have : (i / s.pixels + 1) * s.write ≤ lanes * s.write := Nat.mul_le_mul_right _ hlane
    rw [Nat.add_mul, Nat.one_mul] at this
    omega
  have hwrite : s.write ≤ 16 := hs.write_le
  have hsizes : ∀ n, (s.lane (src.c0.after (n * s.read))).size = 16 := fun n => by
    rw [lane, Vector.size_toArray]
  have hstep : ∀ (d : Bytes) (n : Nat), d.size = dst.size → n < lanes →
      d.splice (n * s.write) (s.lane (src.c0.after (n * s.read))) =
        d.splice (n * s.write) (s.lane (src.c0.after (n * s.read))) := fun _ _ _ _ => rfl
  have hstay := (Bytes.getD_foldl_splice hstep (fun n _ => by rw [hsizes n]; exact hwrite) rfl lanes
    (Nat.le_refl lanes)).2 _ _ hlane hlt hroom
  rw [hindex]
  refine hstay.trans ?_
  rw [← hsplit, ← cellByte_laneCells hs hr hw src hm hc hb (by omega), hsplit]
  have hj : i % s.pixels * (w.layout.count * w.elem.size) + (c.val * w.elem.size + b.val) <
      (s.lane (src.c0.after (i / s.pixels * s.read))).size := by
    rw [hsizes]
    omega
  rw [Bytes.getD_eq, Array.getElem?_eq_getElem hj, Option.getD_some]
  simp only [lane, Vector.getElem_toArray, Vector.getElem_map]

theorem size_runLanes (s : Shuffle) (lanes : Nat) (src dst : Bytes) :
    (s.runLanes lanes src dst).size = dst.size := by
  unfold runLanes
  generalize List.range lanes = ns
  induction ns generalizing dst with
  | nil => rfl
  | cons n ns ih => rw [List.foldl_cons, ih, Bytes.size_splice]

theorem regular_of_chunk? {s : Shape} {n : Nat} (h : chunk? s = some n)
    (hwf : s.layout.wellFormed = true) : s.Regular := by
  obtain ⟨hf, -⟩ := chunk?_eq_some h
  exact ⟨hwf, by omega, fun hpos => absurd hpos (by omega)⟩

theorem bytesPerPlane_of_chunk? {s : Shape} {n : Nat} (h : chunk? s = some n) (pixels : Nat) :
    s.bytesPerPlane pixels = pixels * n := by
  obtain ⟨hf, rfl, hplanes, -⟩ := chunk?_eq_some h
  rw [Shape.bytesPerPlane_whole hf]
  unfold Layout.perPlane
  unfold Layout.planes at hplanes
  split
  · rfl
  · rename_i hp
    rw [if_neg hp] at hplanes
    rw [hplanes]

/-- The pixel that a shuffle makes of a source pixel. -/
def onPixel (r w : Shape) (comps : Quad ByteTrace) (q : Pixel) : Pixel :=
  comps.map fun t => t.word w.elem.size r.elem.size q

/-- **A shuffle treats pixels one by one**: each byte of a pixel is what its trace stands for. -/
theorem pixelwise (hs : Solved p s r w comps) (hr : r.layout.wellFormed = true)
    (hw : w.layout.wellFormed = true) (cpu : CpuSet) (backend : String) :
    (Conversion.mk (.shuffle s) r w (s.pixels * Conversion.lanes) (laneBytes - s.read)
      (laneBytes - s.write) cpu backend).Pixelwise fun _ _ q => onPixel r w comps q := by
  have hregr := regular_of_chunk? hs.readChunk hr
  have hregw := regular_of_chunk? hs.writeChunk hw
  have hread : s.read ≤ 16 := hs.read_le
  have hwrite : s.write ≤ 16 := hs.write_le
  have hrbytes : r.bytesPerPlane (s.pixels * 16) = 16 * s.read := by
    rw [bytesPerPlane_of_chunk? hs.readChunk, hs.read, Nat.mul_right_comm, Nat.mul_comm]
  have hwbytes : w.bytesPerPlane (s.pixels * 16) = 16 * s.write := by
    rw [bytesPerPlane_of_chunk? hs.writeChunk, hs.write, Nat.mul_right_comm, Nat.mul_comm]
  have haligned : ∀ {t : Shape} {n : Nat}, chunk? t = some n → 2 ^ t.layout.frac ∣ s.pixels * 16 := by
    intro t n ht
    rw [(chunk?_eq_some ht).1]
    exact Nat.one_dvd _
  refine ⟨rfl, hregr, hregw, ?_, haligned hs.readChunk, haligned hs.writeChunk, ?_, ?_,
    fun src dst x y _ hdst => ?_⟩
  · exact Nat.mul_pos hs.pixels_pos (by decide : 0 < 16)
  · show r.bytesPerPlane (s.pixels * 16) + (16 - s.read) ≤ 1024
    omega
  · show w.bytesPerPlane (s.pixels * 16) + (16 - s.write) ≤ 1024
    omega
  · have hroom : 16 * s.write + (16 - s.write) ≤ dst.c0.size := by
      have := hdst 0 hregw.planes_pos
      rw [← hwbytes]
      exact this
    refine ⟨{ dst with c0 := s.runLanes 16 src.c0 dst.c0 }, rfl,
      Conversion.sameSize_first (size_runLanes s 16 src.c0 dst.c0), fun i hi c hc => ?_⟩
    have hi : i < s.pixels * 16 := hi
    have hc : c.val < w.layout.count := hc
    have hbyte := fun (b : Fin 4) (hb : b.val < w.elem.size) =>
      getD_runLanes hs hregr hregw.count_le src dst.c0 hi (by omega) hc hb
    generalize s.runLanes 16 src.c0 dst.c0 = first at hbyte
    obtain ⟨hf, -, -, hplace⟩ := chunk?_eq_some hs.writeChunk
    obtain ⟨hplane, hstart⟩ := hplace c hc
    show w.element _ i c = _
    rw [Shape.element, if_neg (by omega), onPixel, Quad.get_map]
    refine Bytes.word_congr fun k hk => ?_
    have hk4 : k < 4 := Nat.lt_of_lt_of_le hk (Shape.elem_size_le w.elem)
    have hvalue := ByteTrace.getD_word (comps c) r.elem.size (r.pixel src i) ⟨k, hk4⟩
    rw [hplane, hstart i, Nat.zero_add, hvalue]
    exact hbyte ⟨k, hk4⟩ hk

end Shuffle

end PixelConv
