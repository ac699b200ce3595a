import PixelConv.Proofs.Narrowing

/-!
# Rows that are written alike

Two runs that write the same elements into each row, one row after the other, end with the same
elements in all rows, whether rows overlap or not (`Conversion.rows_agree`). Rows of whole elements
leave no byte undetermined; where elements share bytes, the last byte of a row may keep bits that
belong to no pixel, but no row has pixels in them that is not written later.

Copying rows is one more way of writing them (`Conversion.copy_rowStep`).
-/

namespace PixelConv

namespace Conversion

variable {w : Shape} {width : Nat}

/-! ## 1. Writing a row -/

/-- On the way from `dst` to `out`, the elements of row `r` become `value`, and no byte outside of
its pixels changes. -/
structure RowWritten (w : Shape) (width : Nat) (value : Nat → Fin 4 → UInt32) (dst out : View)
    (r : Nat) : Prop where
  frame : SameFrame out dst
  elements : ∀ x, x < width → ∀ k : Fin 4, k.val < w.layout.count →
    w.element (out.row r) x k = value x k
  outside : ∀ p : Fin 4, p.val < w.layout.planes → ∀ i,
    i < r * dst.stride p ∨ r * dst.stride p + w.bytesPerPlane width ≤ i →
    (out.planes p).getD i 0 = (dst.planes p).getD i 0

/-- A row that was converted is written, also in any shape that has its components at the same
places. -/
theorem RowDone.rowWritten {c : Conversion} {f : Nat → Nat → Pixel → Pixel} {src dst out : View}
    {r : Nat} (h : c.RowDone f src width dst out r) {s : Shape} (hs : s.Narrows c.write)
    (hw : s.Narrows w) (hcount : s.layout.count = w.layout.count) :
    RowWritten w width (fun x => (f x (dst.firstRow + r) (c.read.pixel (src.row r) x)).get) dst out
      r := by
  have hle := hs.count_le
  refine ⟨h.frame, fun x hx k hk => ?_, fun p hp i hi => ?_⟩
  · rw [← hw.element_eq (by omega), hs.element_eq (by omega)]
    exact h.converted x (Nat.zero_le x) hx k (by omega)
  · refine h.outside p i fun _ => ?_
    rw [← hs.bytesPerPlane_eq, hw.bytesPerPlane_eq]
    exact hi

/-! ## 2. Two runs -/

/-- An element that shares a byte depends on that byte and its place in it. -/
theorem fraction_congr {frac x y : Nat} {a b : Bytes}
    (hbyte : a.getD (x / 2 ^ frac) 0 = b.getD (y / 2 ^ frac) 0)
    (hplace : x % 2 ^ frac = y % 2 ^ frac) : Load.fraction frac a x = Load.fraction frac b y := by
  simp only [Load.fraction, hbyte, hplace]

theorem element_fraction (hf : 0 < w.layout.frac) (v : View) (r x : Nat) (k : Fin 4) :
    w.element (v.row r) x k =
      Load.fraction w.layout.frac ((v.planes 0).after (r * v.stride 0)) x := by
  rw [Shape.element, if_pos hf]
  rfl

section Runs

variable {value : Nat → Nat → Fin 4 → UInt32} {rows : Nat} {a b : Nat → View}
  (hw : w.Regular) (hstart : a 0 = b 0)
  (ha : ∀ r, r < rows → RowWritten w width (value r) (a r) (a (r + 1)) r)
  (hb : ∀ r, r < rows → RowWritten w width (value r) (b r) (b (r + 1)) r)

include hstart ha hb in
theorem rows_frame : ∀ n, n ≤ rows → (a n).stride = (b n).stride := by
  intro n
  induction n with
  | zero =>
    intro _
    rw [hstart]
  | succ n ih =>
    intro hn
    rw [(ha n hn).frame.stride, (hb n hn).frame.stride]
    exact ih (by omega)

include hw hstart ha hb in
/-- Elements of whole bytes: all bytes are the same. -/
theorem rows_agree_whole (hf : w.layout.frac = 0) : ∀ n, n ≤ rows →
    ∀ p : Fin 4, p.val < w.layout.planes → ∀ i,
      ((a n).planes p).getD i 0 = ((b n).planes p).getD i 0 := by
  intro n
  induction n with
  | zero =>
    intro _ p _ i
    rw [hstart]
  | succ n ih =>
    intro hn p hp i
    have hstride := rows_frame hstart ha hb n (by omega)
    have houta := (ha n hn).outside p hp i
    have houtb := (hb n hn).outside p hp i
    rw [← hstride] at houtb
    by_cases hi : i < n * (a n).stride p ∨ n * (a n).stride p + w.bytesPerPlane width ≤ i
    · rw [houta hi, houtb hi]
      exact ih (by omega) p hp i
    · -- a byte of row `n`, which is made up of its elements
      have hagree : w.Agree width ((a (n + 1)).row n) ((b (n + 1)).row n) := by
        refine Shape.agree_of_elements hw hf fun x hx k hk => ?_
        rw [(ha n hn).elements x hx k hk, (hb n hn).elements x hx k hk]
      have hbyte := hagree p hp (i - n * (a n).stride p) (by omega)
      simp only [View.row, Quad.get_ofFn, Bytes.getD_after] at hbyte
      rw [(ha n hn).frame.stride, (hb n hn).frame.stride, ← hstride,
        Nat.add_sub_cancel' (by omega)] at hbyte
      exact hbyte

include hw hstart ha hb in
/-- Elements that share bytes: all elements of the rows that were written are the same. -/
theorem rows_agree_fraction (hf : 0 < w.layout.frac) : ∀ n, n ≤ rows → ∀ r, r < n →
    ∀ x, x < width → Load.fraction w.layout.frac (((a n).planes 0).after (r * (a n).stride 0)) x =
      Load.fraction w.layout.frac (((b n).planes 0).after (r * (b n).stride 0)) x := by
  intro n
  induction n with
  | zero => exact fun _ r hr => absurd hr (Nat.not_lt_zero r)
  | succ n ih =>
    intro hn r hr x hx
    have hstride := rows_frame hstart ha hb n (by omega)
    have hstrideb : (b (n + 1)).stride 0 = (a n).stride 0 := by
      rw [(hb n hn).frame.stride, ← hstride]
    have houta := (ha n hn).outside 0 hw.planes_pos (r * (a n).stride 0 + x / 2 ^ w.layout.frac)
    have houtb := (hb n hn).outside 0 hw.planes_pos (r * (a n).stride 0 + x / 2 ^ w.layout.frac)
    rw [← hstride] at houtb
    have hrow : ∀ y, y < width →
        Load.fraction w.layout.frac (((a (n + 1)).planes 0).after (n * (a n).stride 0)) y =
          Load.fraction w.layout.frac (((b (n + 1)).planes 0).after (n * (a n).stride 0)) y := by
      intro y hy
      have hela := (ha n hn).elements y hy 0 hw.count_pos
      have helb := (hb n hn).elements y hy 0 hw.count_pos
      rw [element_fraction hf, (ha n hn).frame.stride] at hela
      rw [element_fraction hf, hstrideb] at helb
      rw [hela, helb]
    rw [(ha n hn).frame.stride, hstrideb]
    have hmul : r * (a n).stride 0 ≤ n * (a n).stride 0 := Nat.mul_le_mul_right _ (by omega)
    by_cases hbefore : r * (a n).stride 0 + x / 2 ^ w.layout.frac < n * (a n).stride 0
    · -- before row `n`, so in an earlier row, and as it was
      have hne : r ≠ n := by
        rintro rfl
        exact absurd hbefore (Nat.not_lt.mpr (Nat.le_add_right _ _))
      have hold := ih (by omega) r (by omega) x hx
      rw [← hstride] at hold
      have hbyte : ∀ {u v : View}, (u.planes 0).getD (r * (a n).stride 0 + x / 2 ^ w.layout.frac) 0 =
          (v.planes 0).getD (r * (a n).stride 0 + x / 2 ^ w.layout.frac) 0 →
          Load.fraction w.layout.frac ((u.planes 0).after (r * (a n).stride 0)) x =
            Load.fraction w.layout.frac ((v.planes 0).after (r * (a n).stride 0)) x := by
        intro u v huv
        refine fraction_congr ?_ rfl
        rw [Bytes.getD_after, Bytes.getD_after]
        exact huv
      rw [hbyte (houta (.inl hbefore)), hbyte (houtb (.inl hbefore))]
      exact hold
    · -- a pixel of row `n` as well
      have hpow : 0 < 2 ^ w.layout.frac := Nat.two_pow_pos _
      obtain ⟨d, hd⟩ : ∃ d, n * (a n).stride 0 = r * (a n).stride 0 + d :=
        ⟨n * (a n).stride 0 - r * (a n).stride 0, by omega⟩
      have hle : 2 ^ w.layout.frac * d ≤ x :=
        Nat.le_trans (Nat.mul_le_mul_left _ (by omega)) (Nat.mul_div_le x _)
      have hsame : ∀ v : View, Load.fraction w.layout.frac ((v.planes 0).after (r * (a n).stride 0)) x =
          Load.fraction w.layout.frac ((v.planes 0).after (n * (a n).stride 0))
            (x - 2 ^ w.layout.frac * d) := by
        intro v
        refine fraction_congr ?_ (Nat.sub_mul_mod hle).symm
        rw [Bytes.getD_after, Bytes.getD_after, hd, Nat.sub_mul_div_of_le x _ d hle,
          Nat.add_assoc, Nat.add_sub_cancel' (by omega)]
      rw [hsame, hsame]
      exact hrow _ (by omega)

include hw hstart ha hb in
/-- **Runs that write the same elements into each row end with the same elements.** -/
theorem rows_agree {n r : Nat} (hn : n ≤ rows) (hr : r < n) {x : Nat} (hx : x < width) {k : Fin 4}
    (hk : k.val < w.layout.count) :
    w.element ((a n).row r) x k = w.element ((b n).row r) x k := by
  by_cases hf : 0 < w.layout.frac
  · rw [element_fraction hf, element_fraction hf]
    exact rows_agree_fraction hw hstart ha hb hf n hn r hr x hx
  · refine element_row_congr hw (rows_frame hstart ha hb n hn) (fun p hp i _ => ?_) hx hk
    exact rows_agree_whole hw hstart ha hb (by omega) n hn p hp _

end Runs

/-- **Conversions that store the same elements leave the same pixels**, in a shape that has its
components where the destinations of both have them. -/
theorem Stages.pixels_agree {c c' : Conversion} {f f' : Nat → Nat → Pixel → Pixel}
    {src dst : View} {a b : Nat → View} (ha : c.Stages f src dst width a)
    (hb : c'.Stages f' src dst width b) (hw : c.write.Regular) {s : Shape}
    (hs : s.Narrows c'.write) (hsw : s.Narrows c.write)
    (hcount : s.layout.count = c.write.layout.count)
    (hvalue : ∀ r, r < min src.rows dst.rows → ∀ x, x < width → ∀ k : Fin 4,
      k.val < c.write.layout.count →
        (f' x (dst.firstRow + r) (c'.read.pixel (src.row r) x)) k =
          (f x (dst.firstRow + r) (c.read.pixel (src.row r) x)) k)
    {r : Nat} (hr : r < min src.rows dst.rows) {x : Nat} (hx : x < width) :
    c.write.pixel ((b (min src.rows dst.rows)).row r) x =
      c.write.pixel ((a (min src.rows dst.rows)).row r) x := by
  have hrows : ∀ r, r < min src.rows dst.rows → RowWritten c.write width
      (fun x => (f x (dst.firstRow + r) (c.read.pixel (src.row r) x)).get) (a r) (a (r + 1)) r := by
    intro r hr
    have hrow := (ha.row r hr).rowWritten (.refl hw.count_pos) (.refl hw.count_pos) rfl
    rw [(ha.frame r (Nat.le_of_lt hr)).firstRow] at hrow
    exact hrow
  have hrows' : ∀ r, r < min src.rows dst.rows → RowWritten c.write width
      (fun x => (f x (dst.firstRow + r) (c.read.pixel (src.row r) x)).get) (b r) (b (r + 1)) r := by
    intro r hr
    have hrow := (hb.row r hr).rowWritten hs hsw hcount
    rw [(hb.frame r (Nat.le_of_lt hr)).firstRow] at hrow
    refine ⟨hrow.frame, fun x hx k hk => ?_, hrow.outside⟩
    rw [hrow.elements x hx k hk]
    exact hvalue r hr x hx k hk
  have hstart : b 0 = a 0 := hb.start.trans ha.start.symm
  refine Quad.ext_get fun k => ?_
  rw [Shape.pixel, Shape.pixel, Quad.get_ofFn, Quad.get_ofFn]
  split
  · rename_i hk
    exact rows_agree hw hstart hrows' hrows (Nat.le_refl _) hr hx hk
  · rfl

/-! ## 3. Copies -/

theorem copyPlane_eq {bytes : Nat} {input output : Bytes} (hin : bytes ≤ input.size)
    (hout : bytes ≤ output.size) :
    copyPlane bytes input output = .ok (output.splice 0 (input.extract 0 bytes)) := by
  rw [copyPlane, if_pos hout, Bytes.first, if_pos hin]
  rfl

/-- A copied row has the bytes of the source. -/
theorem copy_agree {s : Shape} (hs : s.layout.frac < wordBits) {input output : Quad Bytes} {y : Nat}
    (hin : Room s input (s.bytesPerPlane width)) (hout : Room s output (s.bytesPerPlane width)) :
    ∃ out, (ofCopy s).convertRow input output width y = .ok out ∧ SameSize out output ∧
      s.Agree width out input := by
  have hplane : ∀ p : Fin 4, ∃ b : Bytes,
      (if p.val < s.layout.planes then copyPlane (s.bytesPerPlane width) (input p) (output p)
        else .ok (output p)) = .ok b := by
    intro p
    split
    · rename_i hp
      exact ⟨_, copyPlane_eq (hin p hp) (hout p hp)⟩
    · exact ⟨_, rfl⟩
  obtain ⟨out, hrun⟩ := Quad.exists_ofFnM hplane
  have hget := Quad.ofFnM_eq_ok_iff.mp hrun
  refine ⟨out, (measured_eq hs _).trans hrun, fun p => ?_, fun p hp i hi => ?_⟩
  · have hp := hget p
    split at hp
    · rename_i hlt
      rw [copyPlane_eq (hin p hlt) (hout p hlt)] at hp
      rw [← Except.ok.inj hp, Bytes.size_splice]
    · rw [Except.ok.inj hp]
  · have hp' := hget p
    rw [if_pos hp, copyPlane_eq (hin p hp) (hout p hp)] at hp'
    have hsize : (Array.extract (input p) 0 (s.bytesPerPlane width)).size = s.bytesPerPlane width := by
      rw [Array.size_extract]
      have := hin p hp
      omega
    have hroom := hout p hp
    have hsplice := Bytes.getD_splice_within (output p)
      (Array.extract (input p) 0 (s.bytesPerPlane width)) (show 0 + i < _ by omega)
      (by rw [hsize]; exact hi) 0
    have hextract := Bytes.getD_extract (input p) (show i < s.bytesPerPlane width - 0 from hi)
      (hin p hp) 0
    rw [Nat.zero_add] at hsplice hextract
    rw [← Except.ok.inj hp', hsplice, hextract]

/-- A copied row has the elements of the source. -/
theorem copy_convertRow {s : Shape} (hs : s.Regular) {input output : Quad Bytes} {y : Nat}
    (hin : Room s input (s.bytesPerPlane width)) (hout : Room s output (s.bytesPerPlane width)) :
    ∃ out, (ofCopy s).convertRow input output width y = .ok out ∧ SameSize out output ∧
      (ofCopy s).Converted (fun _ _ q => q) input out y 0 width := by
  obtain ⟨out, hrun, hsize, hagree⟩ :=
    copy_agree (frac_lt_wordBits hs) (y := y) hin hout
  refine ⟨out, hrun, hsize, fun x _ hx k hk => ?_⟩
  show s.element out x k = (s.pixel input x) k
  have hk : k.val < s.layout.count := hk
  rw [Shape.pixel, Quad.get_ofFn, if_pos hk]
  exact Shape.element_congr hs hagree hx hk

/-- **One row of a copy.** -/
theorem copy_rowStep {s : Shape} (hs : s.Regular) {src dst : View} {r : Nat}
    (hsrc : src.HoldsRow s width r) (hdst : Room s (dst.row r) (s.bytesPerPlane width)) :
    ∃ out, (ofCopy s).rowStep src width dst r = .ok out ∧
      (ofCopy s).RowDone (fun _ _ q => q) src width dst out r := by
  have hdst' : Room (ofCopy s).write (dst.row r) ((ofCopy s).write.bytesPerPlane width) := hdst
  obtain ⟨piece, hrun, hsize, hdone⟩ := copy_convertRow hs (y := dst.firstRow + r) (room_row hsrc)
    (room_rowOutput hdst')
  exact rowStep_of_convertRow hs hdst' hrun hsize hdone

theorem copy_stages {s : Shape} (hs : s.Regular) {src dst : View}
    (hsrc : ∀ r, r < min src.rows dst.rows → src.HoldsRow s width r)
    (hdst : ∀ r, r < min src.rows dst.rows → Room s (dst.row r) (s.bytesPerPlane width)) :
    ∃ views, (ofCopy s).Stages (fun _ _ q => q) src dst width views :=
  exists_stages (frac_lt_wordBits hs) fun _ r hframe hr =>
    copy_rowStep hs (hsrc r hr) (hframe.room (hdst r hr))

/-- A row is copied only if the destination has room for it. -/
theorem room_of_copy_rowStep {s : Shape} {src dst out : View} {r : Nat}
    (h : (ofCopy s).rowStep src width dst r = .ok out) :
    Room s (dst.row r) (s.bytesPerPlane width) := by
  obtain ⟨piece, hpiece, -⟩ := exists_of_map_eq_ok h
  obtain ⟨-, hpiece⟩ := of_measured_eq_ok hpiece
  intro p hp
  have hplane := Quad.ofFnM_eq_ok_iff.mp hpiece p
  rw [if_pos (show p.val < (ofCopy s).read.layout.planes from hp)] at hplane
  unfold copyPlane at hplane
  split at hplane
  · rename_i hle
    rw [rowOutput, Quad.get_ofFn, if_pos (show p.val < (ofCopy s).write.layout.planes from hp),
      Array.size_extract, View.cut] at hle
    rw [size_row]
    have hle : s.bytesPerPlane width ≤ min (min (r * dst.stride p) (dst.planes p).size +
      s.bytesPerPlane width) (dst.planes p).size - min (r * dst.stride p) (dst.planes p).size := hle
    omega
  · cases hplane

/-! ## 4. Runs that come to an end -/

theorem sameFrame_of_rowStep {c : Conversion} {src dst out : View} {r : Nat}
    (h : c.rowStep src width dst r = .ok out) : SameFrame out dst := by
  obtain ⟨piece, -, rfl⟩ := exists_of_map_eq_ok h
  exact ⟨rfl, rfl, rfl, fun p => by rw [Quad.get_ofFn, Bytes.size_splice]⟩

/-- A run that comes to an end does every row. -/
theorem exists_rowStep_of_run {c : Conversion} {src dst out : View}
    (h : c.run src dst width = .ok out) : ∀ r, r < min src.rows dst.rows →
      ∃ v v', SameFrame v dst ∧ c.rowStep src width v r = .ok v' := by
  have hupto : ∀ n v, (List.range n).foldlM (c.rowStep src width) dst = .ok v →
      SameFrame v dst ∧ ∀ r, r < n →
        ∃ v v', SameFrame v dst ∧ c.rowStep src width v r = .ok v' := by
    intro n
    induction n with
    | zero =>
      intro v hv
      cases hv
      exact ⟨SameFrame.refl dst, fun r hr => absurd hr (Nat.not_lt_zero r)⟩
    | succ n ih =>
      intro v hv
      rw [List.range_succ, List.foldlM_append] at hv
      cases hmid : (List.range n).foldlM (c.rowStep src width) dst with
      | error f =>
        rw [hmid] at hv
        cases hv
      | ok mid =>
        obtain ⟨hframe, hrows⟩ := ih mid hmid
        rw [hmid] at hv
        cases hstep : c.rowStep src width mid n with
        | error f =>
          have hv : (c.rowStep src width mid n >>= fun out => .ok out) = .ok v := hv
          rw [hstep] at hv
          cases hv
        | ok next =>
          have hv : (c.rowStep src width mid n >>= fun out => .ok out) = .ok v := hv
          rw [hstep] at hv
          cases hv
          refine ⟨(sameFrame_of_rowStep hstep).trans hframe, fun r hr => ?_⟩
          by_cases hrn : r = n
          · subst hrn
            exact ⟨mid, v, hframe, hstep⟩
          · exact hrows r (by omega)
  exact (hupto _ out (of_measured_eq_ok h).2).2

/-- **Copies go through exactly if the destination has room for the rows.** -/
theorem copy_run_iff {s : Shape} (hs : s.Regular) {src dst : View}
    (hsrc : ∀ r, r < min src.rows dst.rows → src.HoldsRow s width r) :
    (∃ out, (ofCopy s).run src dst width = .ok out) ↔
      ∀ r, r < min src.rows dst.rows → Room s (dst.row r) (s.bytesPerPlane width) := by
  constructor
  · rintro ⟨out, hrun⟩ r hr
    obtain ⟨v, v', hframe, hstep⟩ := exists_rowStep_of_run hrun r hr
    exact hframe.symm.room (room_of_copy_rowStep hstep)
  · intro hroom
    obtain ⟨views, hstages⟩ := copy_stages hs hsrc hroom
    exact ⟨_, hstages.done⟩

end Conversion

end PixelConv
