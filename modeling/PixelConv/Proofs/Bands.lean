import PixelConv.Proofs.Compilation

/-!
# Bands of rows

A view can be cut into bands of rows that are converted on their own, in any order.

1. A view and its two parts: a row of a part is a row of the whole (`put_append_upper`,
   `Meets.put_append`).
2. What a row gets depends on its number and on the pixels it reads (`Conversion.Local`). This holds
   of conversions pixel by pixel and of copies, however many bytes stand after the row.
3. A run over the whole is a run over the upper part and one over the lower part
   (`Conversion.Local.run_split`).
4. Any number of bands (`Conversion.Local.bands`) and any order of them
   (`Conversion.BandsDone.of_perm`).
5. Main statement: `Backend.run_in_bands`, for conversions made from a program.
-/

namespace PixelConv

/-! ## 1. Views in two parts -/

namespace View

variable {v upper lower : View} {s : Shape} {width r : Nat} {p : Fin 4}

/-- The planes in use hold all rows, and a row takes at least the bytes of `width` pixels. -/
def HoldsRows (v : View) (s : Shape) (width : Nat) : Prop :=
  ∀ p : Fin 4, p.val < s.layout.planes →
    s.bytesPerPlane width ≤ v.stride p ∧ v.rows * v.stride p ≤ (v.planes p).size

theorem HoldsRows.holdsRow (h : v.HoldsRows s width) (hr : r < v.rows) : v.HoldsRow s width r := by
  intro p hp
  obtain ⟨hbytes, hsize⟩ := h p hp
  have hmul : (r + 1) * v.stride p ≤ v.rows * v.stride p := Nat.mul_le_mul_right _ hr
  rw [Nat.add_mul, Nat.one_mul] at hmul
  omega

theorem append_splitRows (v : View) (row : Nat) :
    (v.splitRows row).1.append (v.splitRows row).2 = v := by
  refine eq_of_planes (fun p => ?_) rfl rfl ?_
  · simp only [append, splitRows, Quad.get_zipWith, Quad.get_ofFn]
    exact Bytes.extract_append_after _ _
  · show min row v.rows + (v.rows - min row v.rows) = v.rows
    omega

/-- A row that is held starts where its number says. -/
theorem HoldsRow.cut_eq (h : v.HoldsRow s width r) (hp : p.val < s.layout.planes) :
    v.cut r p = r * v.stride p :=
  Nat.min_eq_left (Nat.le_trans (Nat.le_add_right _ _) (h p hp))

theorem HoldsRows.cut_split (h : v.HoldsRows s width) (row : Nat) (hp : p.val < s.layout.planes) :
    v.cut (min row v.rows) p = min row v.rows * v.stride p :=
  Nat.min_eq_left (Nat.le_trans (Nat.mul_le_mul_right _ (Nat.min_le_right _ _)) (h p hp).2)

/-- The upper part ends where the lower one starts. -/
theorem HoldsRows.size_top (h : v.HoldsRows s width) (row : Nat) (hp : p.val < s.layout.planes) :
    ((v.splitRows row).1.planes p).size = min row v.rows * v.stride p := by
  have hcut := h.cut_split row hp
  have hle : v.cut (min row v.rows) p ≤ (v.planes p).size := Nat.min_le_right _ _
  simp only [splitRows, Quad.get_ofFn, Array.size_extract]
  omega

theorem HoldsRows.top (h : v.HoldsRows s width) (row : Nat) :
    (v.splitRows row).1.HoldsRows s width :=
  fun p hp => ⟨(h p hp).1, Nat.le_of_eq (h.size_top row hp).symm⟩

theorem HoldsRows.bottom (h : v.HoldsRows s width) (row : Nat) :
    (v.splitRows row).2.HoldsRows s width := by
  intro p hp
  refine ⟨(h p hp).1, ?_⟩
  show (v.rows - min row v.rows) * v.stride p ≤ ((v.splitRows row).2.planes p).size
  simp only [splitRows, Quad.get_ofFn, Bytes.size_after]
  rw [h.cut_split row hp, Nat.sub_mul]
  have := (h p hp).2
  omega

/-- The bytes of row `r` replaced by a piece. -/
def put (v : View) (r : Nat) (piece : Quad Bytes) : View :=
  { v with planes := Quad.ofFn fun p => (v.planes p).splice (v.cut r p) (piece p) }

/-- A piece for a row of `width` pixels: nothing in planes that are not in use. -/
def IsPiece (s : Shape) (width : Nat) (piece : Quad Bytes) : Prop :=
  ∀ p : Fin 4, (piece p).size = if p.val < s.layout.planes then s.bytesPerPlane width else 0

theorem cut_append_upper (h : upper.HoldsRow s width r) (lower : View)
    (hp : p.val < s.layout.planes) : (upper.append lower).cut r p = upper.cut r p := by
  have hroom := h p hp
  rw [h.cut_eq hp]
  simp only [cut, append, Quad.get_zipWith, Array.size_append]
  omega

/-- A row of the upper part is a row of the whole. -/
theorem put_append_upper (h : upper.HoldsRow s width r) {piece : Quad Bytes}
    (hpiece : IsPiece s width piece) (lower : View) :
    (upper.append lower).put r piece = (upper.put r piece).append lower := by
  refine eq_of_planes (fun p => ?_) rfl rfl rfl
  have hsize := hpiece p
  by_cases hp : p.val < s.layout.planes
  · rw [if_pos hp] at hsize
    have hroom := h p hp
    rw [put, Quad.get_ofFn, cut_append_upper h lower hp, h.cut_eq hp]
    simp only [put, append, Quad.get_ofFn, Quad.get_zipWith, h.cut_eq hp]
    exact Bytes.splice_append_left (by omega) _
  · rw [if_neg hp] at hsize
    simp only [put, append, Quad.get_ofFn, Quad.get_zipWith, Bytes.splice_of_size_zero hsize]

/-- The upper view ends after `m` rows, where the lower one starts. -/
structure Meets (s : Shape) (upper lower : View) (m : Nat) : Prop where
  size : ∀ p : Fin 4, p.val < s.layout.planes → (upper.planes p).size = m * upper.stride p
  stride : lower.stride = upper.stride
  firstRow : lower.firstRow = upper.firstRow + m

theorem Meets.cut_append {m : Nat} (h : Meets s upper lower m) (hr : lower.HoldsRow s width r)
    (hp : p.val < s.layout.planes) :
    (upper.append lower).cut (m + r) p = (upper.planes p).size + lower.cut r p := by
  have hroom := hr p hp
  rw [hr.cut_eq hp, h.size p hp]
  simp only [cut, append, Quad.get_zipWith, Array.size_append]
  rw [h.size p hp, Nat.add_mul, ← h.stride]
  omega

/-- A row of the lower part is a row of the whole. -/
theorem Meets.put_append {m : Nat} (h : Meets s upper lower m) (hr : lower.HoldsRow s width r)
    {piece : Quad Bytes} (hpiece : IsPiece s width piece) :
    (upper.append lower).put (m + r) piece = upper.append (lower.put r piece) := by
  refine eq_of_planes (fun p => ?_) rfl rfl rfl
  have hsize := hpiece p
  by_cases hp : p.val < s.layout.planes
  · rw [put, Quad.get_ofFn, h.cut_append hr hp]
    simp only [put, append, Quad.get_ofFn, Quad.get_zipWith]
    exact Bytes.splice_append_right _ _ _ _
  · rw [if_neg hp] at hsize
    simp only [put, append, Quad.get_ofFn, Quad.get_zipWith, Bytes.splice_of_size_zero hsize]

/-- The two parts of a view meet. -/
theorem HoldsRows.meets (h : v.HoldsRows s width) (row : Nat) :
    Meets s (v.splitRows row).1 (v.splitRows row).2 (min row v.rows) :=
  ⟨fun _ hp => h.size_top row hp, rfl, rfl⟩

end View

/-! ## 2. Rows that depend on their pixels alone -/

namespace Conversion

variable {c : Conversion} {width : Nat}

/-- Rows can be measured, and what the conversion puts into one depends on its number and on the
pixels of the source alone. -/
def Local (c : Conversion) (width : Nat) : Prop :=
  c.write.layout.frac < wordBits ∧
  ∀ (a b output : Quad Bytes) (y : Nat), Room c.read a (c.read.bytesPerPlane width) →
    Room c.read b (c.read.bytesPerPlane width) → c.read.Agree width a b →
    View.IsPiece c.write width output →
    ∃ piece, c.convertRow a output width y = .ok piece ∧ c.convertRow b output width y = .ok piece ∧
      View.IsPiece c.write width piece

theorem eq_of_agree {s : Shape} {u v : Quad Bytes} (hu : View.IsPiece s width u)
    (hv : View.IsPiece s width v) (h : s.Agree width u v) : u = v := by
  refine Quad.ext_get fun p => Bytes.ext_getD ((hu p).trans (hv p).symm) fun i hi => ?_
  rw [hu p] at hi
  split at hi
  · rename_i hp
    exact h p hp i hi
  · exact absurd hi (Nat.not_lt_zero i)

theorem room_of_isPiece {s : Shape} {piece : Quad Bytes} (h : View.IsPiece s width piece) :
    Room s piece (s.bytesPerPlane width) :=
  fun p hp => Nat.le_of_eq (by rw [h p, if_pos hp])

theorem SameSize.isPiece {s : Shape} {u output : Quad Bytes} (h : SameSize u output)
    (houtput : View.IsPiece s width output) : View.IsPiece s width u :=
  fun p => (h p).trans (houtput p)

/-- Pixel by pixel, whole elements leave no byte of a row undetermined. -/
theorem Pixelwise.isLocal {f : Nat → Nat → Pixel → Pixel} (h : c.Pixelwise f)
    (hf : c.write.layout.frac = 0) : c.Local width := by
  refine ⟨frac_lt_wordBits h.write, fun a b output y ha hb hagree houtput => ?_⟩
  have hroom := room_of_isPiece houtput
  obtain ⟨u, hu, husize, hudone⟩ := convertRow_spec h (y := y) ha hroom
  obtain ⟨v, hv, hvsize, hvdone⟩ := convertRow_spec h (y := y) hb hroom
  have hsame : u = v := by
    refine eq_of_agree (husize.isPiece houtput) (hvsize.isPiece houtput) ?_
    refine Shape.agree_of_elements h.write hf fun x hx k hk => ?_
    rw [hudone x (Nat.zero_le x) hx k hk, hvdone x (Nat.zero_le x) hx k hk,
      Shape.pixel_congr h.read hagree hx]
  subst hsame
  exact ⟨u, hu, hv, husize.isPiece houtput⟩

/-- Copies take the bytes of a row as they are. -/
theorem copy_isLocal {s : Shape} (hs : s.layout.frac < wordBits) : (ofCopy s).Local width := by
  refine ⟨hs, fun a b output y ha hb hagree houtput => ?_⟩
  have hroom : Room s output (s.bytesPerPlane width) := room_of_isPiece houtput
  obtain ⟨u, hu, husize, hua⟩ := copy_agree hs (y := y) ha hroom
  obtain ⟨v, hv, hvsize, hvb⟩ := copy_agree hs (y := y) hb hroom
  have hsame : u = v := by
    refine eq_of_agree (husize.isPiece houtput) (hvsize.isPiece houtput) fun p hp i hi => ?_
    exact (hua p hp i hi).trans ((hagree p hp i hi).trans (hvb p hp i hi).symm)
  subst hsame
  exact ⟨u, hu, hv, husize.isPiece houtput⟩

/-- The same row in two pairs of views: both get the same piece. -/
theorem Local.rowStep (h : c.Local width) {src src' dst dst' : View} {r r' : Nat}
    (hsrc : src.HoldsRow c.read width r) (hsrc' : src'.HoldsRow c.read width r')
    (hagree : c.read.Agree width (src.row r) (src'.row r')) (hdst : dst.HoldsRow c.write width r)
    (houtput : c.rowOutput dst width r = c.rowOutput dst' width r')
    (hy : dst.firstRow + r = dst'.firstRow + r') :
    ∃ piece, c.rowStep src width dst r = .ok (dst.put r piece) ∧
      c.rowStep src' width dst' r' = .ok (dst'.put r' piece) ∧
      View.IsPiece c.write width piece := by
  obtain ⟨piece, ha, hb, hpiece⟩ := h.2 _ _ _ (dst.firstRow + r) (room_row hsrc) (room_row hsrc')
    hagree fun p => size_rowOutput (room_row hdst) p
  refine ⟨piece, ?_, ?_, hpiece⟩
  · show (c.convertRow (src.row r) _ width _).map (dst.put r) = _
    rw [ha]
    rfl
  · show (c.convertRow (src'.row r') _ width _).map (dst'.put r') = _
    rw [← houtput, ← hy, hb]
    rfl

/-! ## 3. Two bands -/

section Split

variable {src dst upper lower : View} {r m : Nat}

theorem rowOutput_append_upper (h : upper.HoldsRow c.write width r) (lower : View) :
    c.rowOutput (upper.append lower) width r = c.rowOutput upper width r := by
  refine Quad.ext_get fun p => ?_
  simp only [rowOutput, Quad.get_ofFn]
  split
  · rename_i hp
    have hroom := h p hp
    rw [View.cut_append_upper h lower hp, h.cut_eq hp]
    simp only [View.append, Quad.get_zipWith]
    rw [Array.extract_append, Nat.sub_eq_zero_of_le (by omega), Nat.sub_eq_zero_of_le (by omega)]
    simp
  · rfl

theorem rowOutput_append_lower (h : View.Meets c.write upper lower m)
    (hr : lower.HoldsRow c.write width r) :
    c.rowOutput (upper.append lower) width (m + r) = c.rowOutput lower width r := by
  refine Quad.ext_get fun p => ?_
  simp only [rowOutput, Quad.get_ofFn]
  split
  · rename_i hp
    rw [h.cut_append hr hp]
    simp only [View.append, Quad.get_zipWith]
    rw [Array.extract_append, Nat.add_sub_cancel_left, Nat.add_assoc, Nat.add_sub_cancel_left]
    simp
  · rfl

/-- The pixels of a row do not change when the view is cut below it. -/
theorem agree_row_top {s : Shape} (h : src.HoldsRows s width) (row : Nat)
    (hr : r < (src.splitRows row).1.rows) :
    s.Agree width (src.row r) ((src.splitRows row).1.row r) := by
  intro p hp i hi
  have hheld := (h.top row).holdsRow hr p hp
  rw [h.size_top row hp, ← h.cut_split row hp] at hheld
  have hheld : r * src.stride p + s.bytesPerPlane width ≤ src.cut (min row src.rows) p := hheld
  have hle : src.cut (min row src.rows) p ≤ (src.planes p).size := Nat.min_le_right _ _
  simp only [View.row, View.splitRows, Quad.get_ofFn, Bytes.getD_after]
  rw [Bytes.getD_extract _ (by omega) hle, Nat.zero_add]

/-- The rows below a cut are renumbered. -/
theorem agree_row_bottom {s : Shape} (h : src.HoldsRows s width) (row r : Nat) :
    s.Agree width (src.row (min row src.rows + r)) ((src.splitRows row).2.row r) := by
  intro p hp i _
  simp only [View.row, View.splitRows, Quad.get_ofFn, Bytes.getD_after]
  rw [h.cut_split row hp, Nat.add_mul, Nat.add_assoc]

end Split

/-- Steps that commute with an embedding of the states, as long as an invariant holds, commute with
it altogether. -/
theorem foldlM_embed {ε α σ τ : Type} (step : σ → α → Except ε σ) (step' : τ → α → Except ε τ)
    (emb : τ → σ) (I : τ → Prop) : ∀ (l : List α) {t : τ},
    (∀ t a, a ∈ l → I t → step (emb t) a = (step' t a).map emb ∧ ∃ t', step' t a = .ok t' ∧ I t') →
    I t → ∃ t', l.foldlM step' t = .ok t' ∧ I t' ∧ l.foldlM step (emb t) = .ok (emb t')
  | [], t, _, ht => ⟨t, rfl, ht, rfl⟩
  | a :: l, t, h, ht => by
    obtain ⟨hstep, t', ht', hI⟩ := h t a List.mem_cons_self ht
    obtain ⟨out, hfold, hend, hemb⟩ := foldlM_embed step step' emb I l
      (fun t b hb => h t b (List.mem_cons_of_mem _ hb)) hI
    refine ⟨out, ?_, hend, ?_⟩
    · rw [List.foldlM_cons, ht']
      exact hfold
    · rw [List.foldlM_cons, hstep, ht']
      exact hemb

section Run

variable {src dst upper lower : View} {row r : Nat}

/-- A row above the cut is done in the upper part. -/
theorem Local.rowStep_upper (h : c.Local width) (hsrc : src.HoldsRows c.read width)
    (hdst : dst.HoldsRows c.write width) (hr : r < min row (min src.rows dst.rows))
    (hupper : SameFrame upper (dst.splitRows row).1) (lower : View) :
    c.rowStep src width (upper.append lower) r =
        (c.rowStep (src.splitRows row).1 width upper r).map (·.append lower) ∧
      ∃ out, c.rowStep (src.splitRows row).1 width upper r = .ok out ∧
        SameFrame out (dst.splitRows row).1 := by
  have htop : r < (src.splitRows row).1.rows := by
    show r < min row src.rows
    omega
  have hheld : upper.HoldsRow c.write width r := by
    refine hupper.holdsRow ((hdst.top row).holdsRow ?_)
    show r < min row dst.rows
    omega
  obtain ⟨piece, hupper', hwhole, hpiece⟩ := h.rowStep ((hsrc.top row).holdsRow htop)
    (hsrc.holdsRow (by omega)) (fun p hp i hi => (agree_row_top hsrc row htop p hp i hi).symm) hheld
    (rowOutput_append_upper hheld lower).symm rfl
  refine ⟨?_, _, hupper', (sameFrame_of_rowStep hupper').trans hupper⟩
  rw [hwhole, hupper', View.put_append_upper hheld hpiece]
  rfl

/-- A row below the cut is done in the lower part. -/
theorem Local.rowStep_lower (h : c.Local width) (hsrc : src.HoldsRows c.read width)
    (hdst : dst.HoldsRows c.write width)
    (hr : r < min src.rows dst.rows - min row (min src.rows dst.rows))
    (hupper : SameFrame upper (dst.splitRows row).1)
    (hlower : SameFrame lower (dst.splitRows row).2) :
    c.rowStep src width (upper.append lower) (min row (min src.rows dst.rows) + r) =
        (c.rowStep (src.splitRows row).2 width lower r).map upper.append ∧
      ∃ out, c.rowStep (src.splitRows row).2 width lower r = .ok out ∧
        SameFrame out (dst.splitRows row).2 := by
  -- both views go on below the cut
  have hmin : min row (min src.rows dst.rows) = min row dst.rows := by omega
  have hmin' : min row (min src.rows dst.rows) = min row src.rows := by omega
  have hbottom : r < (src.splitRows row).2.rows := by
    show r < src.rows - min row src.rows
    omega
  have hheld : lower.HoldsRow c.write width r := by
    refine hlower.holdsRow ((hdst.bottom row).holdsRow ?_)
    show r < dst.rows - min row dst.rows
    omega
  have hmeets : View.Meets c.write upper lower (min row (min src.rows dst.rows)) := by
    have hwhole := hdst.meets row
    refine ⟨fun p hp => ?_, ?_, ?_⟩
    · rw [hupper.size p, hupper.stride, hmin]
      exact hwhole.size p hp
    · rw [hlower.stride, hupper.stride]
      exact hwhole.stride
    · rw [hlower.firstRow, hupper.firstRow, hmin]
      exact hwhole.firstRow
  have hagree : c.read.Agree width ((src.splitRows row).2.row r)
      (src.row (min row (min src.rows dst.rows) + r)) := by
    rw [hmin']
    exact fun p hp i hi => (agree_row_bottom hsrc row r p hp i hi).symm
  obtain ⟨piece, hlower', hwhole, hpiece⟩ := h.rowStep ((hsrc.bottom row).holdsRow hbottom)
    (hsrc.holdsRow (by omega)) hagree hheld (rowOutput_append_lower hmeets hheld).symm
    (by rw [hmeets.firstRow, Nat.add_assoc]; rfl)
  refine ⟨?_, _, hlower', (sameFrame_of_rowStep hlower').trans hlower⟩
  rw [hwhole, hlower', hmeets.put_append hheld hpiece]
  rfl

/-- **Two bands are converted like the whole.** -/
theorem Local.run_split (h : c.Local width) (hsrc : src.HoldsRows c.read width)
    (hdst : dst.HoldsRows c.write width) (row : Nat) :
    ∃ upper lower, c.run (src.splitRows row).1 (dst.splitRows row).1 width = .ok upper ∧
      c.run (src.splitRows row).2 (dst.splitRows row).2 width = .ok lower ∧
      c.run src dst width = .ok (upper.append lower) := by
  have hupperRows : min (src.splitRows row).1.rows (dst.splitRows row).1.rows =
      min row (min src.rows dst.rows) := by
    show min (min row src.rows) (min row dst.rows) = _
    omega
  have hlowerRows : min (src.splitRows row).2.rows (dst.splitRows row).2.rows =
      min src.rows dst.rows - min row (min src.rows dst.rows) := by
    show min (src.rows - min row src.rows) (dst.rows - min row dst.rows) = _
    omega
  obtain ⟨upper, hupper, hframe, hfirst⟩ := foldlM_embed (c.rowStep src width)
    (c.rowStep (src.splitRows row).1 width) (·.append (dst.splitRows row).2)
    (fun t => SameFrame t (dst.splitRows row).1) (List.range (min row (min src.rows dst.rows)))
    (fun t r hr ht => h.rowStep_upper hsrc hdst (List.mem_range.mp hr) ht _) (SameFrame.refl _)
  obtain ⟨lower, hlower, -, hrest⟩ := foldlM_embed
    (fun t r => c.rowStep src width t (min row (min src.rows dst.rows) + r))
    (c.rowStep (src.splitRows row).2 width) upper.append
    (fun t => SameFrame t (dst.splitRows row).2)
    (List.range (min src.rows dst.rows - min row (min src.rows dst.rows)))
    (fun t r hr ht => h.rowStep_lower hsrc hdst (List.mem_range.mp hr) hframe ht)
    (SameFrame.refl _)
  refine ⟨upper, lower, ?_, ?_, ?_⟩
  · rw [run, measured_eq h.1, hupperRows]
    exact hupper
  · rw [run, measured_eq h.1, hlowerRows]
    exact hlower
  · have hrows : min src.rows dst.rows = min row (min src.rows dst.rows) +
        (min src.rows dst.rows - min row (min src.rows dst.rows)) := by omega
    simp only [View.append_splitRows] at hfirst
    rw [run, measured_eq h.1, hrows, List.range_add, List.foldlM_append, hfirst]
    show ((List.range _).map _).foldlM (c.rowStep src width) (upper.append _) = _
    rw [List.foldlM_map]
    exact hrest

end Run

end Conversion

/-! ## 4. Any number of bands, in any order -/

/-- The bands of a view: one for each height, and the rows that are left. -/
def View.bands : List Nat → View → List View
  | [], v => [v]
  | row :: heights, v => (v.splitRows row).1 :: bands heights (v.splitRows row).2

theorem View.length_bands : ∀ (heights : List Nat) (v : View),
    (v.bands heights).length = heights.length + 1
  | [], _ => rfl
  | _ :: heights, _ => congrArg (· + 1) (length_bands heights _)

/-- Plane `p` of views one below the other. -/
def View.joined (views : List View) (p : Fin 4) : Bytes :=
  views.foldr (fun v bytes => v.planes p ++ bytes) #[]

namespace Conversion

variable {c : Conversion} {width : Nat}

/-- Converts band `i` of the destinations where they are. -/
def bandStep (c : Conversion) (width : Nat) (srcs dsts : List View) (i : Nat) :
    Checked (List View) :=
  match srcs[i]?, dsts[i]? with
  | some src, some dst => (c.run src dst width).map (dsts.set i)
  | _, _ => .ok dsts

/-- Each band is converted on its own. -/
inductive BandsDone (c : Conversion) (width : Nat) : List View → List View → List View → Prop
  | nil : BandsDone c width [] [] []
  | cons {src dst out : View} {srcs dsts outs : List View} (hrun : c.run src dst width = .ok out)
      (hrest : BandsDone c width srcs dsts outs) :
      BandsDone c width (src :: srcs) (dst :: dsts) (out :: outs)

theorem BandsDone.length_eq {srcs dsts outs : List View} (h : c.BandsDone width srcs dsts outs) :
    outs.length = dsts.length := by
  induction h with
  | nil => rfl
  | cons _ _ ih => exact congrArg (· + 1) ih

theorem BandsDone.get {srcs dsts outs : List View} (h : c.BandsDone width srcs dsts outs) {i : Nat}
    (hi : i < dsts.length) : ∃ src dst out, srcs[i]? = some src ∧ dsts[i]? = some dst ∧
      outs[i]? = some out ∧ c.run src dst width = .ok out := by
  induction h generalizing i with
  | nil => exact absurd hi (Nat.not_lt_zero i)
  | cons hrun _ ih =>
    cases i with
    | zero => exact ⟨_, _, _, rfl, rfl, rfl, hrun⟩
    | succ i => exact ih (Nat.lt_of_succ_lt_succ hi)

/-- Bands that are still to be done are as they were, the others are done. -/
theorem BandsDone.bandSteps {srcs dsts outs : List View} (h : c.BandsDone width srcs dsts outs) :
    ∀ {order : List Nat} {state : List View}, order.Nodup →
      (∀ i ∈ order, i < dsts.length ∧ state[i]? = dsts[i]?) →
      (∀ i, i ∉ order → state[i]? = outs[i]?) →
      order.foldlM (c.bandStep width srcs) state = .ok outs
  | [], state, _, _, hdone => by
    rw [List.ext_getElem? fun i => hdone i List.not_mem_nil]
    rfl
  | i :: order, state, hnodup, hopen, hdone => by
    obtain ⟨hi, hrest⟩ := List.nodup_cons.mp hnodup
    obtain ⟨⟨hlt, hstate⟩, hopen⟩ := List.forall_mem_cons.mp hopen
    obtain ⟨src, dst, out, hsrc, hdst, hout, hrun⟩ := h.get hlt
    have hstep : c.bandStep width srcs state i = .ok (state.set i out) := by
      simp only [bandStep, hsrc, hstate, hdst, hrun]
      rfl
    rw [List.foldlM_cons, hstep]
    refine h.bandSteps hrest (fun j hj => ?_) fun j hj => ?_
    · have hne : i ≠ j := fun heq => hi (heq ▸ hj)
      rw [List.getElem?_set_ne hne]
      exact hopen j hj
    · by_cases heq : i = j
      · subst heq
        have hlen : i < state.length := by
          rw [hdst] at hstate
          exact (List.getElem?_eq_some_iff.mp hstate).1
        rw [List.getElem?_set_self hlen, hout]
      · rw [List.getElem?_set_ne heq]
        exact hdone j fun hmem => (List.mem_cons.mp hmem).elim (fun hji => heq hji.symm) hj

/-- **The order does not matter.** -/
theorem BandsDone.of_perm {srcs dsts outs : List View} (h : c.BandsDone width srcs dsts outs)
    {order : List Nat} (horder : order.Perm (List.range dsts.length)) :
    order.foldlM (c.bandStep width srcs) dsts = .ok outs := by
  refine h.bandSteps (horder.nodup_iff.mpr List.nodup_range) (fun i hi => ?_) fun i hi => ?_
  · exact ⟨List.mem_range.mp (horder.mem_iff.mp hi), rfl⟩
  · have hge : dsts.length ≤ i := Nat.not_lt.mp fun hlt =>
      hi (horder.mem_iff.mpr (List.mem_range.mpr hlt))
    rw [List.getElem?_eq_none hge, List.getElem?_eq_none (by rw [h.length_eq]; exact hge)]

/-- **Bands are converted like the whole.** -/
theorem Local.bands (h : c.Local width) : ∀ (heights : List Nat) {src dst : View},
    src.HoldsRows c.read width → dst.HoldsRows c.write width →
    ∃ out outs, c.run src dst width = .ok out ∧ c.runBands width heights src dst = .ok out ∧
      c.BandsDone width (src.bands heights) (dst.bands heights) outs ∧
      ∀ p, View.joined outs p = out.planes p
  | [], src, dst, hsrc, hdst => by
    obtain ⟨upper, lower, -, -, hrun⟩ := h.run_split hsrc hdst 0
    exact ⟨_, [upper.append lower], hrun, hrun, .cons hrun .nil, fun p => Array.append_empty⟩
  | row :: heights, src, dst, hsrc, hdst => by
    obtain ⟨upper, lower, hupper, hlower, hrun⟩ := h.run_split hsrc hdst row
    obtain ⟨out, outs, hout, hbands, hdone, hjoined⟩ :=
      h.bands heights (hsrc.bottom row) (hdst.bottom row)
    rw [hlower] at hout
    cases hout
    refine ⟨_, upper :: outs, hrun, ?_, .cons hupper hdone, fun p => ?_⟩
    · simp only [runBands, hupper, hbands]
      rfl
    · show upper.planes p ++ View.joined outs p = _
      rw [hjoined p]
      exact (Quad.get_zipWith _ _ _ p).symm

end Conversion

/-! ## 5. What is compiled -/

/-- The conversion was made from the program by the portable backend or by a compiler that has it,
or it copies the shape `r` that the program reads. -/
def Conversion.MadeFrom (c : Conversion) (p : Program) (r : Shape) : Prop :=
  (∃ cpu matched, Backend.portable.build p cpu = .ok (matched, .ok c)) ∨
    (∃ cpu simplify report, (Compiler.portable cpu simplify).compile p = .ok report ∧
      report.result = .ok c) ∨
    c = ofCopy r

namespace Backend

variable {p : Program} {r w : Shape} {c : Conversion}

theorem isLocal_of_build {inner : List Op} {cpu : CpuSet} {matched : List Match} {width : Nat}
    (hcheck : p.check = .ok (.ok ())) (hp : p.Framed r w inner) (hread : r.layout.frac ≤ 3)
    (hwrite : w.layout.frac = 0) (hbuild : portable.build p cpu = .ok (matched, .ok c)) :
    c.Local width := by
  have hshapes : c.read = r ∧ c.write = w := by
    rcases portable_build_eq_ok hp hbuild with ⟨s, comps, -, rfl⟩ | ⟨chain, -, -, rfl⟩
    · exact ⟨rfl, rfl⟩
    · exact ⟨rfl, rfl⟩
  rw [← hshapes.1] at hread
  rw [← hshapes.2] at hwrite
  obtain ⟨f, hpix⟩ := portable_pixelwise hcheck hbuild hread (by omega)
  exact hpix.isLocal hwrite

/-- **Bands are invisible.** Let a conversion be made from a checked program that stores whole bytes
and reads at most eight elements per byte, and let views hold their rows of `width` pixels. Then the
conversion does the whole without a fault. It gives the same destination if both views are cut into
bands of any heights: one band after the other, or each band where it is, in any order. -/
theorem run_in_bands (hcheck : p.check = .ok (.ok ())) (hends : p.ends = .ok (r, w))
    (hread : r.layout.frac ≤ 3) (hwrite : w.layout.frac = 0) (hc : c.MadeFrom p r)
    (src dst : View) (width : Nat) (hsrc : src.HoldsRows c.read width)
    (hdst : dst.HoldsRows c.write width) (heights order : List Nat)
    (horder : order.Perm (List.range (heights.length + 1))) :
    ∃ out outs, c.run src dst width = .ok out ∧ c.runBands width heights src dst = .ok out ∧
      order.foldlM (c.bandStep width (src.bands heights)) (dst.bands heights) = .ok outs ∧
      ∀ p, View.joined outs p = out.planes p := by
  obtain ⟨r', w', inner, hp, -⟩ := Program.check_eq_ok hcheck
  cases hp.ends.symm.trans hends
  have hlocal : c.Local width := by
    rcases hc with ⟨cpu, matched, hbuild⟩ | ⟨cpu, simplify, report, hcompile, hresult⟩ | rfl
    · exact isLocal_of_build hcheck hp hread hwrite hbuild
    · rcases Compiler.of_compile hp hcompile hresult with
        rfl | ⟨q, r', w', inner', matched, hcheck', hq, hr, hw, hbuild⟩
      · exact Conversion.copy_isLocal (Nat.lt_of_le_of_lt hread (by decide))
      · exact isLocal_of_build hcheck' hq (by rw [hr.frac]; exact hread)
          (by rw [hw.frac]; exact hwrite) hbuild
    · exact Conversion.copy_isLocal (Nat.lt_of_le_of_lt hread (by decide))
  obtain ⟨out, outs, hrun, hbands, hdone, hjoined⟩ := hlocal.bands heights hsrc hdst
  rw [← View.length_bands heights dst] at horder
  exact ⟨out, outs, hrun, hbands, hdone.of_perm horder, hjoined⟩

/-- Darkens four interleaved bytes per pixel to a third and adds fractions by position. -/
def darkening : Program :=
  .ofOps [.ofKind .u8 (.read ⟨4, true, 0⟩), .ofKind .u8 (.convert .f32 false),
    .ofKind .f32 (.scale ⟨1, 3⟩), .ofKind .f32 (.dither (.ordered 2)),
    .ofKind .f32 (.convert .u8 false), .ofKind .u8 (.write ⟨4, true, 0⟩)]

/-- Rows of 35 pixels of four bytes, with a gap after each. -/
def gapped (rows : Nat) (plane : Bytes) : View := ⟨⟨plane, #[], #[], #[]⟩, ⟨150, 0, 0, 0⟩, 7, rows⟩

theorem gapped_holdsRows {rows : Nat} {plane : Bytes} (h : plane.size = rows * 150) :
    (gapped rows plane).HoldsRows ⟨.u8, ⟨4, true, 0⟩⟩ 35 := by
  intro p hp
  have hzero : p = 0 := Fin.ext (Nat.lt_one_iff.mp hp)
  subst hzero
  have hbytes : Shape.bytesPerPlane ⟨.u8, ⟨4, true, 0⟩⟩ 35 ≤ 150 := by decide
  exact ⟨hbytes, Nat.le_of_eq h.symm⟩

theorem darkening_run_in_bands : darkening.check = .ok (.ok ()) ∧
    ∃ report c, (Compiler.portable CpuSet.none true).compile darkening = .ok report ∧
      report.result = .ok c ∧ c.read = ⟨.u8, ⟨4, true, 0⟩⟩ ∧ c.write = ⟨.u8, ⟨4, true, 0⟩⟩ ∧
      ∃ out outs, c.run (gapped 5 (rising 750)) (gapped 4 (Bytes.zeros 600)) 35 = .ok out ∧
        c.runBands 35 [0, 3, 9] (gapped 5 (rising 750)) (gapped 4 (Bytes.zeros 600)) = .ok out ∧
        [2, 0, 3, 1].foldlM (c.bandStep 35 ((gapped 5 (rising 750)).bands [0, 3, 9]))
          ((gapped 4 (Bytes.zeros 600)).bands [0, 3, 9]) = .ok outs ∧
        ∀ p, View.joined outs p = out.planes p := by
  have hcheck : darkening.check = .ok (.ok ()) := rfl
  have hends : darkening.ends = .ok (⟨.u8, ⟨4, true, 0⟩⟩, ⟨.u8, ⟨4, true, 0⟩⟩) := rfl
  obtain ⟨report, c, hcompile, hresult, hshapes⟩ := Compiler.exists_report
    (c := Compiler.portable CpuSet.none true) (p := darkening) (g := fun c => (c.read, c.write))
    (a := (⟨.u8, ⟨4, true, 0⟩⟩, ⟨.u8, ⟨4, true, 0⟩⟩)) (by decide +kernel)
  have hread : c.read = ⟨.u8, ⟨4, true, 0⟩⟩ := congrArg Prod.fst hshapes
  have hwrite : c.write = ⟨.u8, ⟨4, true, 0⟩⟩ := congrArg Prod.snd hshapes
  have hsrc : (gapped 5 (rising 750)).HoldsRows c.read 35 := by
    rw [hread]
    exact gapped_holdsRows Array.size_ofFn
  have hdst : (gapped 4 (Bytes.zeros 600)).HoldsRows c.write 35 := by
    rw [hwrite]
    exact gapped_holdsRows (Bytes.size_zeros 600)
  have hc : c.MadeFrom darkening ⟨.u8, ⟨4, true, 0⟩⟩ :=
    .inr (.inl ⟨CpuSet.none, true, report, hcompile, hresult⟩)
  exact ⟨hcheck, report, c, hcompile, hresult, hread, hwrite, run_in_bands hcheck hends (by decide)
    rfl hc _ _ 35 hsrc hdst [0, 3, 9] [2, 0, 3, 1] (by decide)⟩

end Backend

end PixelConv
