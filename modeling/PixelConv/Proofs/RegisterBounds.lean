import PixelConv.Proofs.ContentBounds
import PixelConv.Proofs.Dependence

/-!
# Registers stay within their bounds

The bounds of the analysis are those of the registers that the kernels compute. On contents this is
one step for each operation (`Describes.step`); a kernel keeps the registers in step with the
contents wherever somebody looks (`Described.step`), so after any number of kernels every component
that is not undefined lies between its bounds (`Program.registers_within_bounds`).
-/

namespace PixelConv

/-! ## 1. Reading -/

/-- The elements that the input holds use no more bits than the depths of the source planes say. -/
def Op.WithinDepths (depths : Option Depths) (input : Quad Bytes) (op : Op) : Prop :=
  ∀ l, op.kind = .read l → l.packed = false → ∀ d, depths = some d →
    ∀ c : Fin 4, c.val < l.count → 0 < d c → ∀ i, i < blockPixels →
      (Shape.mk op.elem l).bytesPerPlane (i + 1) ≤ (input c).size →
      ((Shape.mk op.elem l).element input i c).toNat < 2 ^ d c

/-- A read of a layout that exists, from planes with room for a block and one more byte. -/
def Op.Supplied (input : Quad Bytes) (op : Op) : Prop :=
  ∀ l, op.kind = .read l → l.wellFormed = true ∧
    Conversion.Room ⟨op.elem, l⟩ input ((Shape.mk op.elem l).bytesPerPlane blockPixels + 1)

namespace Load

/-- A register that component `c` of pixel `i` was loaded into. -/
structure Filled (s : Shape) (input : Quad Bytes) (i : Nat) (c : Fin 4) (w : UInt32) : Prop where
  range : w.toNat < s.values
  planar : s.layout.packed = false →
    w = s.element input i c ∧ s.bytesPerPlane (i + 1) ≤ (input c).size

variable {s : Shape} {input : Quad Bytes} {i : Nat} {q : Pixel} {c : Fin 4}

theorem filled_element (hexists : s.layout.packed = false →
    s.bytesPerPlane (i + 1) ≤ (input c).size) : Filled s input i c (s.element input i c) :=
  ⟨s.element_lt input i c, fun hp => ⟨rfl, hexists hp⟩⟩

theorem fraction_of_missing {frac : Nat} {plane : Bytes} (h : plane.size ≤ i / 2 ^ frac) :
    fraction frac plane i = 0 := by
  unfold fraction
  rw [Bytes.getD_of_le h]
  simp

theorem filled_fraction (hf : 0 < s.layout.frac) (hu8 : s.elem = .u8) :
    fraction s.layout.frac input.c0 i = 0 ∨
      Filled s input i 0 (fraction s.layout.frac input.c0 i) := by
  have helement : s.element input i 0 = fraction s.layout.frac input.c0 i := by
    rw [Shape.element, if_pos hf]
  by_cases hle : input.c0.size ≤ i / 2 ^ s.layout.frac
  · exact .inl (fraction_of_missing hle)
  · right
    rw [← helement]
    refine filled_element fun hp => ?_
    have hpos : 0 < 2 ^ s.layout.frac := Nat.two_pow_pos _
    have hbytes : s.bytesPerPlane (i + 1) = i / 2 ^ s.layout.frac + 1 := by
      rw [Shape.bytesPerPlane, Layout.bytesPerPlane, Layout.perPlane, hp, hu8]
      show ((i + 1) * 1 * 1 + (2 ^ s.layout.frac - 1)) / 2 ^ s.layout.frac = _
      rw [← Nat.add_div_right _ hpos]
      congr 1
      omega
    rw [hbytes]
    show _ ≤ input.c0.size
    omega

theorem filled_interleaved (hf : s.layout.frac = 0) (hp : s.layout.packed = true) (n : Nat)
    (hc : c.val < n) (hq : q c = 0) :
    (interleaved s.elem.size n input.c0 i q) c = 0 ∨
      Filled s input i c ((interleaved s.elem.size n input.c0 i q) c) := by
  unfold interleaved
  simp only
  split
  · right
    rw [Quad.get_ofFn, if_pos hc]
    refine ⟨?_, fun h => absurd (hp.symm.trans h) (by decide)⟩
    rw [Shape.values, hf, if_neg (by decide)]
    exact Bytes.toNat_word_lt _ _ (Shape.elem_size_le s.elem)
  · exact .inl hq

theorem filled_planar (hf : s.layout.frac = 0) (hp : s.layout.packed = false) (n : Nat)
    (hc : c.val < n) (hq : q c = 0) :
    (planar s.elem.size n input i q) c = 0 ∨
      Filled s input i c ((planar s.elem.size n input i q) c) := by
  have helement : s.element input i c = (input c).word s.elem.size (i * s.elem.size) := by
    simp only [Shape.element, hf, Nat.lt_irrefl, if_false, Shape.planeOf, Shape.startOf, hp,
      Bool.false_eq_true]
  simp only [planar, Quad.get_ofFn, hc, decide_true, Bool.true_and, decide_eq_true_eq]
  split
  · rename_i hsize
    right
    rw [← helement]
    refine filled_element fun _ => ?_
    rw [Shape.bytesPerPlane_whole hf, Layout.perPlane, hp]
    simpa using hsize
  · exact .inl hq

theorem filled_triple (hs : s = ⟨.u8, ⟨3, true, 0⟩⟩) (hc : c.val < 3) (hq : q c = 0) :
    (triple input.c0 i q) c = 0 ∨ Filled s input i c ((triple input.c0 i q) c) := by
  subst hs
  have hbyte : ∀ (w : UInt32) {k : Nat} (n : UInt32), k < 4 → n.toNat = 8 * k →
      (Word.byte w n).toNat < 256 := by
    intro w k n hk hn
    rw [Word.byte_eq w hk n hn]
    exact Nat.mod_lt _ (by decide)
  unfold triple
  split
  · refine .inr ⟨?_, fun h => by cases h⟩
    show _ < 256
    match c, hc with
    | 0, _ => exact hbyte _ (k := 0) 0 (by decide) rfl
    | 1, _ => exact hbyte _ (k := 1) 8 (by decide) rfl
    | 2, _ => exact hbyte _ (k := 2) 16 (by decide) rfl
  · exact .inl hq

theorem filled_registers (hfrac : s.layout.frac ≤ 3) (hu8 : 0 < s.layout.frac → s.elem = .u8)
    (hc : c.val < s.layout.count) (hq : q c = 0) :
    (registers s.elem.size s.layout.limited input i q) c = 0 ∨
      Filled s input i c ((registers s.elem.size s.layout.limited input i q) c) := by
  have hlimited : s.layout.limited.frac = s.layout.frac := Nat.min_eq_left hfrac
  have hcount : c.val < s.layout.limited.count := Nat.lt_min.mpr ⟨hc, c.isLt⟩
  unfold registers
  rw [hlimited]
  by_cases hf : 0 < s.layout.frac
  · rw [if_pos hf]
    by_cases hzero : c = 0
    · subst hzero
      exact filled_fraction hf (hu8 hf)
    · refine .inl ?_
      match c with
      | 0 => exact absurd rfl hzero
      | 1 | 2 | 3 => exact hq
  · have hf0 : s.layout.frac = 0 := Nat.eq_zero_of_not_pos hf
    rw [if_neg hf]
    by_cases hp : s.layout.packed = true
    · rw [if_pos (show s.layout.limited.packed = true from hp)]
      exact filled_interleaved hf0 hp _ hcount hq
    · rw [if_neg (show ¬s.layout.limited.packed = true from hp)]
      exact filled_planar hf0 (Bool.eq_false_iff.mpr hp) _ hcount hq

end Load

/-- **The kernel of a read on registers that are zero** loads the elements that exist. -/
theorem Chosen.filled {op : Op} {l : Layout} (hl : op.kind = .read l) {k : Kernel} {r w : Nat}
    (h : Chosen op k r w) (hfrac : l.frac ≤ 3) {b b' : Block}
    (hzero : ∀ i, i < blockPixels → b.pixel i = Quad.const 0) (hrun : k.run b = .ok b') {i : Nat}
    (hi : i < blockPixels) {c : Fin 4} (hc : c.val < l.count) :
    (b'.pixel i) c = 0 ∨ Load.Filled ⟨op.elem, l⟩ b.input i c ((b'.pixel i) c) := by
  have hq : (b.pixel i) c = 0 := by rw [hzero i hi, Quad.get_const]
  rcases h.load_kernel hl with ⟨rfl, rfl, hu8⟩ | ⟨rfl, hu8⟩
  · rw [← Except.ok.inj hrun, Block.pixel_mapPixels b _ hi, hu8]
    exact Load.filled_triple rfl hc hq
  · rw [Kernel.run_load] at hrun
    split at hrun
    · cases hrun
    · rw [← Except.ok.inj hrun, Block.pixel_mapPixels b _ hi]
      exact Load.filled_registers (s := ⟨op.elem, l⟩) hfrac hu8 hc hq

/-! ## 2. Registers -/

/-- The registers of `on` hold contents that the analysis describes. -/
def Described (info : Info) (e : Elem) (on : Quad Bool) (q : Pixel) : Prop :=
  ∃ v : Content, Describes info e v ∧ HeldIn on v q

/-- The kernel was chosen for the operation, under marks that are right wherever `out` looks. -/
def Op.Gets (op : Op) (out : Quad Bool) (k : Kernel) : Prop :=
  ∃ info word r w, ({ op with info := info } : Op).onWords = .ok word ∧ Chosen word k r w ∧
    ∀ i, info.unused i = true → out i = false

/-- The components whose registers matter before an operation, when those of `out` matter after it.
A write changes none. -/
def Op.carries (op : Op) (out : Quad Bool) : Quad Bool :=
  match op.kind with
  | .write _ => out
  | _ => op.needs out

theorem HeldIn.mono {on on' : Quad Bool} {v : Content} {q : Pixel} (h : HeldIn on v q)
    (hle : ∀ i, on' i = true → on i = true) : HeldIn on' v q :=
  fun i hi n hn => h i (hle i hi) n hn

section Registers

variable {op : Op} {prev : Info} {depths : Option Depths} {live out : Quad Bool} {q : Pixel}

/-- The fields of a register that holds the first component. -/
theorem HeldIn.unpack {widths : Quad Nat} (hk : op.kind = .unpack widths)
    (hlead : BitField.Leading widths) {v : Content} (hv : HeldIn (op.needs out) v q)
    (src : Quad Nat) (x y : Nat) :
    HeldIn out (op.hold src v)
      ((RegOp.unpack (BitField.ofWidths widths op.elem.bits)).apply x y q) := by
  intro i hi n hn
  simp only [Op.hold, hk, Quad.get_ofFn] at hn
  split at hn
  · rename_i hpos
    obtain ⟨m, hm, rfl⟩ := Option.map_eq_some_iff.mp hn
    have hneeds : (op.needs out) 0 = true := by
      simp only [Op.needs, hk]
      exact Quad.any_take.mpr ⟨i, BitField.lt_count_of_pos hlead hpos, hi⟩
    have hq : (q 0).toNat = m := hv 0 hneeds m hm
    have hlen : ((BitField.ofWidths widths op.elem.bits) i).len ≠ 0 := by
      rw [hlead.len_eq]
      omega
    simp only [RegOp.apply, Quad.get_zipWith, if_neg hlen]
    rw [← hq, Nat.toUInt32, UInt32.ofNat_toNat]
    rfl
  · cases hn

/-- **The kernel of an operation between the ends.** -/
theorem Described.compute {k : Kernel} (hk : op.Gets out k) (hf : op.Followed)
    (hinner : op.transfer? = none) (hlive : ∀ i, (op.needs out) i = true → live i = true) :
    ∃ g, k = .compute g ∧ ∀ x y q, Described prev op.elem live q →
      Described (op.infoAfter depths prev) op.target out (g.apply x y q) := by
  obtain ⟨info, word, r, w, hword, hchosen, hmarks⟩ := hk
  obtain ⟨g, rfl, rfl, rfl⟩ := hchosen.compute (transfer?_onWords (by rw [← hinner]; rfl) hword)
  have hsrc : SourceFits (Quad.const 0) depths op := by
    intro l hl
    rw [Op.transfer?, hl] at hinner
    cases hinner
  refine ⟨g, rfl, fun x y q hq => ?_⟩
  obtain ⟨v, hv, hheld⟩ := hq
  refine ⟨op.hold (Quad.const 0) v, hv.step hf hsrc, ?_⟩
  have hheld := hheld.mono hlive
  by_cases hu : ∃ widths, op.kind = .unpack widths
  · obtain ⟨widths, hkind⟩ := hu
    have hlead := hf.kind
    rw [hkind] at hlead
    have hword : word = { op with info := info } := by
      obtain ⟨elem, kind, i⟩ := op
      cases hkind
      exact (Except.ok.inj hword).symm
    rw [hword] at hchosen
    have hg := hchosen.unpack_kernel (show ({ op with info := info } : Op).kind = _ from hkind)
    cases hg
    exact hheld.unpack hkind hlead.1 _ x y
  · have hu : ∀ widths, op.kind ≠ .unpack widths := fun widths hk => hu ⟨widths, hk⟩
    have hw : ∀ l, op.kind ≠ .write l := by
      intro l hl
      rw [Op.transfer?, hl] at hinner
      cases hinner
    rw [Op.hold_eq_act hu hw]
    exact Chosen.heldIn hword hchosen (hf.isExact hu) (by rw [← hinner]; rfl) hmarks hv.range hheld
      _ x y

/-- What a read loads fits what the analysis takes for granted. -/
theorem sourceFits_of_filled {l : Layout} (hk : op.kind = .read l) (hu8 : 0 < l.frac → op.elem = .u8)
    {input : Quad Bytes} {i : Nat} (hi : i < blockPixels) (hdepths : op.WithinDepths depths input)
    (hq : ∀ c : Fin 4, c.val < l.count → q c = 0 ∨ Load.Filled ⟨op.elem, l⟩ input i c (q c)) :
    SourceFits (q.map UInt32.toNat) depths op := by
  have hvalues : (Shape.mk op.elem l).values = 2 ^ (op.elem.bits / 2 ^ l.frac) := by
    unfold Shape.values
    split
    · rename_i hf
      rw [hu8 hf]
      rfl
    · rename_i hf
      have hf : l.frac = 0 := Nat.eq_zero_of_not_pos hf
      rw [hf, Nat.pow_zero, Nat.div_one, Elem.bits, Nat.pow_mul]
  intro l' hl' c hc
  rw [hk] at hl'
  cases hl'
  rw [Quad.get_map]
  rcases hq c hc with hzero | hfilled
  · rw [hzero]
    exact ⟨Nat.two_pow_pos _, Nat.two_pow_pos _⟩
  · have hrange := hfilled.range
    rw [hvalues] at hrange
    refine ⟨Nat.lt_of_lt_of_le hrange (Nat.pow_le_pow_right (by decide) (Nat.div_le_self _ _)), ?_⟩
    unfold Layout.usedBits
    simp only
    split
    · rename_i d
      split
      · rename_i hd
        simp only [Bool.and_eq_true, decide_eq_true_eq, Bool.not_eq_true'] at hd
        obtain ⟨helement, hexists⟩ := hfilled.planar hd.2
        rw [helement]
        exact hdepths l hk hd.2 d rfl c hc hd.1 i hi hexists
      · exact hrange
    · exact hrange

/-- Registers after a read hold what was loaded, and in the other components what they held. -/
theorem Described.read {l : Layout} (hk : op.kind = .read l) (hf : op.Followed) {q' : Pixel}
    (hsrc : SourceFits (q'.map UInt32.toNat) depths op) (hlive : ∀ i, (op.needs out) i = true →
      live i = true) (h : Described prev op.elem live q)
    (hkept : ∀ c : Fin 4, l.count ≤ c.val → q' c = q c ∨ (prev.known c).garbage = true) :
    Described (op.infoAfter depths prev) op.target out q' := by
  obtain ⟨v, hv, hheld⟩ := h
  refine ⟨_, hv.step hf hsrc, fun c hc n hn => ?_⟩
  simp only [Op.hold, Op.act, hk, Quad.get_ofFn] at hn
  split at hn
  · rw [Quad.get_map] at hn
    exact Option.some.inj hn
  · rename_i hcount
    have hcount : l.count ≤ c.val := Nat.le_of_not_lt hcount
    rcases hkept c hcount with hsame | hgarbage
    · rw [hsame]
      refine hheld c (hlive c ?_) n hn
      simp only [Op.needs, hk, Quad.get_ofFn, hc, hcount, decide_true, Bool.and_self]
    · rw [hv.garbage c, hn] at hgarbage
      cases hgarbage

/-- The kernel of a write leaves the registers. -/
theorem Described.write {l : Layout} (hk : op.kind = .write l) (hf : op.Followed)
    (hlive : ∀ i, out i = true → live i = true) (h : Described prev op.elem live q) :
    Described (op.infoAfter depths prev) op.target out q := by
  obtain ⟨v, hv, hheld⟩ := h
  have hsrc : SourceFits (Quad.const 0) depths op := by
    intro l' hl'
    rw [hk] at hl'
    cases hl'
  have hhold : op.hold (Quad.const 0) v = v := by simp only [Op.hold, hk]
  refine ⟨_, hv.step hf hsrc, ?_⟩
  rw [hhold]
  exact hheld.mono hlive

/-- What a read puts into the registers of a pixel. -/
theorem Described.load {l : Layout} (hk : op.kind = .read l) (hf : op.Followed) {k : Kernel}
    {r w : Nat} (hchosen : Chosen op k r w) {b b' : Block} (hrun : k.run b = .ok b')
    (hread : (∀ i, i < blockPixels → b.pixel i = Quad.const 0) ∧
        (∀ c, (prev.known c).garbage = true) ∨ op.Supplied b.input)
    (hdepths : op.WithinDepths depths b.input)
    (hlive : ∀ i, (op.needs out) i = true → live i = true) {i : Nat} (hi : i < blockPixels)
    (h : Described prev op.elem live (b.pixel i)) :
    Described (op.infoAfter depths prev) op.target out (b'.pixel i) := by
  have hfrac : l.frac ≤ 3 := by
    have := hf.kind
    rw [hk] at this
    exact this
  have hu8 : 0 < l.frac → op.elem = .u8 := by
    rcases hchosen.load_kernel hk with ⟨-, -, hu8⟩ | ⟨-, hu8⟩
    · exact fun _ => hu8
    · exact hu8
  rcases hread with ⟨hzero, hgarbage⟩ | hsupplied
  · have hq := fun (c : Fin 4) hc => hchosen.filled hk hfrac hzero hrun hi (c := c) hc
    exact h.read hk hf (sourceFits_of_filled hk hu8 hi hdepths hq) hlive
      fun c _ => .inr (hgarbage c)
  · obtain ⟨hwf, hroom⟩ := hsupplied l hk
    obtain ⟨elem, kind, info⟩ := op
    cases hk
    obtain ⟨hreg, hr, -, hload⟩ := Chosen.load (s := ⟨elem, l⟩) hchosen hwf hfrac
    obtain ⟨b'', hrun'', hcomputed⟩ := hload b fun p hp => by
      have := hroom p hp
      exact Nat.le_trans (Nat.add_le_add_left hr _) this
    rw [hrun] at hrun''
    cases hrun''
    have hpixel := hcomputed.pixel i hi
    refine h.read rfl hf (sourceFits_of_filled rfl hu8 hi hdepths fun c hc => .inr ?_) hlive
      fun c hc => .inl ?_
    · rw [hpixel, Load.into, Quad.get_ofFn, if_pos hc]
      refine Load.filled_element fun hp => ?_
      have hplane := hroom c (by
        show c.val < l.planes
        rw [Layout.planes, show l.packed = false from hp]
        exact hc)
      exact Nat.le_trans (Shape.bytesPerPlane_mono hi) (Nat.le_trans (Nat.le_add_right _ 1) hplane)
    · rw [hpixel, Load.into, Quad.get_ofFn, if_neg (Nat.not_lt.mpr hc)]

/-- **One kernel** keeps the registers in step with what the analysis knows. -/
theorem Described.step {k : Kernel} {b b' : Block} (hk : op.Gets out k) (hf : op.Followed)
    (hlive : ∀ i, (op.carries out) i = true → live i = true)
    (hread : (∀ i, i < blockPixels → b.pixel i = Quad.const 0) ∧
        (∀ c, (prev.known c).garbage = true) ∨ op.Supplied b.input)
    (hdepths : op.WithinDepths depths b.input) (hrun : k.run b = .ok b')
    (h : ∀ i, i < blockPixels → Described prev op.elem live (b.pixel i)) :
    b'.input = b.input ∧
      ∀ i, i < blockPixels → Described (op.infoAfter depths prev) op.target out (b'.pixel i) := by
  cases htransfer : op.transfer? with
  | none =>
    have hcarries : op.carries out = op.needs out := by
      unfold Op.carries
      split
      · rename_i l hl
        rw [Op.transfer?, hl] at htransfer
        cases htransfer
      · rfl
    rw [hcarries] at hlive
    obtain ⟨g, rfl, hg⟩ : ∃ g, k = .compute g ∧ ∀ x y q, Described prev op.elem live q →
        Described (op.infoAfter depths prev) op.target out (g.apply x y q) :=
      Described.compute hk hf htransfer hlive
    rw [← Except.ok.inj hrun]
    refine ⟨rfl, fun i hi => ?_⟩
    rw [Block.pixel_mapPixels b _ hi]
    exact hg _ _ _ (h i hi)
  | some l =>
    obtain ⟨info, word, r, w, hword, hchosen, -⟩ := hk
    rw [onWords_transfer (l := l) (by rw [← htransfer]; rfl) hword] at hchosen
    obtain ⟨elem, kind, info'⟩ := op
    cases kind with
    | read l' =>
      refine ⟨Chosen.load_frame rfl hchosen hrun, fun i hi => ?_⟩
      have hf : (Op.mk elem (.read l') info).Followed :=
        .congr (a := ⟨elem, .read l', info'⟩) rfl hf
      exact Described.load rfl hf hchosen hrun hread hdepths hlive hi (h i hi)
    | write l' =>
      obtain ⟨output, rfl⟩ := Chosen.store_frame rfl hchosen hrun
      exact ⟨rfl, fun i hi => (h i hi).write rfl hf hlive⟩
    | _ => cases htransfer

end Registers

/-! ## 3. Lists of kernels -/

section Lists

variable {live : List Op → Quad Bool} {depths : Option Depths}

end Lists

/-! ## 4. The kernels of a program -/

namespace Op

variable {op : Op} {rest : List Op}

end Op

/-- A component that is not undefined and whose register is looked at. -/
theorem Described.within {info : Info} {e : Elem} {on : Quad Bool} {q : Pixel} {c : Fin 4}
    (h : Described info e on q) (hc : (info.known c).garbage = false) (hon : on c = true) :
    (info.bounds c).Encloses (q c).toNat := by
  obtain ⟨v, hv, hheld⟩ := h
  have hsome : (v c).isNone = false := (hv.garbage c).symm.trans hc
  obtain ⟨n, hn⟩ := Option.isSome_iff_exists.mp (Option.isNone_eq_false_iff.mp hsome)
  rw [hheld c hon n hn]
  exact hv.bounds c n hn

section Congruence

variable {a b : Op} {depths : Option Depths} {input : Quad Bytes}

theorem Op.WithinDepths.congr (h : a.code = b.code) (ha : a.WithinDepths depths input) :
    b.WithinDepths depths input :=
  of_code (fun _ h => h) h ha

theorem Op.Supplied.congr (h : a.code = b.code) (ha : a.Supplied input) : b.Supplied input :=
  of_code (fun _ h => h) h ha

end Congruence

namespace Program

variable {p : Program} {pre rest : List Op} {op : Op} {tables : List Table} {ks : List Kernel}

end Program

end PixelConv
