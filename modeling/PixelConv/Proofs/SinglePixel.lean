import PixelConv.Compiler
import PixelConv.Proofs.Chains
import PixelConv.Proofs.Lanes

/-!
# Tiling is invisible

A conversion can be applied to a single pixel: the pixel is laid out at the start of scratch
buffers, the routine runs once, and the first pixel of its output is the answer
(`Conversion.onPixel`). Main statement: whatever the portable backend builds stores, for every pixel
of a view, exactly what it makes of that pixel alone (`Backend.run_eq_onPixel`). How a row is cut
into blocks, which of them are converted in place and what lies beyond the pixels of a block leave
no trace.
-/

namespace PixelConv

namespace Conversion

/-- What the conversion makes of the pixel `q` in column `x` and row `y`. -/
def onPixel (c : Conversion) (x y : Nat) (q : Pixel) : Checked Pixel :=
  (c.onBlock (c.read.planesOf scratchBytes q) (Quad.const (Bytes.zeros scratchBytes)) x y).map
    fun out => c.write.pixel out 0

/-- A conversion that treats pixels one by one makes the same of a pixel alone. -/
theorem Pixelwise.onPixel_eq {c : Conversion} {f : Nat → Nat → Pixel → Pixel} (h : c.Pixelwise f)
    (x y : Nat) {q : Pixel} (hq : c.read.Holds q) :
    c.onPixel x y q =
      .ok (Quad.ofFn fun k => if k.val < c.write.layout.count then (f x y q) k else 0) := by
  have hread := h.read_scratch
  have hwrite := h.write_scratch
  obtain ⟨out, hrun, -, hpixels⟩ := h.onBlock (c.read.planesOf scratchBytes q)
    (Quad.const (Bytes.zeros scratchBytes)) x y
    (fun p _ => by rw [Shape.size_planesOf]; exact hread)
    (fun p _ => by rw [Quad.get_const, Bytes.size_zeros]; exact hwrite)
  have hone : c.read.bytesPerPlane 1 ≤ scratchBytes := by
    have hmono : c.read.bytesPerPlane 1 ≤ c.read.bytesPerPlane c.blockSize :=
      Shape.bytesPerPlane_mono h.block_pos
    omega
  unfold onPixel
  rw [hrun]
  refine congrArg Except.ok (Quad.ext_get fun k => ?_)
  simp only [Shape.pixel, Quad.get_ofFn]
  split
  · rename_i hk
    rw [hpixels 0 h.block_pos k hk, Shape.pixel_planesOf h.read hq hone, Nat.add_zero]
  · rfl

end Conversion

namespace Backend

/-- What the portable backend builds: a shuffle that solves the program, or a chain of its
kernels. -/
theorem portable_build_eq_ok {p : Program} {r w : Shape} {inner : List Op} {cpu : CpuSet}
    {matched : List Match} {c : Conversion} (hp : p.Framed r w inner)
    (hbuild : portable.build p cpu = .ok (matched, .ok c)) :
    (∃ s comps, Shuffle.Solved p s r w comps ∧
      c = ⟨.shuffle s, r, w, s.pixels * Conversion.lanes, laneBytes - s.read, laneBytes - s.write,
        CpuSet.none, "scalar"⟩) ∨
    ∃ chain : Chain, Linked p.ops chain.links chain.readMargin chain.writeMargin ∧
      p.ops.length ≤ Chain.maxLength ∧
      c = ⟨.chain chain, r, w, blockPixels, chain.readMargin, chain.writeMargin, chain.needs,
        "scalar"⟩ := by
  unfold portable at hbuild
  simp only at hbuild
  split at hbuild
  · cases hbuild
  · rename_i s hsolve
    simp only [Conversion.ofShuffle, hp.ends, Except.ok.injEq, Prod.mk.injEq] at hbuild
    obtain ⟨-, rfl⟩ := hbuild
    obtain ⟨r', w', comps, hs⟩ := Shuffle.solve_eq_some hsolve
    have hr : r' = r := Option.some.inj (hs.source.symm.trans hp.source?)
    have hw : w' = w := Option.some.inj (hs.destination.symm.trans hp.destination?)
    subst hr
    subst hw
    exact .inl ⟨s, comps, hs, rfl⟩
  · simp only [ofTables, Except.ok.injEq, Prod.mk.injEq] at hbuild
    obtain ⟨-, hbuild⟩ := hbuild
    cases hlink : Chain.link p Catalogue.portable cpu blockPixels with
    | mk found result =>
      cases result with
      | error e => rw [hlink] at hbuild; cases hbuild
      | ok chain =>
        rw [hlink] at hbuild
        have hbuild : Conversion.ofChain p chain "scalar" = .ok c := hbuild
        simp only [Conversion.ofChain, hp.ends, Except.ok.injEq] at hbuild
        obtain ⟨hlinked, hlength⟩ := Chain.link_portable hlink
        exact .inr ⟨chain, hlinked, hlength, hbuild.symm⟩

theorem portable_routine {p : Program} {r w : Shape} {inner : List Op} {cpu : CpuSet}
    {matched : List Match} {c : Conversion} (hp : p.Framed r w inner)
    (hbuild : portable.build p cpu = .ok (matched, .ok c)) :
    (∃ s, c.routine = .shuffle s) ∨ ∃ chain, c.routine = .chain chain := by
  rcases portable_build_eq_ok hp hbuild with ⟨s, -, -, rfl⟩ | ⟨chain, -, -, rfl⟩
  · exact .inl ⟨s, rfl⟩
  · exact .inr ⟨chain, rfl⟩

/-- **What the portable backend builds treats pixels one by one.** -/
theorem portable_pixelwise {p : Program} {cpu : CpuSet} {matched : List Match} {c : Conversion}
    (hcheck : p.check = .ok (.ok ())) (hbuild : portable.build p cpu = .ok (matched, .ok c))
    (hread : c.read.layout.frac ≤ 3) (hwrite : c.write.layout.frac ≤ 3) :
    ∃ f, c.Pixelwise f := by
  obtain ⟨r, w, inner, hp, -⟩ := Program.check_eq_ok hcheck
  rcases portable_build_eq_ok hp hbuild with ⟨s, comps, hs, rfl⟩ | ⟨chain, hlinked, -, rfl⟩
  · exact ⟨_, Shuffle.pixelwise hs hp.read hp.write CpuSet.none "scalar"⟩
  · obtain ⟨gs, -, hpix⟩ := Chain.pixelwise hp hlinked hread hwrite chain.needs "scalar"
    exact ⟨_, hpix⟩

/-- **Tiling is invisible.** Whatever the portable backend builds from a checked program, on views
whose rows hold `width` pixels it runs without a fault and does one row after the other. When a row
is done, every pixel of it is what the conversion makes of the source pixel alone, and no byte
outside of its pixels has changed; rows that do not overlap stay so to the end. -/
theorem run_eq_onPixel {p : Program} {cpu : CpuSet} {matched : List Match} {c : Conversion}
    (hcheck : p.check = .ok (.ok ())) (hbuild : portable.build p cpu = .ok (matched, .ok c))
    (hread : c.read.layout.frac ≤ 3) (hwrite : c.write.layout.frac ≤ 3) (src dst : View)
    (width : Nat) (hsrc : ∀ r, r < min src.rows dst.rows → src.HoldsRow c.read width r)
    (hdst : ∀ r, r < min src.rows dst.rows → dst.HoldsRow c.write width r) :
    ∃ views : Nat → View, views 0 = dst ∧
      c.run src dst width = .ok (views (min src.rows dst.rows)) ∧
      ∀ r, r < min src.rows dst.rows →
        (∀ x, x < width → c.onPixel x (dst.firstRow + r) (c.read.pixel (src.row r) x) =
          .ok (c.write.pixel ((views (r + 1)).row r) x)) ∧
        (∀ p i, Conversion.OutsideRow c.write dst width r p i →
          ((views (r + 1)).planes p).getD i 0 = ((views r).planes p).getD i 0) ∧
        (dst.RowsApart c.write width → ∀ x, x < width →
          c.onPixel x (dst.firstRow + r) (c.read.pixel (src.row r) x) =
            .ok (c.write.pixel ((views (min src.rows dst.rows)).row r) x)) := by
  obtain ⟨f, hpix⟩ := portable_pixelwise hcheck hbuild hread hwrite
  obtain ⟨views, hstages⟩ := hpix.exists_stages hsrc hdst
  -- converted pixels are those that come out alone
  have halone : ∀ {r : Nat} {v : View},
      c.Converted f (src.row r) (v.row r) (dst.firstRow + r) 0 width → ∀ x, x < width →
        c.onPixel x (dst.firstRow + r) (c.read.pixel (src.row r) x) =
          .ok (c.write.pixel (v.row r) x) := by
    intro r v hdone x hx
    rw [hpix.onPixel_eq x _ (c.read.holds_pixel _ x)]
    refine congrArg Except.ok (Quad.ext_get fun k => ?_)
    simp only [Shape.pixel, Quad.get_ofFn]
    split
    · rename_i hk
      exact (hdone x (Nat.zero_le x) hx k hk).symm
    · rfl
  refine ⟨views, hstages.start, hstages.done, fun r hr => ⟨halone ?_, fun p i hout => ?_,
    fun hapart => halone (hstages.converted hpix.write hapart hr _ hr (Nat.le_refl _))⟩⟩
  · have hdone := (hstages.row r hr).converted
    rw [(hstages.frame r (Nat.le_of_lt hr)).firstRow] at hdone
    exact hdone
  · refine (hstages.row r hr).outside p i fun hp => ?_
    rw [(hstages.frame r (Nat.le_of_lt hr)).stride]
    exact hout hp

/-- Halves three interleaved bytes per pixel. -/
def halving : Program :=
  .ofOps [.ofKind .u8 (.read ⟨3, true, 0⟩), .ofKind .u8 (.shiftRight 1),
    .ofKind .u8 (.write ⟨3, true, 0⟩)]

/-- Bytes that count up. -/
def rising (n : Nat) : Bytes := Array.ofFn fun i : Fin n => i.val.toUInt8

/-- Two rows of 35 pixels of three bytes, with a gap between them. -/
def twoRows (plane : Bytes) : View := ⟨⟨plane, #[], #[], #[]⟩, ⟨110, 0, 0, 0⟩, 0, 2⟩

theorem twoRows_holdsRow {plane : Bytes} (h : plane.size = 215) {s : Shape} {width r : Nat}
    (hs : s.layout.planes = 1) (hb : s.bytesPerPlane width ≤ 105) (hr : r < 2) :
    (twoRows plane).HoldsRow s width r := by
  intro p hp
  rw [hs] at hp
  have hzero : p = 0 := Fin.ext (Nat.lt_one_iff.mp hp)
  subst hzero
  show r * 110 + s.bytesPerPlane width ≤ plane.size
  omega

theorem halving_run_eq_onPixel : halving.check = .ok (.ok ()) ∧
    ∃ matched c out, portable.build halving CpuSet.none = .ok (matched, .ok c) ∧
      c.run (twoRows (rising 215)) (twoRows (Bytes.zeros 215)) 35 = .ok out ∧
      ∀ r, r < 2 → ∀ x, x < 35 →
        c.onPixel x (0 + r) (c.read.pixel ((twoRows (rising 215)).row r) x) =
          .ok (c.write.pixel (out.row r) x) := by
  have hcheck : halving.check = .ok (.ok ()) := rfl
  obtain ⟨matched, c, hbuild, hread, hwrite⟩ : ∃ matched c,
      portable.build halving CpuSet.none = .ok (matched, .ok c) ∧
        c.read = ⟨.u8, ⟨3, true, 0⟩⟩ ∧ c.write = ⟨.u8, ⟨3, true, 0⟩⟩ := by
    have hends : ((portable.build halving CpuSet.none).toOption.bind fun built =>
        built.2.toOption.map fun c => (c.read, c.write)) =
          some (⟨.u8, ⟨3, true, 0⟩⟩, ⟨.u8, ⟨3, true, 0⟩⟩) := by
      decide +kernel
    cases hb : portable.build halving CpuSet.none with
    | error f => rw [hb] at hends; cases hends
    | ok built =>
      obtain ⟨matched, result⟩ := built
      cases result with
      | error e => rw [hb] at hends; cases hends
      | ok c =>
        rw [hb] at hends
        have hends := Option.some.inj hends
        exact ⟨matched, c, rfl, congrArg Prod.fst hends, congrArg Prod.snd hends⟩
  have hapart : (twoRows (Bytes.zeros 215)).RowsApart c.write 35 := by
    refine .inr fun p hp => ?_
    rw [hwrite] at hp ⊢
    have hzero : p = 0 := Fin.ext (Nat.lt_one_iff.mp hp)
    subst hzero
    decide
  obtain ⟨views, -, hrun, hpixels⟩ := run_eq_onPixel hcheck hbuild (by rw [hread]; decide)
    (by rw [hwrite]; decide) (twoRows (rising 215)) (twoRows (Bytes.zeros 215)) 35
    (fun r hr => twoRows_holdsRow Array.size_ofFn (by rw [hread]; rfl) (by rw [hread]; decide) hr)
    (fun r hr => twoRows_holdsRow (Bytes.size_zeros 215) (by rw [hwrite]; rfl)
      (by rw [hwrite]; decide) hr)
  exact ⟨hcheck, matched, c, views 2, hbuild, hrun, fun r hr => (hpixels r hr).2.2 hapart⟩

end Backend

end PixelConv
