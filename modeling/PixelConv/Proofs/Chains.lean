import PixelConv.Proofs.Blocks
import PixelConv.Proofs.Structure

/-!
# Chains treat pixels one by one

The chain of a checked program is a load, register operations and a store, so a block of pixels
leaves it as each of its pixels would: the elements of a pixel go through the register operations
and are cut to the elements of the destination (`Chain.pixelwise`).
-/

namespace PixelConv

/-! ## 1. The operations between the ends -/

/-- The register operations that were chosen for a list of operations. -/
inductive Computes : List Op → List RegOp → Prop
  | nil : Computes [] []
  | cons {op word : Op} {ops : List Op} {g : RegOp} {gs : List RegOp} (hop : op.onWords = .ok word)
      (hg : Chosen word (.compute g) 0 0) (rest : Computes ops gs) : Computes (op :: ops) (g :: gs)

theorem exists_of_map_eq_ok {ε α β : Type} {x : Except ε α} {f : α → β} {b : β}
    (h : x.map f = .ok b) : ∃ a, x = .ok a ∧ b = f a := by
  cases x with
  | error e => cases h
  | ok a => exact ⟨a, rfl, (Except.ok.inj h).symm⟩

/-- A scale on integers, in the range of the kernel. -/
theorem Setup.scaleInt_eq_ok {op : Op} {factor : Fraction} {k : Kernel} (hop : op.kind = .scale factor)
    (h : Setup.scaleInt op = .ok k) :
    ∃ top, op.elem.top? = some top ∧ factor.isNegative = false ∧ factor.num.natAbs < 2 ^ (32 : Nat) ∧
      factor.den < 2 ^ (32 : Nat) ∧ k = .compute (.scaleInt factor.num.natAbs factor.den top) := by
  unfold Setup.scaleInt at h
  rw [hop] at h
  cases ht : op.elem.top? with
  | none => rw [ht] at h; cases h
  | some top =>
    rw [ht] at h
    simp only at h
    split at h
    · cases h
    · rename_i hrange
      simp only [Bool.or_eq_true, decide_eq_true_eq, not_or, Bool.not_eq_true, Nat.not_le] at hrange
      exact ⟨top, rfl, hrange.1.1, hrange.1.2, hrange.2, (Except.ok.inj h).symm⟩

/-- An operation that is not a transfer gets a register operation. -/
theorem Chosen.compute {op : Op} {k : Kernel} {r w : Nat} (h : Chosen op k r w)
    (ht : op.transfer? = none) : ∃ g, k = .compute g ∧ r = 0 ∧ w = 0 := by
  cases h with
  | @generic setup _ hs hk =>
    obtain ⟨elem, kind, info⟩ := op
    cases kind with
    | read l => cases ht
    | write l => cases ht
    | swapBytes => cases elem <;> cases hs <;> cases hk <;> exact ⟨_, rfl, rfl, rfl⟩
    | unpack widths =>
      cases elem <;> cases hs <;>
        (obtain ⟨f, -, rfl⟩ := exists_of_map_eq_ok hk; exact ⟨_, rfl, rfl, rfl⟩)
    | pack widths =>
      cases elem <;> cases hs <;>
        (obtain ⟨f, -, rfl⟩ := exists_of_map_eq_ok hk; exact ⟨_, rfl, rfl, rfl⟩)
    | clear values =>
      cases hs
      obtain ⟨f, -, rfl⟩ := exists_of_map_eq_ok hk
      exact ⟨_, rfl, rfl, rfl⟩
    | shiftLeft n =>
      cases elem <;> cases hs <;>
        (obtain ⟨f, -, rfl⟩ := exists_of_map_eq_ok hk; exact ⟨_, rfl, rfl, rfl⟩)
    | shiftRight n =>
      cases elem <;> cases hs <;>
        (obtain ⟨f, -, rfl⟩ := exists_of_map_eq_ok hk; exact ⟨_, rfl, rfl, rfl⟩)
    | swizzle s => cases hs; cases hk; exact ⟨_, rfl, rfl, rfl⟩
    | convert target expand => cases hs; cases hk; exact ⟨_, rfl, rfl, rfl⟩
    | dither d =>
      cases elem <;> cases hs
      simp only [Setup.dither] at hk
      split at hk
      · cases hk
      · cases hk
        exact ⟨_, rfl, rfl, rfl⟩
    | affine t =>
      cases elem <;> cases hs
      cases hk
      exact ⟨_, rfl, rfl, rfl⟩
    | scale factor =>
      cases elem <;> cases hs
      case f32.refl =>
        cases hk
        exact ⟨_, rfl, rfl, rfl⟩
      all_goals
        obtain ⟨top, -, -, -, -, rfl⟩ := Setup.scaleInt_eq_ok rfl hk
        exact ⟨_, rfl, rfl, rfl⟩
    | atMost bounds => cases elem <;> cases hs <;> cases hk <;> exact ⟨_, rfl, rfl, rfl⟩
    | atLeast bounds => cases elem <;> cases hs <;> cases hk <;> exact ⟨_, rfl, rfl, rfl⟩
  | loadTriples hk => rw [Op.transfer?, hk] at ht; cases ht
  | storeTriples hk => rw [Op.transfer?, hk] at ht; cases ht
  | clearAlpha | swapEnds | toUnit | dot3 => exact ⟨_, rfl, rfl, rfl⟩

/-- Transfers work on their own element. -/
theorem onWords_transfer {op word : Op} {l : Layout} (hl : op.transfer? = some l)
    (h : op.onWords = .ok word) : word = op := by
  obtain ⟨elem, kind, info⟩ := op
  cases kind with
  | read l' => cases h; rfl
  | write l' => cases h; rfl
  | _ => cases hl

/-- Operations that depend on their element stay as they are. -/
theorem onWords_of_elem {op word : Op} (hverb : op.verb.ignoresElem = false)
    (h : op.onWords = .ok word) : word = op := by
  rw [Op.onWords, hverb, if_neg Bool.false_ne_true] at h
  exact (Except.ok.inj h).symm

/-- The words of its constants are what a `clear` is left with. -/
theorem onWords_of_words? {elem : Elem} {values words : Constants}
    (h : values.words? elem = some words) (info : Info) :
    (Op.mk elem (.clear values) info).onWords = .ok ⟨.u32, .clear words, info⟩ := by
  simp only [Op.onWords, h]
  rfl

theorem onWords_clear {op word : Op} {values : Constants} (hk : op.kind = .clear values)
    (h : op.onWords = .ok word) :
    ∃ words, values.words? op.elem = some words ∧ word = ⟨.u32, .clear words, op.info⟩ := by
  obtain ⟨elem, kind, info⟩ := op
  cases hk
  cases hw : values.words? elem with
  | none =>
    simp only [Op.onWords, hw] at h
    cases h
  | some words =>
    rw [onWords_of_words? hw] at h
    cases h
    exact ⟨words, rfl, rfl⟩

theorem transfer?_onWords {op word : Op} (ht : op.transfer? = none) (h : op.onWords = .ok word) :
    word.transfer? = none := by
  obtain ⟨elem, kind, info⟩ := op
  cases kind with
  | read l => cases ht
  | write l => cases ht
  | clear values =>
    obtain ⟨words, -, rfl⟩ := onWords_clear rfl h
    rfl
  | _ => cases h; rfl

theorem info_onWords {op word : Op} (h : op.onWords = .ok word) : word.info = op.info := by
  obtain ⟨elem, kind, info⟩ := op
  cases kind with
  | clear values =>
    obtain ⟨words, -, rfl⟩ := onWords_clear rfl h
    rfl
  | _ => cases h; rfl

/-- The kernels of a program that ends in a write: register operations and the kernel of the
write. -/
theorem Linked.concat {inner : List Op} {last : Op} {l : Layout} {ks : List Kernel} {r w : Nat}
    (h : Linked (inner ++ [last]) ks r w) (hinner : ∀ op ∈ inner, op.transfer? = none)
    (hlast : last.transfer? = some l) :
    ∃ gs k, Computes inner gs ∧ Chosen last k r w ∧ ks = gs.map Kernel.compute ++ [k] := by
  induction inner generalizing ks r w with
  | nil =>
    cases h with
    | @cons _ word _ k _ _ _ _ _ hop hk rest =>
      cases rest
      rw [onWords_transfer hlast hop] at hk
      rw [Nat.max_zero, Nat.max_zero]
      exact ⟨[], k, .nil, hk, rfl⟩
  | cons op inner ih =>
    cases h with
    | @cons _ word _ k _ _ _ _ _ hop hk rest =>
      obtain ⟨gs, k', hgs, hk', rfl⟩ := ih rest fun op hop => hinner op (List.mem_cons_of_mem _ hop)
      obtain ⟨g, rfl, rfl, rfl⟩ :=
        hk.compute (transfer?_onWords (hinner op List.mem_cons_self) hop)
      rw [Nat.zero_max, Nat.zero_max]
      exact ⟨g :: gs, k', .cons hop hk hgs, hk', rfl⟩

/-! ## 2. Running a chain -/

/-- Register operations one after the other. -/
def RegOp.applyAll (gs : List RegOp) (x y : Nat) (q : Pixel) : Pixel :=
  gs.foldl (fun q g => g.apply x y q) q

theorem run_computes : ∀ (gs : List RegOp) (b : Block),
    ∃ b', (gs.map Kernel.compute).foldlM (fun b k => k.run b) b = .ok b' ∧
      Block.Computed (fun i q => RegOp.applyAll gs (b.x + i) b.y q) b b'
  | [], b => ⟨b, rfl, fun _ _ => rfl, rfl, rfl, rfl, rfl⟩
  | g :: gs, b => by
    have hfirst : Block.Computed (fun i q => g.apply (b.x + i) b.y q) b
        (b.mapPixels fun i q => g.apply (b.x + i) b.y q) := b.computed_mapPixels fun _ _ _ => rfl
    obtain ⟨b', hrun, hpixel, hin, hout, hx, hy⟩ :=
      run_computes gs (b.mapPixels fun i q => g.apply (b.x + i) b.y q)
    refine ⟨b', ?_, fun i hi => ?_, hin, hout, hx, hy⟩
    · rw [List.map_cons, List.foldlM_cons]
      exact hrun
    · rw [hpixel i hi, hfirst.pixel i hi]
      rfl

theorem Shape.bytesPerPlane_le {s : Shape} (hs : s.layout.count ≤ 4) (n : Nat) :
    s.bytesPerPlane n ≤ n * 16 := by
  have hper : s.layout.perPlane ≤ 4 := by
    unfold Layout.perPlane
    split <;> omega
  have hsize := Shape.elem_size_le s.elem
  have hmul : n * s.layout.perPlane * s.elem.size ≤ n * 16 := by
    rw [Nat.mul_assoc]
    exact Nat.mul_le_mul_left n (Nat.mul_le_mul hper hsize)
  have hpos : 0 < 2 ^ s.layout.frac := Nat.two_pow_pos _
  have hround : n * s.layout.perPlane * s.elem.size + (2 ^ s.layout.frac - 1) <
      2 ^ s.layout.frac * (n * 16 + 1) := by
    have hle : n * 16 ≤ 2 ^ s.layout.frac * (n * 16) := Nat.le_mul_of_pos_left _ hpos
    rw [Nat.mul_add, Nat.mul_one]
    omega
  exact Nat.le_of_lt_succ (Nat.div_lt_of_lt_mul hround)

/-- Between one and eight elements to a byte, a block of 32 pixels has whole bytes. -/
theorem Shape.Regular.aligned {s : Shape} (h : s.Regular) : 2 ^ s.layout.frac ∣ blockPixels := by
  show 2 ^ s.layout.frac ∣ 2 ^ 5
  exact Nat.pow_dvd_pow 2 (by have := h.frac_le; omega)

/-- **A chain treats pixels one by one**: the elements go through the register operations and are
cut to those of the destination. -/
theorem Chain.pixelwise {p : Program} {r w : Shape} {inner : List Op} {chain : Chain}
    (hp : p.Framed r w inner)
    (hlinked : Linked p.ops chain.links chain.readMargin chain.writeMargin)
    (hread : r.layout.frac ≤ 3) (hwrite : w.layout.frac ≤ 3) (cpu : CpuSet) (backend : String) :
    ∃ gs, Computes inner gs ∧
      (Conversion.mk (.chain chain) r w blockPixels chain.readMargin chain.writeMargin cpu
        backend).Pixelwise fun x y q => (RegOp.applyAll gs x y q).map w.truncate := by
  obtain ⟨ri, wi, hops⟩ := hp.ops
  rw [hops] at hlinked
  generalize hlinks : chain.links = links at hlinked
  generalize hrm : chain.readMargin = rm at hlinked
  generalize hwm : chain.writeMargin = wm at hlinked
  cases hlinked with
  | @cons _ word _ k ks r0 w0 r1 w1 hop hk rest =>
  obtain ⟨gs, k', hgs, hk', rfl⟩ := rest.concat hp.inner (l := w.layout) rfl
  rw [onWords_transfer (l := r.layout) rfl hop] at hk
  obtain ⟨hregr, hr0, rfl, hload⟩ := hk.load hp.read hread
  obtain ⟨hregw, rfl, hw1, hstore⟩ := hk'.store hp.write hwrite
  have hrsize := Shape.bytesPerPlane_le hregr.count_le blockPixels
  have hwsize := Shape.bytesPerPlane_le hregw.count_le blockPixels
  simp only [Nat.max_zero, Nat.zero_max]
  refine ⟨gs, hgs, rfl, hregr, hregw, by show 0 < 32; decide, hregr.aligned, hregw.aligned, ?_, ?_,
    fun src dst x y hsrc hdst => ?_⟩
  · show r.bytesPerPlane blockPixels + r0 ≤ 1024
    have : blockPixels = 32 := rfl
    omega
  · show w.bytesPerPlane blockPixels + w1 ≤ 1024
    have : blockPixels = 32 := rfl
    omega
  · -- the load, the register operations and the store, one after the other
    obtain ⟨b1, hrun1, hb1⟩ := hload (Block.start src dst x y) hsrc
    obtain ⟨b2, hrun2, hb2⟩ := run_computes gs b1
    obtain ⟨b3, hrun3, hsize3, hb3⟩ := hstore b2 (by
      rw [hb2.output, hb1.output]
      exact hdst)
    refine ⟨b3.output, ?_, fun p => ?_, fun i hi c hc => ?_⟩
    · simp only [Conversion.onBlock, Chain.run, hlinks, List.foldlM_cons, List.foldlM_append]
      rw [hrun1]
      show Except.map _ ((gs.map Kernel.compute).foldlM _ b1 >>= _) = _
      rw [hrun2]
      show Except.map _ (k'.run b2 >>= fun b => .ok b) = _
      rw [hrun3]
      rfl
    · rw [hsize3 p, hb2.output, hb1.output]
      rfl
    · rw [hb3 i hi c hc, hb2.pixel i hi, hb1.pixel i hi, Block.pixel_start _ _ _ _ hi,
        Load.into_zero, hb1.x, hb1.y, Quad.get_map]
      rfl

end PixelConv
