import PixelConv.Proofs.Isolation
import PixelConv.Proofs.Safety

/-!
# The choice of kernels does not show

The special table has faster kernels for a few operations; the general one has a kernel for each.
Kernels that are chosen for one and the same operation leave the same in the components that are read
later: they differ in registers that nothing reads, and in the bytes that they read or write beyond
the pixels of a block (`RegOp.agrees_of_chosen`, `Chosen.load_alike`, `Chosen.store_alike`).

Main statement: a checked program on integers that the general table can link is linked by both
tables, and the two chains convert all views alike (`Chain.link_portable_agrees`). A field after a gap
of its pattern is an exception: nothing is said to be read for it, but the kernel leaves there what it
finds (`Chain.gapped_choice_shows`).
-/

namespace PixelConv

/-! ## 1. Programs on integers -/

/-- Neither the element nor the target of a conversion is a float. -/
def Op.onIntegers (op : Op) : Bool :=
  op.elem.isInt &&
    match op.kind with
    | .convert target _ => target.isInt
    | _ => true

/-- The fields that are read later stand before the first gap of the pattern. -/
def Op.fieldsInReach (op : Op) : Bool :=
  match op.kind with
  | .unpack widths => Quad.indices.all fun c =>
      op.info.unused c || widths c == 0 || decide (c.val < BitField.count widths)
  | _ => true

theorem Op.onIntegers_congr {a b : Op} (h : a.code = b.code) (ha : a.onIntegers = true) :
    b.onIntegers = true :=
  of_code (P := fun op => op.onIntegers = true) (fun _ h => h) h ha

theorem Op.lt_count_of_fieldsInReach {op : Op} {widths : Quad Nat} (hk : op.kind = .unpack widths)
    (h : op.fieldsInReach = true) {c : Fin 4} (hused : op.info.unused c = false)
    (hpos : 0 < widths c) : c.val < BitField.count widths := by
  rw [fieldsInReach, hk] at h
  have hc := Quad.all_indices.mp h c
  rw [hused, Bool.false_or, Bool.or_eq_true, beq_iff_eq, decide_eq_true_eq] at hc
  omega

/-! ## 2. Two kernels for one operation -/

section Compute

variable {op word : Op} {g g' : RegOp}

/-- Operations on each component alone get their general kernel. -/
theorem Chosen.generic_of_componentwise (h : Chosen op (.compute g) 0 0)
    (hverb : op.verb.isComponentwise = true) (hint : op.onIntegers = true) :
    ∃ setup, op.generic? = some setup ∧ setup op = .ok (.compute g) := by
  cases h with
  | generic hs hk => exact ⟨_, hs, hk⟩
  | clearAlpha hk | swapEnds hk | dot3 hk =>
    rw [Op.verb, hk] at hverb
    cases hverb
  | toUnit hk =>
    rw [Op.onIntegers, hk] at hint
    cases (Bool.and_eq_true_iff.mp hint).2

/-- There are no kernels for transforms of integers. -/
theorem Chosen.not_affine {a : Affine} (hk : op.kind = .affine a) (hint : op.elem.isInt = true) :
    ¬Chosen op (.compute g) 0 0 := by
  intro h
  obtain ⟨elem, kind, info⟩ := op
  cases hk
  cases h with
  | generic hs =>
    cases elem with
    | f32 => cases hint
    | u8 | u16 | u32 => cases hs
  | clearAlpha hk | swapEnds hk | toUnit hk => cases hk
  | dot3 _ he =>
    cases he
    cases hint

/-- **Two kernels between the ends**: registers that agree where the operation reads become registers
that agree where it is read. -/
theorem RegOp.agrees_of_chosen {prev : Info} {out : Quad Bool} {q q' : Pixel}
    (hop : op.onWords = .ok word) (hg : Chosen word (.compute g) 0 0)
    (hg' : Chosen word (.compute g') 0 0) (hinner : op.transfer? = none)
    (hint : op.onIntegers = true) (hfields : op.fieldsInReach = true)
    (hmarks : ∀ c, out c = true → op.info.unused c = false)
    (hdefined : ∀ c, out c = true → ((op.knownAfter prev) c).garbage = false)
    (hq : Pixel.AgreeOn (op.needs out) q q') (x y : Nat) :
    Pixel.AgreeOn out (g.apply x y q) (g'.apply x y q') := by
  by_cases hverb : op.verb.isComponentwise = true
  · rw [onWords_componentwise hverb hop] at hg hg'
    obtain ⟨setup, hs, hk⟩ := hg.generic_of_componentwise hverb hint
    obtain ⟨setup', hs', hk'⟩ := hg'.generic_of_componentwise hverb hint
    cases hs.symm.trans hs'
    cases hk.symm.trans hk'
    rw [Op.needs_componentwise hverb] at hq
    exact fun c hc => RegOp.apply_local (hg.isLocal hverb) x y (hq c hc)
  cases hk : op.kind with
  | clear values =>
    intro c hc
    obtain ⟨ws, rfl, hws⟩ := Chosen.clear_words hk hop hg
    obtain ⟨ws', rfl, hws'⟩ := Chosen.clear_words hk hop hg'
    simp only [RegOp.apply, RegOp.onSome, Quad.get_zipWith]
    rcases hws c (hmarks c hc) with ⟨hnone, hw⟩ | ⟨v, w, hv, hword, hw⟩
    · rcases hws' c (hmarks c hc) with ⟨-, hw'⟩ | ⟨v, w, hv, -, -⟩
      · rw [hw, hw']
        refine hq c ?_
        simp only [Op.needs, hk, Quad.get_ofFn, hc, hnone]
        rfl
      · rw [hnone] at hv
        cases hv
    · rcases hws' c (hmarks c hc) with ⟨hnone, -⟩ | ⟨v', w', hv', hword', hw'⟩
      · rw [hnone] at hv
        cases hv
      · cases hv.symm.trans hv'
        cases hword.symm.trans hword'
        rw [hw, hw']
  | swizzle s =>
    intro c hc
    obtain ⟨source, rfl, hsource⟩ := Chosen.swizzle_source hk hop hg
    obtain ⟨source', rfl, hsource'⟩ := Chosen.swizzle_source hk hop hg'
    simp only [RegOp.apply, Quad.get_map, hsource c (hmarks c hc), hsource' c (hmarks c hc)]
    refine hq _ ?_
    simp only [Op.needs, hk, Quad.get_ofFn]
    exact Swizzle.reads_source hc
  | read | write =>
    rw [Op.transfer?, hk] at hinner
    cases hinner
  | swapBytes | shiftLeft | shiftRight | convert | dither | scale | atMost | atLeast =>
    exact absurd (by rw [Op.verb, hk]; rfl) hverb
  | unpack widths =>
    rw [onWords_of_elem (by rw [Op.verb, hk]; rfl) hop] at hg hg'
    cases hg.unpack_kernel hk
    cases hg'.unpack_kernel hk
    exact RegOp.unpack_agrees hk
      (fun c hc => Op.lt_count_of_fieldsInReach hk hfields (hmarks c hc)) hdefined hq x y
  | pack widths =>
    rw [onWords_of_elem (by rw [Op.verb, hk]; rfl) hop] at hg hg'
    cases hg.pack_kernel hk
    cases hg'.pack_kernel hk
    exact RegOp.pack_agrees hk hdefined hq x y
  | affine a =>
    rw [onWords_of_elem (by rw [Op.verb, hk]; rfl) hop] at hg
    exact absurd hg (Chosen.not_affine hk (Bool.and_eq_true_iff.mp hint).1)

end Compute

/-- Blocks at the same place with the same registers in the components of `on`; their input and
output may be anything. -/
structure Block.Alike (on : Quad Bool) (b b' : Block) : Prop where
  pixel : ∀ i, i < blockPixels → Pixel.AgreeOn on (b.pixel i) (b'.pixel i)
  x : b'.x = b.x
  y : b'.y = b.y

section Ends

variable {op : Op} {l : Layout} {k k' : Kernel} {r w r' w' : Nat} {out : Quad Bool} {b b' : Block}

theorem Layout.limited_wellFormed (h : l.wellFormed = true) : l.limited.wellFormed = true := by
  obtain ⟨hpos, hle, hone⟩ := Layout.wellFormed_iff.mp h
  refine Layout.wellFormed_iff.mpr ⟨Nat.lt_min.mpr ⟨hpos, by decide⟩, Nat.min_le_right _ _,
    fun hf => ?_⟩
  have hone := hone (Nat.lt_of_lt_of_le hf (Nat.min_le_left _ _))
  show min l.count 4 = 1
  omega

/-- The elements that the kernel of a read loads are those of a shape. -/
theorem Chosen.limited_regular (hl : op.kind = .read l) (h : Chosen op k r w)
    (hwf : l.wellFormed = true) : (Shape.mk op.elem l.limited).Regular := by
  refine ⟨Layout.limited_wellFormed hwf, Nat.min_le_right _ _, fun hf => ?_⟩
  have hf : 0 < l.frac := Nat.lt_of_lt_of_le hf (Nat.min_le_left _ _)
  rcases h.load_kernel hl with ⟨-, -, hu8⟩ | ⟨-, hu8⟩
  · exact hu8
  · exact hu8 hf

/-- **Two kernels of a read**, on input that agrees on the pixels. -/
theorem Chosen.load_alike (hl : op.kind = .read l) (h : Chosen op k r w) (h' : Chosen op k' r' w')
    (hwf : l.wellFormed = true)
    (hroom : Conversion.Room ⟨op.elem, l⟩ b.input
      ((Shape.mk op.elem l).bytesPerPlane blockPixels + r))
    (hroom' : Conversion.Room ⟨op.elem, l⟩ b'.input
      ((Shape.mk op.elem l).bytesPerPlane blockPixels + r'))
    (hinput : (Shape.mk op.elem l.limited).Agree blockPixels b.input b'.input)
    (hb : Block.Alike (op.needs out) b b') :
    ∃ c c', k.run b = .ok c ∧ k'.run b' = .ok c' ∧ Block.Alike out c c' ∧
      c.output = b.output ∧ c'.output = b'.output := by
  obtain ⟨c, hc, hcomputed⟩ := h.load_computed hl hwf hroom
  obtain ⟨c', hc', hcomputed'⟩ := h'.load_computed hl hwf hroom'
  refine ⟨c, c', hc, hc', ⟨fun i hi j hj => ?_, ?_, ?_⟩, hcomputed.output, hcomputed'.output⟩
  · rw [hcomputed.pixel i hi, hcomputed'.pixel i hi, Load.into, Load.into, Quad.get_ofFn,
      Quad.get_ofFn]
    split
    · rename_i hcount
      exact Shape.element_congr (h.limited_regular hl hwf) hinput hi hcount
    · rename_i hcount
      exact hb.pixel i hi j (Op.needs_of_limited hl hj hcount)
  · rw [hcomputed.x, hcomputed'.x, hb.x]
  · rw [hcomputed.y, hcomputed'.y, hb.y]

theorem Store.getD_fraction {frac j : Nat} (b : Block) {plane : Bytes} (hj : j < plane.size)
    (hblock : j < blockPixels / 2 ^ frac) :
    (fraction frac b plane).getD j 0 = fractionByte frac b j := by
  rw [fraction, Bytes.getD_mapIdx _ _ hj, if_pos hblock]

/-- The bytes of a block of elements that share bytes are among those that the kernels store. -/
theorem Layout.bytes_le_limited (h : l.count = 1) (hf : 0 < l.frac) :
    (Shape.mk .u8 l).bytesPerPlane blockPixels ≤ blockPixels / 2 ^ l.limited.frac := by
  have hper : l.perPlane = 1 := by
    unfold Layout.perPlane
    rw [h]
    split <;> rfl
  show (32 * l.perPlane * 1 + (2 ^ l.frac - 1)) / 2 ^ l.frac ≤ 32 / 2 ^ min l.frac 3
  rw [hper]
  by_cases hlt : l.frac ≤ 3
  · have hcases : l.frac = 1 ∨ l.frac = 2 ∨ l.frac = 3 := by omega
    rcases hcases with hf | hf | hf <;> rw [hf] <;> decide
  · have hpow : 2 ^ 4 ≤ 2 ^ l.frac := Nat.pow_le_pow_right (by decide) (by omega)
    rw [Nat.min_eq_right (by omega)]
    refine Nat.le_of_lt_succ (Nat.div_lt_of_lt_mul ?_)
    omega

/-- **Two kernels of a write**: the bytes of the pixels are the same. -/
theorem Chosen.store_alike (hl : op.kind = .write l) (h : Chosen op k r w) (h' : Chosen op k' r' w')
    (hwf : l.wellFormed = true)
    (hroom : Conversion.Room ⟨op.elem, l⟩ b.output
      ((Shape.mk op.elem l).bytesPerPlane blockPixels + w))
    (hroom' : Conversion.Room ⟨op.elem, l⟩ b'.output
      ((Shape.mk op.elem l).bytesPerPlane blockPixels + w'))
    (hb : Block.Alike out b b') (hon : ∀ c : Fin 4, c.val < l.count → out c = true) :
    ∃ c c', k.run b = .ok c ∧ k'.run b' = .ok c' ∧
      (Shape.mk op.elem l).Agree blockPixels c.output c'.output := by
  obtain ⟨hpos, -, hone⟩ := Layout.wellFormed_iff.mp hwf
  obtain ⟨elem, kind, info⟩ := op
  cases hl
  by_cases hf : l.frac = 0
  · -- whole elements make up all bytes
    have hfrac : l.frac ≤ 3 := by omega
    obtain ⟨hregular, -, -, hstore⟩ := Chosen.store (s := ⟨elem, l⟩) h hwf hfrac
    obtain ⟨-, -, -, hstore'⟩ := Chosen.store (s := ⟨elem, l⟩) h' hwf hfrac
    obtain ⟨c, hrun, -, helements⟩ := hstore b hroom
    obtain ⟨c', hrun', -, helements'⟩ := hstore' b' hroom'
    refine ⟨c, c', hrun, hrun', Shape.agree_of_elements hregular hf fun i hi j hj => ?_⟩
    rw [helements i hi j hj, helements' i hi j hj, hb.pixel i hi j (hon j hj)]
  · -- elements that share bytes have one kernel only
    have hf : 0 < l.frac := Nat.pos_of_ne_zero hf
    have hcount := hone hf
    have hempty := Layout.not_isEmpty_limited elem fun (_ : l.packed = true) => hpos
    rcases h.store_kernel rfl with ⟨-, rfl⟩ | ⟨rfl, hu8⟩
    · cases hcount
    rcases h'.store_kernel rfl with ⟨-, rfl⟩ | ⟨rfl, -⟩
    · cases hcount
    obtain rfl : elem = .u8 := hu8 hf
    refine ⟨_, _, by rw [Kernel.run_store, if_neg hempty], by rw [Kernel.run_store, if_neg hempty],
      fun p hp j hj => ?_⟩
    obtain rfl : p = 0 := Layout.plane_eq_zero hcount hp
    have hlimited : 0 < l.limited.frac := Nat.lt_min.mpr ⟨hf, by decide⟩
    have hblock := Nat.lt_of_lt_of_le hj (Layout.bytes_le_limited hcount hf)
    have hsize := hroom 0 hp
    have hsize' := hroom' 0 hp
    have hstored : ∀ d : Block, j < (d.output 0).size →
        ((Store.output Elem.u8.size l.limited d) 0).getD j 0 =
          Store.fractionByte l.limited.frac d j := by
      intro d hd
      rw [Store.output, if_pos hlimited]
      exact Store.getD_fraction d hd hblock
    rw [hstored b (by omega), hstored b' (by omega)]
    exact Store.fractionByte_congr (fun i => Block.reg_congr hb.pixel i (hon 0 hpos)) _ _

end Ends

/-! ## 3. Two chains for one program -/

section Chains

variable {depths : Option Depths} {s : Shape} {last : Op}

/-- **One kernel between the ends**, on blocks that are alike where the operation reads. -/
theorem Annotated.compute_alike {op word : Op} {rest : List Op} {prev : Info} {k k' : Kernel}
    {r w r' w' : Nat} {b b' : Block} (h : Annotated depths prev (op :: rest))
    (hinner : op.transfer? = none) (hint : op.onIntegers = true) (hfields : op.fieldsInReach = true)
    (hword : op.onWords = .ok word) (hk : Chosen word k r w) (hk' : Chosen word k' r' w')
    (hdefined : ∀ c, needed rest c = true → ((op.knownAfter prev) c).garbage = false)
    (hb : Block.Alike (needed (op :: rest)) b b') :
    ∃ c c', k.run b = .ok c ∧ k'.run b' = .ok c' ∧ Block.Alike (needed rest) c c' ∧
      c.output = b.output ∧ c'.output = b'.output := by
  have htransfer := transfer?_onWords hinner hword
  obtain ⟨g, rfl, rfl, rfl⟩ := hk.compute htransfer
  obtain ⟨g', rfl, rfl, rfl⟩ := hk'.compute htransfer
  have hmarks : ∀ c, needed rest c = true → op.info.unused c = false := by
    intro c hc
    rw [h.unused_eq, hc]
    rfl
  refine ⟨_, _, rfl, rfl, ⟨fun i hi => ?_, hb.x, hb.y⟩, rfl, rfl⟩
  rw [Block.pixel_mapPixels b _ hi, Block.pixel_mapPixels b' _ hi, hb.x, hb.y]
  exact RegOp.agrees_of_chosen hword hk hk' hinner hint hfields hmarks hdefined (hb.pixel i hi) _ _

/-- **Any kernels up to a write.** -/
theorem Annotated.runAll_alike (hlast : last.code = (s.elem, .write s.layout))
    (hwf : s.layout.wellFormed = true) :
    ∀ {inner : List Op} {prev : Info} {ks ks' : List Kernel} {r w r' w' : Nat} {b b' : Block},
    Annotated depths prev (inner ++ [last]) → (∀ op ∈ inner, op.transfer? = none) →
    (∀ op ∈ inner, op.onIntegers = true) → (∀ op ∈ inner, op.fieldsInReach = true) →
    (∀ i, (prev.known i).Coherent) →
    (∀ c : Fin 4, c.val < s.layout.count → ((infoOf depths prev inner).known c).garbage = false) →
    Linked (inner ++ [last]) ks r w → Linked (inner ++ [last]) ks' r' w' →
    Conversion.Room s b.output (s.bytesPerPlane blockPixels + w) →
    Conversion.Room s b'.output (s.bytesPerPlane blockPixels + w') →
    Block.Alike (needed (inner ++ [last])) b b' →
    ∃ out out', Kernel.runAll ks b = .ok out ∧ Kernel.runAll ks' b' = .ok out' ∧
      s.Agree blockPixels out.output out'.output := by
  obtain ⟨elem, kind, info⟩ := last
  obtain ⟨rfl, rfl⟩ := Prod.mk.inj hlast
  intro inner
  induction inner with
  | nil =>
    intro prev ks ks' r w r' w' b b' _ _ _ _ _ _ hks hks' hroom hroom' hb
    rw [List.nil_append] at hks hks' hb
    cases hks with
    | @cons _ word _ k _ _ w₁ _ _ hword hk rest =>
    cases hks' with
    | @cons _ word' _ k' _ _ w₁' _ _ hword' hk' rest' =>
    cases rest
    cases rest'
    rw [onWords_transfer rfl hword] at hk
    rw [onWords_transfer rfl hword'] at hk'
    rw [Nat.max_zero] at hroom hroom'
    obtain ⟨c, c', hc, hc', hagree⟩ := hk.store_alike rfl hk' hwf hroom hroom' hb fun c hc => by
      rw [needed_cons, Op.needs, Quad.get_ofFn]
      exact decide_eq_true hc
    exact ⟨c, c', Kernel.runAll_of_run hc, Kernel.runAll_of_run hc', hagree⟩
  | cons op inner ih =>
    intro prev ks ks' r w r' w' b b' hann hinner hint hfields hcoherent hend hks hks' hroom hroom' hb
    obtain ⟨htransfer, hinner⟩ := List.forall_mem_cons.mp hinner
    obtain ⟨hop, hint⟩ := List.forall_mem_cons.mp hint
    obtain ⟨hreach, hfields⟩ := List.forall_mem_cons.mp hfields
    rw [List.cons_append] at hann hks hks' hb
    rw [infoOf_cons] at hend
    have hcoherent : ∀ i, ((op.infoAfter depths prev).known i).Coherent :=
      Op.coherent_knownAfter hcoherent
    have hlast : (Op.mk s.elem (.write s.layout) info).kind = .write s.layout := rfl
    have hdefined := needed_defined hlast (fun o ho => Op.not_write (hinner o ho)) hcoherent hend
    cases hks with
    | @cons _ word _ k _ _ w₁ _ ws hword hk rest =>
    cases hks' with
    | @cons _ word' _ k' _ _ w₁' _ ws' hword' hk' rest' =>
    cases hword.symm.trans hword'
    obtain ⟨c, c', hc, hc', hagree, hout, hout'⟩ := hann.compute_alike htransfer hop hreach hword hk
      hk' hdefined hb
    obtain ⟨out, out', hrun, hrun', houtput⟩ := ih hann.2 hinner hint hfields hcoherent hend rest rest'
      (fun p hp => by
        rw [hout]
        exact Nat.le_trans (Nat.add_le_add_left (Nat.le_max_right w₁ ws) _) (hroom p hp))
      (fun p hp => by
        rw [hout']
        exact Nat.le_trans (Nat.add_le_add_left (Nat.le_max_right w₁' ws') _) (hroom' p hp))
      hagree
    exact ⟨out, out', (Kernel.runAll_of_run hc).trans hrun, (Kernel.runAll_of_run hc').trans hrun',
      houtput⟩

end Chains

/-- **A block of a checked program**, with any two choices of kernels. -/
theorem Program.runAll_alike {p : Program} {r w : Shape} {inner : List Op} {ks ks' : List Kernel}
    {rm wm rm' wm' : Nat} (b b' : Block) (hp : p.analyse.Framed r w inner)
    (hwritten : checkWritten p.analyse.ops = .ok (.ok ()))
    (hint : ∀ op ∈ p.analyse.ops, op.onIntegers = true)
    (hfields : ∀ op ∈ p.analyse.ops, op.fieldsInReach = true)
    (hks : Linked p.analyse.ops ks rm wm) (hks' : Linked p.analyse.ops ks' rm' wm')
    (hin : Conversion.Room r b.input (r.bytesPerPlane blockPixels + rm))
    (hin' : Conversion.Room r b'.input (r.bytesPerPlane blockPixels + rm'))
    (hout : Conversion.Room w b.output (w.bytesPerPlane blockPixels + wm))
    (hout' : Conversion.Room w b'.output (w.bytesPerPlane blockPixels + wm'))
    (hinput : (Shape.mk r.elem r.layout.limited).Agree blockPixels b.input b'.input)
    (hb : Block.Alike (Quad.const true) b b') :
    ∃ out out', Kernel.runAll ks b = .ok out ∧ Kernel.runAll ks' b' = .ok out' ∧
      w.Agree blockPixels out.output out'.output := by
  obtain ⟨ri, wi, hops⟩ := hp.ops
  have hfront : ∀ op ∈ Op.mk r.elem (.read r.layout) ri :: inner, ∀ l, op.kind ≠ .write l :=
    List.forall_mem_cons.mpr ⟨fun _ h => (by cases h), fun op hop => Op.not_write (hp.inner op hop)⟩
  have hend := written_defined hops rfl (Layout.wellFormed_iff.mp hp.write).2.1
    (List.cons_ne_nil _ _) hfront hwritten
  rw [infoOf_cons] at hend
  have hann := annotated_analyse p
  rw [hops] at hann hint hfields hks hks'
  have hmem : ∀ op ∈ inner, op ∈ inner ++ [Op.mk w.elem (.write w.layout) wi] := fun op hop =>
    List.mem_append_left _ hop
  obtain ⟨-, hint⟩ := List.forall_mem_cons.mp hint
  obtain ⟨-, hfields⟩ := List.forall_mem_cons.mp hfields
  cases hks with
  | @cons _ word _ k _ r₁ w₁ rs ws hword hk rest =>
  cases hks' with
  | @cons _ word' _ k' _ r₁' w₁' rs' ws' hword' hk' rest' =>
  rw [onWords_transfer (l := r.layout) rfl hword] at hk
  rw [onWords_transfer (l := r.layout) rfl hword'] at hk'
  -- both start with the same registers
  have hstart : Block.Alike ((Op.mk r.elem (.read r.layout) ri).needs
      (needed (inner ++ [Op.mk w.elem (.write w.layout) wi]))) b b' :=
    ⟨fun i hi j _ => hb.pixel i hi j (Quad.get_const _ _), hb.x, hb.y⟩
  obtain ⟨c, c', hc, hc', halike, hsame, hsame'⟩ := hk.load_alike rfl hk' hp.read
    (fun p hp => Nat.le_trans (Nat.add_le_add_left (Nat.le_max_left r₁ rs) _) (hin p hp))
    (fun p hp => Nat.le_trans (Nat.add_le_add_left (Nat.le_max_left r₁' rs') _) (hin' p hp))
    hinput hstart
  obtain ⟨out, out', hrun, hrun', hagree⟩ := Annotated.runAll_alike rfl hp.write hann.2 hp.inner
    (fun op hop => hint op (hmem op hop)) (fun op hop => hfields op (hmem op hop))
    (Op.coherent_knownAfter Info.coherent_start) hend rest rest'
    (fun p hp => by
      rw [hsame]
      exact Nat.le_trans (Nat.add_le_add_left (Nat.le_max_right w₁ ws) _) (hout p hp))
    (fun p hp => by
      rw [hsame']
      exact Nat.le_trans (Nat.add_le_add_left (Nat.le_max_right w₁' ws') _) (hout' p hp))
    halike
  exact ⟨out, out', (Kernel.runAll_of_run hc).trans hrun, (Kernel.runAll_of_run hc').trans hrun',
    hagree⟩

namespace Chain

/-! ## 4. Views -/

section Runs

variable {p : Program} {r w : Shape} {inner : List Op} {chain chain' : Chain}
  (hp : p.analyse.Framed r w inner)
  (hwritten : Program.checkWritten p.analyse.ops = .ok (.ok ()))
  (hint : ∀ op ∈ p.analyse.ops, op.onIntegers = true)
  (hfields : ∀ op ∈ p.analyse.ops, op.fieldsInReach = true)
  (hlinked : Linked p.analyse.ops chain.links chain.readMargin chain.writeMargin)
  (hlinked' : Linked p.analyse.ops chain'.links chain'.readMargin chain'.writeMargin)

/-- The conversion that runs a chain between two shapes. -/
def between (r w : Shape) (chain : Chain) (backend : String) : Conversion :=
  ⟨.chain chain, r, w, blockPixels, chain.readMargin, chain.writeMargin, chain.needs, backend⟩

include hp hwritten hint hfields hlinked hlinked' in
/-- **A row**: both chains store the same bytes in each block. -/
theorem lockstep (backend backend' : String) (input : Quad Bytes) (width y : Nat) :
    Conversion.Lockstep (between r w chain backend) (between r w chain' backend') input input width y
      fun _ _ u v => u = v := by
  intro x _ _ src src' dst dst' piece piece' hsrc hsrc' hdst hdst' hrun hrun' q hq j hj _
  have hcount := (Layout.wellFormed_iff.mp hp.read).2.1
  have hinput : (Shape.mk r.elem r.layout.limited).Agree blockPixels src src' := by
    intro q hq i hi
    have hq : q.val < r.layout.planes := by
      have hq : q.val < r.layout.limited.planes := hq
      have hmin : r.layout.limited.count = r.layout.count := Nat.min_eq_left hcount
      unfold Layout.planes at hq ⊢
      rwa [hmin] at hq
    have hi : i < Conversion.scratchBytes := by
      have hle := Shape.bytesPerPlane_le (s := ⟨r.elem, r.layout.limited⟩) (Nat.min_le_right _ _)
        blockPixels
      have hblock : blockPixels = 32 := rfl
      have hscratch : Conversion.scratchBytes = 1024 := rfl
      omega
    exact (hsrc.byte q hq i hi).trans (hsrc'.byte q hq i hi).symm
  obtain ⟨out, out', hout, hout', hagree⟩ := Program.runAll_alike
    (Block.start src dst x y) (Block.start src' dst' x y) hp hwritten hint hfields hlinked hlinked'
    hsrc.room hsrc'.room hdst hdst' hinput ⟨fun _ _ _ _ => rfl, rfl, rfl⟩
  have hpiece : piece = out.output := by
    have hrun : (Kernel.runAll chain.links (Block.start src dst x y)).map Block.output = .ok piece :=
      hrun
    rw [hout] at hrun
    exact (Except.ok.inj hrun).symm
  have hpiece' : piece' = out'.output := by
    have hrun' : (Kernel.runAll chain'.links (Block.start src' dst' x y)).map Block.output =
      .ok piece' := hrun'
    rw [hout'] at hrun'
    exact (Except.ok.inj hrun').symm
  rw [hpiece, hpiece']
  exact hagree q hq j (Nat.lt_of_lt_of_le hj (Shape.bytesPerPlane_mono (Nat.min_le_left _ _)))

include hp hwritten hint hfields hlinked hlinked' in
/-- **All views.** -/
theorem run_eq_run (backend backend' : String) (src dst : View) (width : Nat) :
    (between r w chain' backend').run src dst width = (between r w chain backend).run src dst width ∧
      ((between r w chain backend).Measurable src dst width →
        ∃ out, (between r w chain backend).run src dst width = .ok out) := by
  have hrobust : (between r w chain backend).Robust := Chain.robust hp hlinked _ _
  have hrobust' : (between r w chain' backend').Robust := Chain.robust hp hlinked' _ _
  by_cases hm : (between r w chain backend).Measurable src dst width
  · obtain ⟨out, out', hrun, hrun', hframe, hframe', hbytes⟩ := Conversion.run_lockstep
      (fun _ _ u v => u = v) ⟨hrobust, hrobust', rfl, rfl, rfl⟩ hm.1 hm.2 rfl
      (fun row _ => lockstep hp hwritten hint hfields hlinked hlinked' backend backend' (src.row row)
        width (dst.firstRow + row))
      (fun _ _ _ => rfl)
    have heq : out' = out := (hframe'.trans hframe.symm).eq_of_bytes fun q i hi =>
      (hbytes q i (by rw [← hframe.size q]; exact hi)).symm
    rw [hrun, hrun', heq]
    exact ⟨rfl, fun _ => ⟨out, rfl⟩⟩
  · rw [Conversion.run_eq_error hrobust.notCopy hm, Conversion.run_eq_error hrobust'.notCopy hm]
    exact ⟨rfl, fun h => absurd h hm⟩

end Runs

/-! ## 5. Linking with one table and with two -/

section Tables

variable {p : Program} {cpu : CpuSet} {blockSize : Nat} {matched : List Match} {chain : Chain}

/-- The general table works on blocks of one size. -/
theorem blockSize_of_link (hops : p.ops ≠ [])
    (h : link p [Catalogue.generic] cpu blockSize = (matched, .ok chain)) :
    blockSize = blockPixels := by
  refine Decidable.byContradiction fun hne => ?_
  have hnone : usable [Catalogue.generic] cpu blockSize = [] := by
    refine List.filter_eq_nil_iff.mpr fun t ht => ?_
    rw [List.mem_singleton.mp ht]
    have hsize : (Catalogue.generic.blockSize == blockSize) = false :=
      beq_eq_false_iff_ne.mpr fun heq => hne heq.symm
    rw [hsize, Bool.or_false, show (Catalogue.generic.blockSize == 0) = false from rfl,
      Bool.and_false]
    decide
  obtain ⟨op, rest, hcons⟩ := List.exists_cons_of_ne_nil hops
  have hks := kernels?_of_link h
  rw [hnone, hcons] at hks
  obtain ⟨_, _, _, _, _, -, hfind, -⟩ := Table.kernels?_cons hks
  cases hfind

theorem usable_generic (cpu : CpuSet) :
    usable [Catalogue.generic] cpu blockPixels = [Catalogue.generic] := rfl

/-- **Every chain of general kernels.** -/
theorem link_generic (h : link p [Catalogue.generic] cpu blockPixels = (matched, .ok chain)) :
    Linked p.ops chain.links chain.readMargin chain.writeMargin ∧ p.ops.length ≤ maxLength := by
  refine linked_of_link (fun op unread e t k hfind hk => ?_) h
  rw [usable_generic] at hfind
  obtain ⟨⟨table, htable, he⟩, hpos⟩ := Catalogue.entry_of_find? hfind
  rw [List.mem_singleton.mp htable] at he
  obtain ⟨hs, hr, hw⟩ := Catalogue.generic_entry he hpos
  rw [hr, hw]
  exact .generic hs hk

/-- Operations that the general table links have general kernels. -/
theorem generic_of_kernels? : ∀ {ops : List Op} {unread : Quad Bool} {ks : List Kernel},
    Table.kernels? [Catalogue.generic] unread ops = some ks → ∀ op ∈ ops, ∃ word setup k,
      op.onWords = .ok word ∧ word.generic? = some setup ∧ setup word = .ok k
  | [], _, _, _ => fun _ hop => absurd hop List.not_mem_nil
  | op :: ops, unread, ks, h => by
    obtain ⟨word, e, t, k, ks', hword, hfind, hk, hrest, -⟩ := Table.kernels?_cons h
    exact List.forall_mem_cons.mpr ⟨⟨word, e.setup, k, hword, Catalogue.generic_of_find? hfind, hk⟩,
      generic_of_kernels? hrest⟩

/-- **What the general table links, both tables link.** -/
theorem exists_link_portable
    (h : link p [Catalogue.generic] cpu blockPixels = (matched, .ok chain)) :
    ∃ matched' chain', link p Catalogue.portable cpu blockPixels = (matched', .ok chain') := by
  have hgeneric := generic_of_kernels? (kernels?_of_link h)
  obtain ⟨-, hlength⟩ := link_generic h
  have hkernel : ∀ op ∈ p.ops, ∀ word, op.onWords = .ok word → ∃ setup k,
      word.generic? = some setup ∧ setup word = .ok k := by
    intro op hop word hword
    obtain ⟨word', setup, k, hword', hs, hk⟩ := hgeneric op hop
    cases hword.symm.trans hword'
    exact ⟨setup, k, hs, hk⟩
  obtain ⟨matched', result, hlink, hresult⟩ := linkFrom_outcome 0 (Quad.const true) empty hkernel
  rcases hresult with ⟨chain', rfl⟩ | ⟨-, hfull⟩ | ⟨op, hop, e, herror, -⟩
  · exact ⟨matched', chain', hlink⟩
  · have hempty : empty.links.length = 0 := rfl
    omega
  · obtain ⟨word, _, _, hword, -⟩ := hgeneric op hop
    rw [hword] at herror
    cases herror

end Tables

/-- **The choice of kernels does not show.** Let a program on integers pass the check with what is
known about it, where no field after a gap of its pattern is read. If the general table links it, so
do both tables together; and made into conversions, the two chains do the same on all views, for any
width. They come to an end unless the bytes of the pixels cannot be measured. -/
theorem link_portable_agrees {p : Program} {cpu : CpuSet} {blockSize : Nat} {matched : List Match}
    {chain : Chain} (hcheck : p.analyse.check = .ok (.ok ()))
    (hint : ∀ op ∈ p.ops, op.onIntegers = true)
    (hfields : ∀ op ∈ p.analyse.ops, op.fieldsInReach = true)
    (hlink : link p.analyse [Catalogue.generic] cpu blockSize = (matched, .ok chain))
    (backend backend' : String) :
    ∃ matched' chain' c c',
      link p.analyse Catalogue.portable cpu blockSize = (matched', .ok chain') ∧
      Conversion.ofChain p.analyse chain backend = .ok c ∧
      Conversion.ofChain p.analyse chain' backend' = .ok c' ∧
      ∀ src dst width, c'.run src dst width = c.run src dst width ∧
        (c.Measurable src dst width → ∃ out, c.run src dst width = .ok out) := by
  obtain ⟨r, w, inner, hp, hwritten⟩ := Program.check_eq_ok hcheck
  obtain ⟨ri, wi, hops⟩ := hp.ops
  obtain rfl := blockSize_of_link (by rw [hops]; exact List.cons_ne_nil _ _) hlink
  obtain ⟨matched', chain', hlink'⟩ := exists_link_portable hlink
  have hint := forall_of_codes Op.onIntegers_congr (Program.codes_analyse p).symm hint
  refine ⟨matched', chain', between r w chain backend, between r w chain' backend', hlink', ?_, ?_,
    run_eq_run hp (hwritten rfl) hint hfields (link_generic hlink).1 (link_portable hlink').1 backend
      backend'⟩
  · rw [Conversion.ofChain, hp.ends]
    rfl
  · rw [Conversion.ofChain, hp.ends]
    rfl

/-- Reverses three interleaved bytes per pixel; the special table has kernels for all of it. -/
def reversing : Program :=
  .ofOps [.ofKind .u8 (.read ⟨3, true, 0⟩),
    .ofKind .u8 (.clear ⟨none, none, none, some (Fraction.ofNat 255)⟩),
    .ofKind .u8 (.swizzle ⟨⟨2, 1, 0, 3⟩⟩), .ofKind .u8 (.write ⟨3, true, 0⟩)]

theorem reversing_link_agrees : reversing.analyse.check = .ok (.ok ()) ∧
    (∀ op ∈ reversing.ops, op.onIntegers = true) ∧
    (∀ op ∈ reversing.analyse.ops, op.fieldsInReach = true) ∧
    ∃ matched chain matched' chain' c c',
      link reversing.analyse [Catalogue.generic] CpuSet.none blockPixels = (matched, .ok chain) ∧
      link reversing.analyse Catalogue.portable CpuSet.none blockPixels = (matched', .ok chain') ∧
      Conversion.ofChain reversing.analyse chain "general" = .ok c ∧
      Conversion.ofChain reversing.analyse chain' "portable" = .ok c' ∧
      chain.readMargin = 0 ∧ chain'.readMargin = 1 ∧
      c'.run (Backend.twoRows (Backend.rising 215)) (Backend.twoRows (Bytes.zeros 215)) 35 =
        c.run (Backend.twoRows (Backend.rising 215)) (Backend.twoRows (Bytes.zeros 215)) 35 := by
  have hcheck : reversing.analyse.check = .ok (.ok ()) := rfl
  have hint : ∀ op ∈ reversing.ops, op.onIntegers = true := List.all_eq_true.mp rfl
  have hfields : ∀ op ∈ reversing.analyse.ops, op.fieldsInReach = true := List.all_eq_true.mp rfl
  obtain ⟨matched, chain, hlink, hmargin⟩ := exists_linked (p := reversing.analyse)
    [Catalogue.generic] CpuSet.none (g := readMargin) (a := 0) (by decide +kernel)
  obtain ⟨_, special, hspecial, hmargin'⟩ := exists_linked (p := reversing.analyse)
    Catalogue.portable CpuSet.none (g := readMargin) (a := 1) (by decide +kernel)
  obtain ⟨matched', chain', c, c', hlink', hc, hc', hruns⟩ := link_portable_agrees hcheck hint hfields
    hlink "general" "portable"
  obtain rfl : special = chain' := Except.ok.inj (Prod.mk.inj (hspecial.symm.trans hlink')).2
  exact ⟨hcheck, hint, hfields, matched, chain, matched', special, c, c', hlink, hlink', hc, hc',
    hmargin, hmargin', (hruns _ _ 35).1⟩

/-- Sets the second component and takes it through a pattern whose only field comes after a gap. -/
def lateField : Program :=
  .ofOps [.ofKind .u8 (.read ⟨1, false, 0⟩),
    .ofKind .u8 (.clear ⟨none, some (Fraction.ofNat 5), none, none⟩),
    .ofKind .u8 (.unpack ⟨0, 8, 0, 0⟩), .ofKind .u8 (.swizzle ⟨⟨1, 1, 1, 1⟩⟩),
    .ofKind .u8 (.write ⟨1, false, 0⟩)]

/-- A row of one block. -/
def blankRow : View := ⟨⟨Bytes.zeros 32, #[], #[], #[]⟩, ⟨32, 0, 0, 0⟩, 0, 1⟩

/-- What a chain makes of the row, if it is linked for the program. -/
def onBlankRow (chain : Chain) : Option Bytes :=
  (Conversion.ofChain lateField.analyse chain "").toOption.bind fun c =>
    (c.run blankRow blankRow 32).toOption.map fun out => out.planes 0

/-- **The choice of kernels shows in a field after a gap.** The constant counts as unread, so the
special table skips it; the general kernel sets it, and the pattern leaves it where it is stored. -/
theorem gapped_choice_shows : lateField.analyse.check = .ok (.ok ()) ∧
    (∀ op ∈ lateField.ops, op.onIntegers = true) ∧
    ∃ matched chain matched' chain',
      link lateField.analyse [Catalogue.generic] CpuSet.none blockPixels = (matched, .ok chain) ∧
      link lateField.analyse Catalogue.portable CpuSet.none blockPixels = (matched', .ok chain') ∧
      onBlankRow chain = some (Array.replicate 32 5) ∧
      onBlankRow chain' = some (Array.replicate 32 0) := by
  obtain ⟨matched, chain, hlink, hrow⟩ := exists_linked (p := lateField.analyse)
    [Catalogue.generic] CpuSet.none (g := onBlankRow) (a := some (Array.replicate 32 5))
    (by decide +kernel)
  obtain ⟨matched', chain', hlink', hrow'⟩ := exists_linked (p := lateField.analyse)
    Catalogue.portable CpuSet.none (g := onBlankRow) (a := some (Array.replicate 32 0))
    (by decide +kernel)
  exact ⟨rfl, List.all_eq_true.mp rfl, matched, chain, matched', chain', hlink, hlink', hrow, hrow'⟩

end Chain

end PixelConv
