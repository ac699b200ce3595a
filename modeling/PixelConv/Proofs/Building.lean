import PixelConv.Proofs.Simplification
import PixelConv.Proofs.Support

/-!
# What the portable backend builds

The portable backend takes exactly the programs whose operations can be run: what it builds was made
of operations that its kernels take or that move bytes (`Backend.runnable_of_build`), and it builds
every framed program of such operations (`Backend.portable_builds`). What it builds stores the
contents that the program writes (`Backend.portable_performs`).
-/

namespace PixelConv

/-! ## 1. Operations on integers -/

/-- An operation that computes with integers without bit fields: transfers of whole bytes or of
eight elements to a byte at most, conversions between integers, and scales by a known factor of all
but the widest element. -/
def Op.isIntegral (op : Op) : Bool :=
  op.elem.isInt &&
    match op.kind with
    | .read l | .write l => decide (l.frac ≤ 3)
    | .swapBytes | .clear _ | .shiftLeft _ | .shiftRight _ | .swizzle _ | .atMost _
    | .atLeast _ => true
    | .convert target _ => target.isInt
    | .scale factor => factor.isDefined && decide (op.elem ≠ .u32)
    | .unpack _ | .pack _ | .dither _ | .affine _ => false

namespace Op

variable {op word : Op}

theorem isInt_of_isIntegral (h : op.isIntegral = true) : op.elem.isInt = true :=
  (Bool.and_eq_true_iff.mp h).1

theorem frac_le_of_isIntegral {l : Layout} (h : op.isIntegral = true) (hl : op.transfer? = some l) :
    l.frac ≤ 3 := by
  obtain ⟨elem, kind, info⟩ := op
  cases kind with
  | read | write =>
    cases hl
    exact of_decide_eq_true (Bool.and_eq_true_iff.mp h).2
  | _ => cases hl

theorem isIntegral_congr {a b : Op} (hc : a.code = b.code) (h : a.isIntegral = true) :
    b.isIntegral = true := by
  obtain ⟨e, k, i⟩ := a
  obtain ⟨e', k', i'⟩ := b
  cases hc
  exact h

end Op

/-- Without scales of the widest element, nothing overflows. -/
theorem tame_of_scales {src : Quad Nat} : ∀ {ops : List Op},
    (∀ op ∈ ops, op.elem = .u32 → ∀ factor, op.kind ≠ .scale factor) → ∀ {v : Content}, Tame src ops v
  | [], _, _ => True.intro
  | op :: ops, h, v => by
    obtain ⟨hop, hops⟩ := List.forall_mem_cons.mp h
    exact ⟨fun i n _ _ hu f hf => absurd hf (hop hu f), tame_of_scales hops⟩

theorem Op.scale_of_isIntegral {op : Op} (h : op.isIntegral = true) (he : op.elem = .u32)
    (factor : Fraction) : op.kind ≠ .scale factor := by
  intro hf
  rw [Op.isIntegral, hf] at h
  have hne := (Bool.and_eq_true_iff.mp (Bool.and_eq_true_iff.mp h).2).2
  exact absurd he (of_decide_eq_true hne)

/-! ## 2. Operations that kernels take -/

/-- **An integer operation that gets a kernel is one that the kernels take.** -/
theorem Chosen.linkable {op word : Op} {k : Kernel} {r w : Nat} (hop : op.onWords = .ok word)
    (hk : Chosen word k r w) (hint : op.isIntegral = true) : op.Linkable := by
  have hi := Op.isInt_of_isIntegral hint
  have hs := hk.supported hop
  have hconstants := Op.holdsConstants_iff.mpr ⟨word, hop⟩
  obtain ⟨elem, kind, info⟩ := op
  have hi : elem.isInt = true := hi
  cases kind with
  | read l | write l =>
    refine ⟨rfl, hi, True.intro, fun _ h => Kind.noConfusion h, fun h => Kind.noConfusion h,
      fun l' hl hf => ?_⟩
    cases hl
    exact hs hf
  | swapBytes =>
    cases hop
    refine ⟨rfl, hi, True.intro, fun _ h => Kind.noConfusion h, fun _ he => ?_, fun l hl => ?_⟩
    · have he : elem = .u8 := he
      subst he
      cases hk with
      | generic hs => cases hs
      | loadTriples h | storeTriples h | clearAlpha h | swapEnds h | toUnit h | dot3 h => cases h
    · cases hl
  | clear values =>
    refine .of_constants hi fun i q hq => ?_
    rw [Elem.represents, if_pos hi]
    exact hconstants values rfl i q hq
  | shiftLeft n | shiftRight n =>
    exact .of_limits hi hi hs.2 (fun h => Verb.noConfusion h) (fun h => Verb.noConfusion h) rfl
  | scale f =>
    obtain ⟨hdef, hne⟩ := Bool.and_eq_true_iff.mp (Bool.and_eq_true_iff.mp hint).2
    have hden : f.den ≠ 0 := bne_iff_ne.mp hdef
    have hne : elem ≠ .u32 := of_decide_eq_true hne
    obtain ⟨hneg, hnum, hlt⟩ := hs hi
    have hpos := Fraction.num_nonneg hdef hneg
    exact .of_limits hi hi ⟨hpos, by omega, by omega, hlt, fun he => absurd he hne⟩
      (fun h => Verb.noConfusion h) (fun h => Verb.noConfusion h) rfl
  | swizzle =>
    exact .of_limits rfl hi True.intro (fun h => Verb.noConfusion h) (fun h => Verb.noConfusion h)
      rfl
  | atMost | atLeast =>
    exact .of_limits hi hi True.intro (fun h => Verb.noConfusion h) (fun h => Verb.noConfusion h) rfl
  | convert target expand =>
    have ht : target.isInt = true := (Bool.and_eq_true_iff.mp hint).2
    exact .of_limits (Bool.and_eq_true_iff.mpr ⟨hi, ht⟩) hi True.intro
      (fun h => Verb.noConfusion h) (fun h => Verb.noConfusion h) rfl
  | unpack | pack | dither | affine => cases (Bool.and_eq_true_iff.mp hint).2

theorem Linked.linkable {ops : List Op} {ks : List Kernel} {r w : Nat} (h : Linked ops ks r w)
    (hint : ∀ op ∈ ops, op.isIntegral = true) : ∀ op ∈ ops, op.Linkable := by
  induction h with
  | nil => exact fun op hop => absurd hop List.not_mem_nil
  | cons hop hk _ ih =>
    obtain ⟨hfirst, hrest⟩ := List.forall_mem_cons.mp hint
    exact List.forall_mem_cons.mpr ⟨hk.linkable hop hfirst, ih hrest⟩

theorem Op.Linkable.supported {op : Op} (h : op.Linkable) : op.Supported := by
  have hlim := h.limits
  have htransfer := h.transfer
  have hi := h.int
  have hexact := h.exact
  obtain ⟨elem, kind, info⟩ := op
  cases kind with
  | read l | write l => exact htransfer l rfl
  | shiftLeft | shiftRight => exact ⟨hi, hlim⟩
  | scale f =>
    obtain ⟨hnum, hlt, -, hden, -⟩ := hlim
    exact fun _ => ⟨Fraction.isNegative_of_num hnum, by omega, hden⟩
  | swapBytes | clear | swizzle | convert | atMost | atLeast => exact True.intro
  | unpack | pack | dither | affine => cases hexact

theorem Op.Linkable.holdsConstants {op : Op} (h : op.Linkable) : op.HoldsConstants :=
  fun values hk i q hq => Elem.word?_of_represents (h.constants values hk i q hq)

/-! ## 3. Operations that shuffles take -/

namespace Shuffle

variable {p : Program} {r w : Shape} {inner : List Op}

theorem chunk?_eq_of_isSome {s : Shape} (h : (chunk? s).isSome = true) :
    chunk? s = some (s.layout.count * s.elem.size) := by
  obtain ⟨n, hn⟩ := Option.isSome_iff_exists.mp h
  rw [hn, (chunk?_eq_some hn).2.1]

/-- The bytes of a pixel of a layout that exists fit into a lane. -/
theorem chunk_bounds {s : Shape} (h : s.layout.wellFormed = true) :
    0 < s.layout.count * s.elem.size ∧ s.layout.count * s.elem.size ≤ laneBytes := by
  obtain ⟨hpos, hle, -⟩ := Layout.wellFormed_iff.mp h
  exact ⟨Nat.mul_pos hpos (Shape.elem_size_pos s.elem),
    Nat.mul_le_mul hle (Shape.elem_size_le s.elem)⟩

/-- The solver answers for every framed program. -/
theorem exists_solve (hp : p.Framed r w inner) : ∃ answer, solve p laneBytes = .ok answer := by
  unfold solve
  rw [hp.source?, hp.destination?, hp.length]
  simp only
  split
  · rename_i readChunk writeChunk comps hr _ _
    have hchunk : 0 < readChunk := by
      rw [(chunk?_eq_some hr).2.1]
      exact (chunk_bounds hp.read).1
    rw [if_neg (by omega : ¬max readChunk writeChunk = 0)]
    split
    · exact ⟨_, rfl⟩
    · split
      · exact ⟨_, rfl⟩
      · exact ⟨_, rfl⟩
  · exact ⟨_, rfl⟩

/-- No byte of the output is undefined when the traces carry contents. -/
theorem outputBytes_defined {comps : Quad ByteTrace} {count size : Nat} {q : Pixel} {e : Elem}
    {v : Content} (hcarry : ∀ c : Fin 4, c.val < count → (comps c).Carries e size q (v c))
    (hv : ∀ c : Fin 4, c.val < count → (v c).isSome = true) :
    (outputBytes comps count).contains .undefined = false := by
  rw [Bool.eq_false_iff, ne_eq, List.contains_iff_mem, mem_outputBytes]
  rintro ⟨c, k, hc, hk, hplace⟩
  obtain ⟨n, hn⟩ := Option.isSome_iff_exists.mp (hv c hc)
  rw [(hcarry c hc).len] at hk
  exact (((hcarry c hc).defined n hn).2 k hk).1 hplace

/-- **Operations that move bytes are solved**, provided that what they write is defined. -/
theorem exists_solution (hp : p.Framed r w inner) (hmoves : ∀ op ∈ p.ops, op.MovesBytes)
    (htyped : TypedFrom r.elem p.ops) {q : Pixel} (hq : r.Holds q)
    (hdefined : ∀ c : Fin 4, c.val < w.layout.count → ((p.written q) c).isSome = true) :
    ∃ s, solve p laneBytes = .ok (some s) := by
  obtain ⟨ri, wi, hops⟩ := hp.ops
  rw [hops] at hmoves
  obtain ⟨hread, hmoves⟩ := List.forall_mem_cons.mp hmoves
  obtain ⟨hinner, hwrite⟩ := List.forall_mem_append.mp hmoves
  have hr := chunk?_eq_of_isSome hread
  have hw := chunk?_eq_of_isSome (hwrite _ List.mem_cons_self)
  obtain ⟨comps, hcomps⟩ := Option.isSome_iff_exists.mp
    ((foldlM_follow?_isSome_iff hp.inner (loaded r)).mpr hinner)
  have hcarry : ∀ c : Fin 4, c.val < w.layout.count →
      (comps c).Carries w.elem r.elem.size q ((p.written q) c) := fun c hc =>
    followed_carries hp htyped (chunk?_eq_some hr).1 hq hcomps hc
  have hbytes : (outputBytes comps w.layout.count).contains .undefined = false :=
    outputBytes_defined hcarry hdefined
  have hlen : comps.c0.len = w.elem.size := (hcarry 0 (Layout.wellFormed_iff.mp hp.write).1).len
  obtain ⟨hrpos, hrle⟩ := chunk_bounds hp.read
  obtain ⟨hwpos, hwle⟩ := chunk_bounds hp.write
  have hpixels : min laneBytes laneBytes /
      max (r.layout.count * r.elem.size) (w.layout.count * w.elem.size) ≠ 0 := by
    rw [Nat.min_self]
    exact Nat.ne_of_gt (Nat.div_pos (Nat.max_le.mpr ⟨hrle, hwle⟩)
      (Nat.lt_of_lt_of_le hrpos (Nat.le_max_left _ _)))
  unfold solve
  rw [hp.source?, hp.destination?, hp.length, hp.inner_eq]
  simp only [hr, hw, hcomps]
  rw [if_neg (fun h => h hlen.symm), if_neg (by omega), if_neg]
  · exact ⟨_, rfl⟩
  · rw [Bool.or_eq_true, not_or, decide_eq_true_eq]
    refine ⟨hpixels, ?_⟩
    rw [Bool.not_eq_true]
    exact hbytes

end Shuffle

/-! ## 4. Building -/

/-- Operations that move bytes transfer whole ones. -/
theorem Op.MovesBytes.frac_eq {op : Op} {l : Layout} (h : op.MovesBytes)
    (hl : op.transfer? = some l) : l.frac = 0 := by
  obtain ⟨elem, kind, info⟩ := op
  cases kind with
  | read | write =>
    cases hl
    obtain ⟨n, hn⟩ := Option.isSome_iff_exists.mp h
    exact (Shuffle.chunk?_eq_some hn).1
  | _ => cases hl

/-- Only bytes are divided by operations that can be run. -/
theorem Runnable.bytes {ops : List Op} (h : Runnable ops) {op : Op} (hop : op ∈ ops) {l : Layout}
    (hl : op.transfer? = some l) (hf : 0 < l.frac) : op.elem = .u8 := by
  rcases h with ⟨-, hlink⟩ | hmoves
  · exact (hlink op hop).transfer l hl hf
  · have hzero := (hmoves op hop).frac_eq hl
    omega

theorem Program.Framed.regular {p : Program} {r w : Shape} {inner : List Op}
    (hp : p.Framed r w inner) (hrun : Runnable p.ops)
    (hfrac : ∀ op ∈ p.ops, ∀ l, op.transfer? = some l → l.frac ≤ 3) : r.Regular ∧ w.Regular := by
  obtain ⟨ri, wi, hops⟩ := hp.ops
  have hfirst : ⟨r.elem, .read r.layout, ri⟩ ∈ p.ops := by
    rw [hops]
    exact List.mem_cons_self
  have hlast : ⟨w.elem, .write w.layout, wi⟩ ∈ p.ops := by
    rw [hops]
    exact List.mem_cons_of_mem _ (List.mem_append_right _ List.mem_cons_self)
  exact ⟨⟨hp.read, hfrac _ hfirst _ rfl, hrun.bytes hfirst rfl⟩,
    ⟨hp.write, hfrac _ hlast _ rfl, hrun.bytes hlast rfl⟩⟩

namespace Backend

variable {p : Program} {r w : Shape} {inner : List Op} {cpu : CpuSet} {matched : List Match}
  {c : Conversion}

/-- What is solved moves bytes. -/
theorem movesBytes_of_solved {s : Shuffle} {comps : Quad ByteTrace} (hp : p.Framed r w inner)
    (hs : Shuffle.Solved p s r w comps) : ∀ op ∈ p.ops, op.MovesBytes := by
  obtain ⟨ri, wi, hops⟩ := hp.ops
  rw [hops]
  refine List.forall_mem_cons.mpr ⟨?_, List.forall_mem_append.mpr ⟨hs.movesBytes hp,
    List.forall_mem_cons.mpr ⟨?_, fun _ h => absurd h List.not_mem_nil⟩⟩⟩
  · exact Option.isSome_iff_exists.mpr ⟨_, hs.readChunk⟩
  · exact Option.isSome_iff_exists.mpr ⟨_, hs.writeChunk⟩

/-- **What is built was made of operations that can be run.** -/
theorem runnable_of_build (hp : p.Framed r w inner) (hint : ∀ op ∈ p.ops, op.isIntegral = true)
    (hbuild : portable.build p cpu = .ok (matched, .ok c)) : Runnable p.ops := by
  rcases portable_build_eq_ok hp hbuild with ⟨s, comps, hs, -⟩ | ⟨chain, hlinked, hlength, -⟩
  · exact .inr (movesBytes_of_solved hp hs)
  · exact .inl ⟨hlength, hlinked.linkable hint⟩

/-- **What building a framed program of supported operations comes to**, if none of them swaps single
bytes: a conversion, or a refusal since there are too many operations or since one of them does not
hold its constants. -/
theorem portable_outcome (hp : p.Framed r w inner) (hsupported : ∀ op ∈ p.ops, op.Supported)
    (hswap : ∀ op ∈ p.ops, op.kind = .swapBytes → op.elem ≠ .u8) (cpu : CpuSet) :
    ∃ matched result, portable.build p cpu = .ok (matched, result) ∧
      ((∃ c, result = .ok c) ∨
        result = .error (.unsupported .chainFull) ∧ Chain.maxLength < p.ops.length ∨
        result = .error (.unsupported .clearOutOfRange) ∧ ∃ op ∈ p.ops, ¬op.HoldsConstants) := by
  obtain ⟨answer, hsolve⟩ := Shuffle.exists_solve hp
  cases answer with
  | some s =>
    simp only [portable, hsolve, Conversion.ofShuffle, hp.ends]
    exact ⟨_, _, rfl, .inl ⟨_, rfl⟩⟩
  | none =>
    obtain ⟨matched, result, hchain, hresult⟩ := Chain.linkFrom_outcome 0 (Quad.const true)
      Chain.empty fun op hop word hword => (hsupported op hop).setup (hswap op hop) hword
    rw [← Chain.usable_portable cpu] at hchain
    have hlink : Chain.link p Catalogue.portable cpu blockPixels = (matched, result) := hchain
    simp only [portable, hsolve, ofTables, hlink]
    refine ⟨matched, result >>= fun chain => Conversion.ofChain p chain "scalar", rfl, ?_⟩
    rcases hresult with ⟨chain, rfl⟩ | ⟨rfl, hlt⟩ | ⟨op, hop, e, he, rfl⟩
    · refine .inl ?_
      show ∃ c, Conversion.ofChain p chain "scalar" = .ok c
      rw [Conversion.ofChain, hp.ends]
      exact ⟨_, rfl⟩
    · rw [Chain.empty, List.length_nil, Nat.zero_add] at hlt
      exact .inr (.inl ⟨rfl, hlt⟩)
    · obtain rfl := Op.onWords_eq_error he
      refine .inr (.inr ⟨rfl, op, hop, fun hholds => ?_⟩)
      obtain ⟨word, hword⟩ := Op.holdsConstants_iff.mp hholds
      rw [hword] at he
      cases he

/-- **Every framed program of operations that can be run is built**, provided that what it writes is
defined. -/
theorem portable_builds (hp : p.Framed r w inner) (hrun : Runnable p.ops)
    (htyped : TypedFrom r.elem p.ops) {q : Pixel} (hq : r.Holds q)
    (hdefined : ∀ c : Fin 4, c.val < w.layout.count → ((p.written q) c).isSome = true)
    (cpu : CpuSet) : ∃ matched c, portable.build p cpu = .ok (matched, .ok c) := by
  rcases hrun with ⟨hlength, hlink⟩ | hmoves
  · obtain ⟨matched, result, hbuild, hresult⟩ := portable_outcome hp
      (fun op hop => (hlink op hop).supported) (fun op hop => (hlink op hop).swap) cpu
    rcases hresult with ⟨c, rfl⟩ | ⟨-, hlt⟩ | ⟨-, op, hop, hnot⟩
    · exact ⟨matched, c, hbuild⟩
    · omega
    · exact absurd (hlink op hop).holdsConstants hnot
  · obtain ⟨s, hs⟩ := Shuffle.exists_solution hp hmoves htyped hq hdefined
    simp only [portable, hs, Conversion.ofShuffle, hp.ends]
    exact ⟨_, _, rfl⟩

end Backend

/-! ## 5. What a conversion stores -/

/-- The conversion treats pixels from shape `r` to shape `w` one by one and stores what the program
writes, cut to the elements of the destination. -/
structure Conversion.Performs (c : Conversion) (p : Program) (r w : Shape)
    (f : Nat → Nat → Pixel → Pixel) : Prop where
  pixelwise : c.Pixelwise f
  read : c.read = r
  write : c.write = w
  stores : ∀ x y q, r.Holds q → ∀ k n, (p.written q) k = some n →
    ((f x y q) k).toNat = n % w.values

/-- **What the portable backend builds performs the program.** -/
theorem Backend.portable_performs {p : Program} {r w : Shape} {inner : List Op} {cpu : CpuSet}
    {matched : List Match} {c : Conversion} (hp : p.Framed r w inner)
    (hmarks : MarksUnread p.ops) (htyped : TypedFrom r.elem p.ops)
    (hexact : ∀ op ∈ p.ops, op.isExact = true) (hr : r.Regular) (hw : w.Regular)
    (hbuild : portable.build p cpu = .ok (matched, .ok c)) : ∃ f, c.Performs p r w f := by
  rcases portable_build_eq_ok hp hbuild with ⟨s, comps, hs, rfl⟩ | ⟨chain, hlinked, -, rfl⟩
  · refine ⟨_, Shuffle.pixelwise hs hp.read hp.write CpuSet.none "scalar", rfl, rfl,
      fun x y q hq k n hn => ?_⟩
    obtain ⟨-, hk, -⟩ := hp.written_eq_some hn
    rw [hs.toNat_onPixel hp htyped hq hk, Option.some.injEq] at hn
    rw [← hn]
    refine (Nat.mod_eq_of_lt ?_).symm
    have hfrac := (Shuffle.chunk?_eq_some hs.writeChunk).1
    rw [Shuffle.onPixel, Quad.get_map, Shape.values, if_neg (by omega)]
    exact Bytes.toNat_word_lt _ _ (Shape.elem_size_le w.elem)
  · obtain ⟨gs, hgs, hpix⟩ := Chain.pixelwise hp hlinked hr.frac_le hw.frac_le chain.needs "scalar"
    refine ⟨_, hpix, rfl, rfl, fun x y q hq k n hn => ?_⟩
    refine Chain.toNat_onPixel hp hgs hmarks htyped (fun op hop => hexact op ?_) hr hw hq x y hn
    obtain ⟨ri, wi, hops⟩ := hp.ops
    rw [hops]
    exact List.mem_cons_of_mem _ (List.mem_append_left _ hop)

end PixelConv
