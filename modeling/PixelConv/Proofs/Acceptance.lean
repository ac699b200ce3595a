import PixelConv.Proofs.Preservation

/-!
# Rules keep operations that can be run

Two sorts of integer operations are run by the portable backend: those that its kernels take
(`Op.Linkable`) and those that only move bytes (`Op.MovesBytes`). Main statements: the rules make
operations of either sort from operations of that sort (`Rewrites.linkable`, `Rewrites.movesBytes`),
and they keep the elements fitting together (`Rewrites.typed`). Except of transforms they never make
more operations than there were (`Rewrites.length_le`).
-/

namespace PixelConv

/-! ## 1. Two sorts of operations -/

/-- An integer operation that the portable kernels take. -/
structure Op.Linkable (op : Op) : Prop where
  exact : op.isExact = true
  int : op.elem.isInt = true
  limits : op.InLimits
  constants : op.ConstantsFit
  swap : op.kind = .swapBytes → op.elem ≠ .u8
  transfer : ∀ l, op.transfer? = some l → 0 < l.frac → op.elem = .u8

namespace Op

variable {op a b : Op}

theorem Linkable.target_isInt (h : op.Linkable) : op.target.isInt = true := by
  obtain ⟨elem, kind, info⟩ := op
  cases kind with
  | convert target expand => exact ((Bool.and_eq_true _ _).mp h.exact).2
  | _ => exact h.int

theorem Linkable.congr (hc : a.code = b.code) (h : a.Linkable) : b.Linkable :=
  of_code (fun _ h => ⟨h.exact, h.int, h.limits, h.constants, h.swap, h.transfer⟩) hc h

theorem MovesBytes.congr (hc : a.code = b.code) (h : a.MovesBytes) : b.MovesBytes :=
  of_code (fun _ h => h) hc h

theorem MovesBytes.limits (h : op.MovesBytes) : op.InLimits := by
  obtain ⟨elem, kind, info⟩ := op
  cases kind with
  | shiftLeft | shiftRight | scale => cases h
  | read | write | swapBytes | unpack | pack | clear | swizzle | convert | dither | affine | atMost
  | atLeast => exact True.intro

/-- The rules that look at bounds are not for operations that move bytes. -/
theorem MovesBytes.readsBounds (h : op.MovesBytes) : op.verb.readsBounds = false := by
  obtain ⟨elem, kind, info⟩ := op
  cases kind with
  | scale | atMost | atLeast => cases h
  | read | write | swapBytes | unpack | pack | clear | shiftLeft | shiftRight | swizzle | convert
  | dither | affine => rfl

end Op

/-! ## 2. Elements and lengths -/

theorem typedFrom_suffix {op : Op} {rest : List Op} :
    ∀ {pre : List Op} {e : Elem}, TypedFrom e (pre ++ op :: rest) →
      TypedFrom op.elem (op :: rest)
  | [], _, h => ⟨rfl, h.2⟩
  | _ :: _, _, h => typedFrom_suffix h.2

/-- A tail that starts with the same element can be exchanged. -/
theorem TypedFrom.replace {op : Op} {rest new : List Op} (hnew : TypedFrom op.elem new) :
    ∀ {pre : List Op} {e : Elem}, TypedFrom e (pre ++ op :: rest) → TypedFrom e (pre ++ new)
  | [], _, h => by
    rw [← h.1]
    exact hnew
  | _ :: _, _, h => ⟨h.1, TypedFrom.replace hnew h.2⟩

theorem Op.target_of_kind {op : Op} {k : Kind} (hk : op.kind = k) (hv : k.verb ≠ .convert) :
    op.target = op.elem := by
  rw [Op.target, hk]
  cases k with
  | convert => exact absurd rfl hv
  | _ => rfl

theorem Op.not_affine_of_isExact {op : Op} (h : op.isExact = true) : op.verb ≠ .affine := by
  obtain ⟨elem, kind, info⟩ := op
  cases kind with
  | affine => cases h
  | _ => exact fun hv => Verb.noConfusion hv

namespace Rewrites

variable {s : Site} {rule : Rule} {ops : List Op}

theorem typed_next {next : Op} {rest : List Op} (ht : TypedFrom s.op.elem (s.op :: s.after))
    (ha : s.after = next :: rest) : next.elem = s.op.target ∧ TypedFrom next.target rest := by
  have hafter := ht.2
  rw [ha] at hafter
  exact hafter

/-- **The elements still fit together.** -/
theorem typed (h : Rewrites s rule ops) (ht : TypedFrom s.op.elem (s.op :: s.after)) :
    TypedFrom s.op.elem ops := by
  -- an operation other than a conversion goes away, or two do
  have hdrop : ∀ {k : Kind}, s.op.kind = k → k.verb ≠ .convert →
      TypedFrom s.op.elem s.after := by
    intro k hk hv
    rw [← Op.target_of_kind hk hv]
    exact ht.2
  have hdrop₂ : ∀ {next : Op} {rest : List Op} {k k' : Kind}, s.after = next :: rest →
      s.op.kind = k → k.verb ≠ .convert → next.kind = k' → k'.verb ≠ .convert →
      TypedFrom s.op.elem rest := by
    intro next rest k k' ha hk hv hn hv'
    obtain ⟨he, hrest⟩ := typed_next ht ha
    rw [Op.target_of_kind hn hv', he, Op.target_of_kind hk hv] at hrest
    exact hrest
  cases h with
  | plainCopy hk ha _ hn | swapBytesPair hk ha _ hn | unpackPack hk ha _ hn =>
    exact hdrop₂ ha hk (fun hv => Verb.noConfusion hv) hn fun hv => Verb.noConfusion hv
  | readSingleElement hk | readUnusedPlanes hk | writeSingleElement hk | clearUnused hk
  | affineResetUnused hk | affineScalar hk | scaleShiftLeft hk | scaleShiftRight hk =>
    exact ⟨rfl, hdrop hk fun hv => Verb.noConfusion hv⟩
  | affineConstantRows hk | affineSwizzle hk =>
    exact ⟨rfl, rfl, hdrop hk fun hv => Verb.noConfusion hv⟩
  | swapBytesNoop hk | clearNoop hk | swizzleIdentity hk | ditherExact hk | affineIdentity hk
  | scaleNoop hk | clampAbove hk | clampBelow hk => exact hdrop hk fun hv => Verb.noConfusion hv
  | shiftNoop hk =>
    rcases hk with hk | hk
    · exact hdrop hk fun hv => Verb.noConfusion hv
    · exact hdrop hk fun hv => Verb.noConfusion hv
  | convertNoop hk =>
    have hafter := ht.2
    rw [Op.target, hk] at hafter
    exact hafter
  | shiftPairOverflow ha _ hk =>
    refine ⟨rfl, ?_⟩
    rcases hk with ⟨hk, hn⟩ | ⟨hk, hn⟩
    · exact hdrop₂ ha hk (fun hv => Verb.noConfusion hv) hn fun hv => Verb.noConfusion hv
    · exact hdrop₂ ha hk (fun hv => Verb.noConfusion hv) hn fun hv => Verb.noConfusion hv
  | shiftPairLeft hk ha _ hn | shiftPairRight hk ha _ hn | affinePair hk ha _ hn
  | scalePair hk ha _ hn =>
    exact ⟨rfl, hdrop₂ ha hk (fun hv => Verb.noConfusion hv) hn fun hv => Verb.noConfusion hv⟩
  | clearPair hk ha hn | swizzlePair hk ha hn =>
    exact ⟨rfl, hdrop₂ ha hk (fun hv => Verb.noConfusion hv) hn fun hv => Verb.noConfusion hv⟩
  | clearSwizzle hk ha _ | clearFold hk ha _ _ =>
    obtain ⟨he, hrest⟩ := typed_next ht ha
    rw [Op.target_of_kind hk fun hv => Verb.noConfusion hv] at he
    exact ⟨he, rfl, hrest⟩
  | swizzleCommute hk ha hn hm =>
    obtain ⟨he, hrest⟩ := typed_next ht ha
    obtain ⟨helem, -, htarget, -⟩ := Place.movedBefore?_eq_some hn hm
    rw [Op.target_of_kind hk fun hv => Verb.noConfusion hv] at he
    exact ⟨helem.trans he, htarget.symm, hrest⟩
  | convertPair hk ha _ hn _ =>
    obtain ⟨-, hrest⟩ := typed_next ht ha
    rw [Op.target, hn] at hrest
    exact ⟨rfl, hrest⟩
  | convertExpand hk ha he hn _ =>
    obtain ⟨-, hrest⟩ := typed_next ht ha
    rw [Op.target_of_kind hn fun hv => Verb.noConfusion hv, he] at hrest
    exact ⟨rfl, hrest⟩
  | scaleAfterConvert hk ha _ hn =>
    obtain ⟨he, hrest⟩ := typed_next ht ha
    rw [Op.target_of_kind hk fun hv => Verb.noConfusion hv] at he
    have htarget := Site.target_convert hn
    rw [htarget] at hrest
    exact ⟨he, htarget.symm, hrest⟩

/-- Only of a transform more operations are made than there were. -/
theorem length_le (h : Rewrites s rule ops) (hop : s.op.verb ≠ .affine) :
    ops.length ≤ (s.op :: s.after).length := by
  have haffine : ∀ {t : Affine}, s.op.kind = .affine t → ops.length ≤ (s.op :: s.after).length := by
    intro t hk
    rw [Op.verb, hk] at hop
    exact absurd rfl hop
  cases h with
  | plainCopy _ ha | swapBytesPair _ ha | unpackPack _ ha =>
    rw [ha, List.length_cons, List.length_cons]
    omega
  | readSingleElement | readUnusedPlanes | writeSingleElement | clearUnused | scaleShiftLeft
  | scaleShiftRight => exact Nat.le_refl _
  | swapBytesNoop | shiftNoop | clearNoop | swizzleIdentity | convertNoop | ditherExact | scaleNoop
  | clampAbove | clampBelow => exact Nat.le_succ _
  | shiftPairOverflow ha => rw [ha]; exact Nat.le_succ _
  | shiftPairLeft _ ha | shiftPairRight _ ha | clearPair _ ha | swizzlePair _ ha
  | convertPair _ ha | convertExpand _ ha | scalePair _ ha => rw [ha]; exact Nat.le_succ _
  | clearSwizzle _ ha | clearFold _ ha | swizzleCommute _ ha | scaleAfterConvert _ ha =>
    rw [ha]
    exact Nat.le_refl _
  | affineIdentity hk | affinePair hk | affineResetUnused hk | affineConstantRows hk
  | affineScalar hk | affineSwizzle hk => exact haffine hk

end Rewrites

/-! ## 3. Operations that kernels take -/

namespace Op.Linkable

variable {e : Elem} {info : Info}

/-- Operations other than transfers, constants and byte swaps. -/
theorem of_limits {k : Kind} (hexact : (Op.mk e k info).isExact = true) (hint : e.isInt = true)
    (hlim : (Op.mk e k info).InLimits) (hclear : k.verb ≠ .clear) (hswap : k.verb ≠ .swapBytes)
    (htransfer : (Op.mk e k info).transfer? = none) : (Op.mk e k info).Linkable := by
  refine ⟨hexact, hint, hlim, fun values hk => ?_, fun hk => ?_, fun l hl => ?_⟩
  · have hk : k = .clear values := hk
    rw [hk] at hclear
    exact absurd rfl hclear
  · have hk : k = .swapBytes := hk
    rw [hk] at hswap
    exact absurd rfl hswap
  · rw [htransfer] at hl
    cases hl

theorem of_constants {values : Constants} (hint : e.isInt = true)
    (h : ∀ i q, values i = some q → e.represents q = true) :
    (Op.mk e (.clear values) info).Linkable := by
  refine ⟨rfl, hint, True.intro, fun values' hk => ?_, fun hk => Kind.noConfusion hk, fun l hl => ?_⟩
  · cases hk
    exact h
  · cases hl

end Op.Linkable

namespace Rewrites

variable {s : Site} {rule : Rule} {ops : List Op}

/-- Moving a clamp before a swizzle changes its bounds only. -/
theorem movedBefore?_linkable {w : Swizzle} {next moved : Op} (hlink : next.Linkable)
    (hm : s.movedBefore? w next = some moved) : moved.Linkable := by
  obtain ⟨elem, kind, info⟩ := next
  cases kind with
  | atMost bounds | atLeast bounds =>
    obtain ⟨b, -, rfl⟩ := Option.map_eq_some_iff.mp hm
    exact .of_limits hlink.exact hlink.int True.intro (fun hv => Verb.noConfusion hv)
      (fun hv => Verb.noConfusion hv) rfl
  | _ =>
    cases hm
    exact hlink

/-- Two shifts that do not move every bit out together stay within the element. -/
theorem shiftSum_lt {n m : Nat} {next : Op} {rest : List Op} (ha : s.after = next :: rest)
    (he : next.elem = s.op.target)
    (hk : s.op.kind = .shiftLeft n ∧ next.kind = .shiftLeft m ∨
      s.op.kind = .shiftRight n ∧ next.kind = .shiftRight m)
    (hkept : s.shiftPairOverflow = none) : min 255 (n + m) < s.op.elem.bits := by
  obtain ⟨kind, hsum⟩ : ∃ kind, s.shiftSum? = some (min 255 (n + m), kind, rest) := by
    obtain ⟨elem, k, info⟩ := next
    rcases hk with ⟨hk, hn⟩ | ⟨hk, hn⟩
    · cases hn
      simp only [Site.shiftSum?, hk, Site.next?, ha, if_pos he]
      exact ⟨_, rfl⟩
    · cases hn
      simp only [Site.shiftSum?, hk, Site.next?, ha, if_pos he]
      exact ⟨_, rfl⟩
  rw [Site.shiftPairOverflow, hsum] at hkept
  simp only at hkept
  by_cases hle : s.op.elem.bits ≤ min 255 (n + m)
  · rw [if_pos hle] at hkept
    cases hkept
  · omega

/-- **The kernels take what a rule makes of operations that they take**, provided that shifts are
added only where they do not move every bit out. -/
theorem linkable (h : Rewrites s rule ops) (ht : TypedFrom s.op.elem (s.op :: s.after))
    (hops : ∀ op ∈ s.op :: s.after, op.Linkable)
    (hshift : rule = .shiftPair → s.shiftPairOverflow = none) : ∀ op ∈ ops, op.Linkable := by
  obtain ⟨hop, hafter⟩ := List.forall_mem_cons.mp hops
  have hnext : ∀ {next : Op} {rest : List Op}, s.after = next :: rest →
      next.Linkable ∧ (∀ op ∈ rest, op.Linkable) ∧ next.elem = s.op.target := by
    intro next rest ha
    obtain ⟨hn, hrest⟩ := Site.forall_next hafter ha
    exact ⟨hn, hrest, (typed_next ht ha).1⟩
  have hinexact : s.op.isExact = false → ∀ op ∈ ops, op.Linkable := by
    intro hf
    rw [hop.exact] at hf
    cases hf
  cases h with
  | plainCopy _ ha | swapBytesPair _ ha => exact (hnext ha).2.1
  | readSingleElement hk | readUnusedPlanes hk | writeSingleElement hk =>
    refine List.forall_mem_cons.mpr ⟨⟨rfl, hop.int, True.intro, fun values hv => Kind.noConfusion hv,
      fun hv => Kind.noConfusion hv, fun l hl hf => ?_⟩, hafter⟩
    cases hl
    have hbyte := hop.transfer _ (show s.op.transfer? = some _ by rw [Op.transfer?, hk])
    exact hbyte hf
  | swapBytesNoop | shiftNoop | clearNoop | swizzleIdentity | convertNoop | scaleNoop | clampAbove
  | clampBelow => exact hafter
  | shiftPairOverflow ha =>
    refine List.forall_mem_cons.mpr ⟨.of_constants hop.int fun i q hq => ?_, (hnext ha).2.1⟩
    rw [Quad.get_const] at hq
    cases hq
    refine (Elem.represents_iff hop.int).mpr ?_
    rw [Elem.content_of_isZero rfl]
    exact ⟨rfl, Nat.two_pow_pos _⟩
  | shiftPairLeft hk ha he hn =>
    exact List.forall_mem_cons.mpr ⟨.of_limits hop.int hop.int
      (shiftSum_lt ha he (.inl ⟨hk, hn⟩) (hshift rfl)) (fun hv => Verb.noConfusion hv)
      (fun hv => Verb.noConfusion hv) rfl, (hnext ha).2.1⟩
  | shiftPairRight hk ha he hn =>
    exact List.forall_mem_cons.mpr ⟨.of_limits hop.int hop.int
      (shiftSum_lt ha he (.inr ⟨hk, hn⟩) (hshift rfl)) (fun hv => Verb.noConfusion hv)
      (fun hv => Verb.noConfusion hv) rfl, (hnext ha).2.1⟩
  | clearUnused hk =>
    refine List.forall_mem_cons.mpr ⟨.of_constants hop.int fun i q hq => ?_, hafter⟩
    simp only [Constants.pruned, Quad.get_ofFn] at hq
    split at hq
    · cases hq
    · rename_i q' hv
      split at hq
      · cases hq
      · cases hq
        exact hop.constants _ hk i q hv
  | @clearPair values later next rest hk ha hn =>
    obtain ⟨hlink, hrest, he⟩ := hnext ha
    rw [Op.target_of_kind hk fun hv => Verb.noConfusion hv] at he
    refine List.forall_mem_cons.mpr ⟨.of_constants hop.int fun i q hq => ?_, hrest⟩
    rw [Quad.get_zipWith] at hq
    cases hl : later i with
    | some q' =>
      rw [hl] at hq
      cases hq
      rw [← he]
      exact hlink.constants later hn i q hl
    | none =>
      rw [hl] at hq
      exact hop.constants values hk i q hq
  | clearSwizzle hk ha hn =>
    obtain ⟨hlink, hrest, he⟩ := hnext ha
    rw [Op.target_of_kind hk fun hv => Verb.noConfusion hv] at he
    refine List.forall_mem_cons.mpr ⟨hlink, List.forall_mem_cons.mpr
      ⟨.of_constants hlink.target_isInt fun i q hq => ?_, hrest⟩⟩
    rw [Swizzle.get_apply] at hq
    rw [Op.target_of_kind hn fun hv => Verb.noConfusion hv, he]
    exact hop.constants _ hk _ q hq
  | clearFold hk ha hv hf =>
    obtain ⟨hlink, hrest, -⟩ := hnext ha
    refine List.forall_mem_cons.mpr ⟨hlink, List.forall_mem_cons.mpr
      ⟨.of_constants hlink.target_isInt fun i q hq => ?_, hrest⟩⟩
    exact Op.represents_of_foldConsts? hf hq
  | swizzlePair hk ha =>
    exact List.forall_mem_cons.mpr ⟨.of_limits rfl hop.int True.intro
      (fun hv => Verb.noConfusion hv) (fun hv => Verb.noConfusion hv) rfl, (hnext ha).2.1⟩
  | swizzleCommute hk ha hn hm =>
    obtain ⟨hlink, hrest, -⟩ := hnext ha
    refine List.forall_mem_cons.mpr ⟨?_, List.forall_mem_cons.mpr ⟨.of_limits rfl
      hlink.target_isInt True.intro (fun hv => Verb.noConfusion hv)
      (fun hv => Verb.noConfusion hv) rfl, hrest⟩⟩
    exact movedBefore?_linkable hlink hm
  | convertPair hk ha he hn =>
    obtain ⟨hlink, hrest, -⟩ := hnext ha
    have ht := hlink.target_isInt
    rw [Site.target_convert hn] at ht
    exact List.forall_mem_cons.mpr ⟨.of_limits ((Bool.and_eq_true _ _).mpr ⟨hop.int, ht⟩) hop.int
      True.intro (fun hv => Verb.noConfusion hv) (fun hv => Verb.noConfusion hv) rfl, hrest⟩
  | convertExpand hk ha =>
    have ht := hop.target_isInt
    rw [Site.target_convert hk] at ht
    exact List.forall_mem_cons.mpr ⟨.of_limits ((Bool.and_eq_true _ _).mpr ⟨hop.int, ht⟩) hop.int
      True.intro (fun hv => Verb.noConfusion hv) (fun hv => Verb.noConfusion hv) rfl,
      (hnext ha).2.1⟩
  | scalePair hk ha he hn hf =>
    obtain ⟨hlink, hrest, -⟩ := hnext ha
    obtain ⟨-, -, hnum, -⟩ := Place.of_scale hop.exact hop.limits hk
    obtain ⟨-, -, hnum', -⟩ := Place.of_scale hlink.exact hlink.limits hn
    rcases hf with hf | ⟨hf, hf', -, hlt⟩
    · rw [hop.int] at hf
      cases hf
    rw [Fraction.eq_ofNat_of_isInteger hf hnum, Fraction.eq_ofNat_of_isInteger hf' hnum'] at hlt ⊢
    obtain ⟨hmul, hlt⟩ := Fraction.mul_eq_ofNat hlt
    rw [hmul]
    refine List.forall_mem_cons.mpr ⟨.of_limits hop.int hop.int ⟨Int.natCast_nonneg _, ?_,
      Nat.one_pos, by show 1 < 2 ^ 32; decide, fun _ => rfl⟩ (fun hv => Verb.noConfusion hv)
      (fun hv => Verb.noConfusion hv) rfl, hrest⟩
    exact Int.ofNat_lt.mpr hlt
  | scaleAfterConvert hk ha _ hn hs ht _ hf _ =>
    obtain ⟨hlink, hrest, -⟩ := hnext ha
    have hlim := hop.limits
    rw [Op.InLimits, hk] at hlim
    refine List.forall_mem_cons.mpr ⟨hlink, List.forall_mem_cons.mpr
      ⟨.of_limits ht ht ⟨hlim.1, hlim.2.1, hlim.2.2.1, hlim.2.2.2.1, fun _ => ?_⟩
        (fun hv => Verb.noConfusion hv) (fun hv => Verb.noConfusion hv) rfl, hrest⟩⟩
    exact beq_iff_eq.mp hf
  | scaleShiftLeft hk hi hp hb | scaleShiftRight hk hi hp hb =>
    exact List.forall_mem_cons.mpr ⟨.of_limits hi hi hb (fun hv => Verb.noConfusion hv)
      (fun hv => Verb.noConfusion hv) rfl, hafter⟩
  | unpackPack hk | ditherExact hk | affineIdentity hk | affinePair hk | affineResetUnused hk
  | affineConstantRows hk | affineScalar hk | affineSwizzle hk =>
    exact hinexact (by rw [Op.isExact, hk])

end Rewrites

/-! ## 4. Operations that move bytes -/

/-- The two constants that fill every byte of an integer alike. -/
theorem Shuffle.fill?_isSome_iff {e : Elem} (he : e.isInt = true) {c : Nat} :
    (fill? e (Fraction.ofNat c)).isSome = true ↔ c = 0 ∨ c = 2 ^ e.bits - 1 := by
  have hzero : (Fraction.ofNat c).isZero = decide (c = 0) := by
    show (true && ((c : Int) == 0)) = decide (c = 0)
    rw [Bool.true_and, Bool.eq_iff_iff, beq_iff_eq, decide_eq_true_eq]
    omega
  have hmax : e.max? = some (Fraction.ofNat c) ↔ c = 2 ^ e.bits - 1 := by
    rw [Elem.max?_of_isInt he, Option.some.injEq]
    constructor
    · intro h
      exact (Int.ofNat_inj.mp (congrArg Fraction.num h)).symm
    · intro h
      rw [h]
  unfold fill?
  rw [hzero]
  by_cases hc : c = 0
  · rw [if_pos (decide_eq_true hc)]
    exact ⟨fun _ => .inl hc, fun _ => rfl⟩
  · rw [if_neg (by rw [decide_eq_true_eq]; exact hc)]
    by_cases htop : c = 2 ^ e.bits - 1
    · rw [if_pos (hmax.mpr htop)]
      exact ⟨fun _ => .inr htop, fun _ => rfl⟩
    · rw [if_neg fun h => htop (hmax.mp h)]
      exact ⟨fun h => Bool.noConfusion h, fun h => absurd h (not_or.mpr ⟨hc, htop⟩)⟩

theorem Elem.top_mul_spread {source target : Elem} (hs : source.isInt = true)
    (ht : target.isInt = true) (hle : source.size ≤ target.size) :
    (2 ^ source.bits - 1) * source.spread target true = 2 ^ target.bits - 1 := by
  revert hs ht hle
  cases source <;> cases target <;> decide

/-- A conversion that moves bytes takes fillings to fillings. -/
theorem Op.MovesBytes.fill_of_fold {next : Op} (hnext : next.MovesBytes)
    (hv : next.verb.passesConstants = true) {values moved : Constants}
    (hvalues : ∀ i q, values i = some q → (Shuffle.fill? next.elem q).isSome = true)
    (hf : next.foldConsts? values = .ok (some moved)) {i : Fin 4} {q : Fraction} (hq : moved i = some q) :
    (Shuffle.fill? next.target q).isSome = true := by
  have hexact := hnext.exact
  have hlimits := hnext.limits
  obtain ⟨elem, kind, info⟩ := next
  cases kind with
  | convert target expand =>
    obtain ⟨rfl, hs, ht, hle⟩ := hnext
    rcases Op.foldConsts?_eq_some hf i with ⟨-, hnone⟩ | ⟨c, hvi, hrep, hmoved, -⟩
    · rw [hnone] at hq
      cases hq
    rw [hmoved] at hq
    cases hq
    obtain ⟨hc, hlt⟩ := (Elem.represents_iff hs).mp hrep
    have hfill := hvalues i c hvi
    generalize (Op.mk elem (.convert target true) info).elem.content c = n at hc hlt
    rw [hc, Shuffle.fill?_isSome_iff hs] at hfill
    rw [Op.eval_eq_onComponent hexact hv (by rw [Quad.get_map, hvi, Option.getD_some, hc]) hlt
      True.intro]
    refine (Shuffle.fill?_isSome_iff ht).mpr ?_
    have htop := Elem.top_mul_spread hs ht hle
    show min (n * elem.spread target true) (2 ^ target.bits - 1) = 0 ∨
      min (n * elem.spread target true) (2 ^ target.bits - 1) = 2 ^ target.bits - 1
    rcases hfill with rfl | rfl
    · rw [Nat.zero_mul]
      exact .inl (Nat.zero_min _)
    · have htop : (2 ^ (Op.mk elem (.convert target true) info).elem.bits - 1) *
          elem.spread target true = 2 ^ target.bits - 1 := htop
      rw [htop, Nat.min_self]
      exact .inr rfl
  | shiftLeft | shiftRight | scale | atMost | atLeast => cases hnext
  | read | write | swapBytes | unpack | pack | clear | swizzle | dither | affine => cases hv

namespace Rewrites

variable {s : Site} {rule : Rule} {ops : List Op}

/-- A single component of whole bytes can be transferred without interleaving. -/
theorem chunk?_single {e : Elem} {l : Layout} (h : (Shuffle.chunk? ⟨e, l⟩).isSome = true)
    (hc : l.count = 1) : (Shuffle.chunk? ⟨e, { l with packed := false }⟩).isSome = true := by
  obtain ⟨n, hn⟩ := Option.isSome_iff_exists.mp h
  obtain ⟨hf, -⟩ := Shuffle.chunk?_eq_some hn
  have hf : l.frac = 0 := hf
  simp only [Shuffle.chunk?, hf, hc, decide_true, Bool.true_and, Bool.false_or, beq_self_eq_true,
    if_true]
  rfl

theorem movedBefore?_movesBytes {w : Swizzle} {next moved : Op} (hmoves : next.MovesBytes)
    (hm : s.movedBefore? w next = some moved) : moved.MovesBytes := by
  obtain ⟨elem, kind, info⟩ := next
  cases kind with
  | atMost bounds | atLeast bounds => cases hmoves
  | _ =>
    cases hm
    exact hmoves

/-- **What a rule makes of operations that move bytes moves bytes.** -/
theorem movesBytes (h : Rewrites s rule ops) (ht : TypedFrom s.op.elem (s.op :: s.after))
    (hops : ∀ op ∈ s.op :: s.after, op.MovesBytes) : ∀ op ∈ ops, op.MovesBytes := by
  obtain ⟨hop, hafter⟩ := List.forall_mem_cons.mp hops
  have hnext : ∀ {next : Op} {rest : List Op}, s.after = next :: rest →
      next.MovesBytes ∧ (∀ op ∈ rest, op.MovesBytes) ∧ next.elem = s.op.target := by
    intro next rest ha
    obtain ⟨hn, hrest⟩ := Site.forall_next hafter ha
    exact ⟨hn, hrest, (typed_next ht ha).1⟩
  cases h with
  | plainCopy _ ha | swapBytesPair _ ha => exact (hnext ha).2.1
  | readSingleElement hk _ hc | writeSingleElement hk _ hc =>
    rw [Op.MovesBytes, hk] at hop
    exact List.forall_mem_cons.mpr ⟨chunk?_single hop hc, hafter⟩
  | readUnusedPlanes hk hp hu hlt =>
    -- a plane of its own for each component, and only one of them
    rw [Op.MovesBytes, hk] at hop
    obtain ⟨n, hn⟩ := Option.isSome_iff_exists.mp hop
    obtain ⟨-, -, hplanes, -⟩ := Shuffle.chunk?_eq_some hn
    simp only [Layout.planes, hp, Bool.false_eq_true, if_false] at hplanes
    have := (Site.usedPlanes_eq_ok hu).1
    omega
  | swapBytesNoop | clearNoop | swizzleIdentity | convertNoop => exact hafter
  | clearUnused hk =>
    rw [Op.MovesBytes, hk] at hop
    refine List.forall_mem_cons.mpr ⟨fun i q hq => ?_, hafter⟩
    simp only [Constants.pruned, Quad.get_ofFn] at hq
    split at hq
    · cases hq
    · rename_i q' hv
      split at hq
      · cases hq
      · cases hq
        exact hop i q hv
  | @clearPair values later next rest hk ha hn =>
    obtain ⟨hmoves, hrest, he⟩ := hnext ha
    rw [Op.target_of_kind hk fun hv => Verb.noConfusion hv] at he
    rw [Op.MovesBytes, hk] at hop
    rw [Op.MovesBytes, hn, he] at hmoves
    refine List.forall_mem_cons.mpr ⟨fun i q hq => ?_, hrest⟩
    rw [Quad.get_zipWith] at hq
    cases hl : later i with
    | some q' =>
      rw [hl] at hq
      cases hq
      exact hmoves i q hl
    | none =>
      rw [hl] at hq
      exact hop i q hq
  | clearSwizzle hk ha hn =>
    obtain ⟨hmoves, hrest, he⟩ := hnext ha
    rw [Op.target_of_kind hk fun hv => Verb.noConfusion hv] at he
    rw [Op.MovesBytes, hk] at hop
    refine List.forall_mem_cons.mpr ⟨hmoves, List.forall_mem_cons.mpr ⟨fun i q hq => ?_, hrest⟩⟩
    rw [Swizzle.get_apply] at hq
    show (Shuffle.fill? _ q).isSome = true
    rw [Op.target_of_kind hn fun hv => Verb.noConfusion hv, he]
    exact hop _ q hq
  | clearFold hk ha hv hf =>
    obtain ⟨hmoves, hrest, he⟩ := hnext ha
    rw [Op.target_of_kind hk fun hv => Verb.noConfusion hv] at he
    rw [Op.MovesBytes, hk, ← he] at hop
    exact List.forall_mem_cons.mpr ⟨hmoves, List.forall_mem_cons.mpr
      ⟨fun i q hq => hmoves.fill_of_fold hv hop hf hq, hrest⟩⟩
  | swizzlePair hk ha => exact List.forall_mem_cons.mpr ⟨True.intro, (hnext ha).2.1⟩
  | swizzleCommute hk ha hn hm =>
    obtain ⟨hmoves, hrest, -⟩ := hnext ha
    refine List.forall_mem_cons.mpr ⟨?_, List.forall_mem_cons.mpr ⟨True.intro, hrest⟩⟩
    exact movedBefore?_movesBytes hmoves hm
  | convertPair hk ha he hn =>
    obtain ⟨hmoves, hrest, -⟩ := hnext ha
    rw [Op.MovesBytes, hk] at hop
    rw [Op.MovesBytes, hn, he] at hmoves
    exact List.forall_mem_cons.mpr ⟨⟨hop.1, hop.2.1, hmoves.2.2.1,
      Nat.le_trans hop.2.2.2 hmoves.2.2.2⟩, hrest⟩
  | convertExpand hk =>
    rw [Op.MovesBytes, hk] at hop
    cases hop.1
  | shiftNoop hk =>
    rcases hk with hk | hk
    · rw [Op.MovesBytes, hk] at hop
      cases hop
    · rw [Op.MovesBytes, hk] at hop
      cases hop
  | shiftPairOverflow _ _ hk =>
    rcases hk with ⟨hk, -⟩ | ⟨hk, -⟩
    · rw [Op.MovesBytes, hk] at hop
      cases hop
    · rw [Op.MovesBytes, hk] at hop
      cases hop
  | unpackPack hk | shiftPairLeft hk | shiftPairRight hk | ditherExact hk | affineIdentity hk
  | affinePair hk | affineResetUnused hk | affineConstantRows hk | affineScalar hk
  | affineSwizzle hk | scaleNoop hk | scalePair hk | scaleAfterConvert hk | scaleShiftLeft hk
  | scaleShiftRight hk | clampAbove hk | clampBelow hk =>
    rw [Op.MovesBytes, hk] at hop
    cases hop

end Rewrites

end PixelConv
