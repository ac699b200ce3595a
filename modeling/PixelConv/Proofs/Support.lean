import PixelConv.Proofs.Acceptance

/-!
# Operations that the portable kernels take

For every operation, of floats as well as of integers, `Op.Supported` says when the portable kernels
take it, whatever its constants are, and `Op.HoldsConstants` when there are words for its constants.
An operation that got a kernel is supported (`Chosen.supported`), and a supported one gets a kernel
if it holds its constants (`Op.Supported.setup`). Main statements: what a rule makes of supported
operations is supported (`Rewrites.supported`), and where the elements fit together it holds its
constants if the old operations did (`Rewrites.holdsConstants`).
-/

namespace PixelConv

/-! ## 1. Two conditions on one operation -/

namespace Op

/-- The portable kernels take the operation, its constants aside. Swaps of single bytes count as well,
though there is no kernel for them: simplification leaves none. -/
def Supported (op : Op) : Prop :=
  match op.kind with
  | .read l | .write l => 0 < l.frac → op.elem = .u8
  | .unpack widths | .pack widths => op.elem.isInt = true ∧ widths.toList.sum ≤ op.elem.bits
  | .shiftLeft n | .shiftRight n => op.elem.isInt = true ∧ n < op.elem.bits
  | .dither d => op.elem.isInt = false ∧ d.sideLog2 ≤ 8 ∧ d.entries.size = d.size * d.size
  | .affine _ => op.elem.isInt = false
  | .scale factor => op.elem.isInt = true →
    factor.isNegative = false ∧ factor.num.natAbs < 2 ^ (32 : Nat) ∧ factor.den < 2 ^ (32 : Nat)
  | .swapBytes | .clear _ | .swizzle _ | .convert _ _ | .atMost _ | .atLeast _ => True

/-- There is a word for every constant. -/
def HoldsConstants (op : Op) : Prop :=
  ∀ values, op.kind = .clear values → ∀ i q, values i = some q → (op.elem.word? q).isSome = true

variable {op word a b : Op}

theorem Supported.congr (h : a.code = b.code) (ha : a.Supported) : b.Supported :=
  of_code (fun _ h => h) h ha

theorem HoldsConstants.congr (h : a.code = b.code) (ha : a.HoldsConstants) : b.HoldsConstants :=
  of_code (fun _ h => h) h ha

theorem holdsConstants_of_verb (h : op.verb ≠ .clear) : op.HoldsConstants := by
  intro values hk
  rw [Op.verb, hk] at h
  exact absurd rfl h

theorem holdsConstants_of_clear {values : Constants} (hk : op.kind = .clear values)
    (h : ∀ i q, values i = some q → (op.elem.word? q).isSome = true) : op.HoldsConstants := by
  intro values' hk'
  rw [hk] at hk'
  cases hk'
  exact h

/-- An operation can be moved onto words if it holds its constants. -/
theorem holdsConstants_iff : op.HoldsConstants ↔ ∃ word, op.onWords = .ok word := by
  by_cases hv : op.verb = .clear
  · obtain ⟨elem, kind, info⟩ := op
    cases kind with
    | clear values =>
      constructor
      · intro h
        have hwords : ∃ words, values.words? elem = some words := by
          unfold Constants.words?
          rw [if_pos]
          · exact ⟨_, rfl⟩
          · refine Quad.all_iff.mpr fun i => ?_
            rw [Quad.get_map]
            cases hi : values i with
            | none => rfl
            | some q => exact h values rfl i q hi
        obtain ⟨words, hwords⟩ := hwords
        exact ⟨_, onWords_of_words? hwords info⟩
      · rintro ⟨word, hword⟩
        obtain ⟨words, hwords, -⟩ := onWords_clear rfl hword
        refine holdsConstants_of_clear rfl fun i q hq => ?_
        rcases Constants.words?_eq_some hwords i with ⟨hnone, -⟩ | ⟨q', w, hsome, hw, -⟩
        · rw [hq] at hnone
          cases hnone
        · rw [hq] at hsome
          cases hsome
          exact Option.isSome_iff_exists.mpr ⟨w, hw⟩
    | _ => cases hv
  · refine ⟨fun _ => ?_, fun _ => holdsConstants_of_verb hv⟩
    obtain ⟨elem, kind, info⟩ := op
    cases kind with
    | clear => exact absurd rfl hv
    | _ => exact ⟨_, rfl⟩

theorem onWords_eq_error {e : CompileError} (h : op.onWords = .error e) :
    e = .unsupported .clearOutOfRange := by
  unfold onWords at h
  split at h
  · split at h
    · split at h
      · cases h
      · exact (Except.error.inj h).symm
    · cases h
  · cases h

end Op

/-! ## 2. Getting a kernel -/

/-- Only bytes are divided among several elements. -/
theorem Setup.transfer_iff {op : Op} {l : Layout} (hl : op.transfer? = some l) :
    (∃ l', Setup.transfer op = .ok l') ↔ (0 < l.frac → op.elem = .u8) := by
  rw [Setup.transfer, hl]
  simp only
  split
  · rename_i hcond
    simp only [Bool.and_eq_true, decide_eq_true_eq] at hcond
    refine ⟨fun h => ?_, fun h => absurd (h hcond.1) hcond.2⟩
    obtain ⟨l', hl'⟩ := h
    cases hl'
  · rename_i hcond
    simp only [Bool.and_eq_true, decide_eq_true_eq, not_and, Decidable.not_not] at hcond
    exact ⟨fun _ => hcond, fun _ => ⟨_, rfl⟩⟩

/-- **An operation that got a kernel is supported.** -/
theorem Chosen.supported {op word : Op} {k : Kernel} {r w : Nat} (hop : op.onWords = .ok word)
    (hk : Chosen word k r w) : op.Supported := by
  obtain ⟨elem, kind, info⟩ := op
  cases kind with
  | read l | write l =>
    obtain rfl := onWords_transfer rfl hop
    cases hk with
    | generic hs hk =>
      cases hs
      obtain ⟨l', ht, -⟩ := exists_of_map_eq_ok hk
      exact (Setup.transfer_iff rfl).mp ⟨l', ht⟩
    | loadTriples _ he | storeTriples _ he => exact fun _ => he
    | clearAlpha h | swapEnds h | toUnit h | dot3 h => cases h
  | unpack widths | pack widths =>
    cases hop
    cases hk with
    | generic hs hk =>
      simp only [Op.generic?, Op.verb, Kind.verb] at hs
      split at hs
      · rename_i hi
        cases hs
        obtain ⟨f, hf, -⟩ := exists_of_map_eq_ok hk
        unfold Setup.fields at hf
        split at hf
        · cases hf
        · rename_i hwide
          exact ⟨hi, Nat.not_lt.mp hwide⟩
      · cases hs
    | loadTriples h | storeTriples h | clearAlpha h | swapEnds h | toUnit h | dot3 h => cases h
  | shiftLeft n | shiftRight n =>
    cases hop
    cases hk with
    | generic hs hk =>
      simp only [Op.generic?, Op.verb, Kind.verb] at hs
      split at hs
      · rename_i hi
        cases hs
        obtain ⟨a, ha, -⟩ := exists_of_map_eq_ok hk
        unfold Setup.shiftAmount at ha
        split at ha
        · cases ha
        · rename_i hwide
          exact ⟨hi, Nat.not_le.mp hwide⟩
      · cases hs
    | loadTriples h | storeTriples h | clearAlpha h | swapEnds h | toUnit h | dot3 h => cases h
  | dither d =>
    cases hop
    cases hk with
    | generic hs hk =>
      simp only [Op.generic?, Op.verb, Kind.verb] at hs
      split at hs
      · cases hs
      · rename_i hi
        cases hs
        simp only [Setup.dither] at hk
        split at hk
        · cases hk
        · rename_i hsize
          simp only [Bool.or_eq_true, decide_eq_true_eq, not_or, Nat.not_lt, ne_eq,
            Decidable.not_not] at hsize
          exact ⟨Bool.eq_false_iff.mpr hi, hsize⟩
    | loadTriples h | storeTriples h | clearAlpha h | swapEnds h | toUnit h | dot3 h => cases h
  | affine t =>
    cases hop
    cases hk with
    | generic hs hk =>
      simp only [Op.generic?, Op.verb, Kind.verb] at hs
      split at hs
      · cases hs
      · rename_i hi
        exact Bool.eq_false_iff.mpr hi
    | dot3 _ he =>
      have he : elem = .f32 := he
      subst he
      exact rfl
    | loadTriples h | storeTriples h | clearAlpha h | swapEnds h | toUnit h => cases h
  | scale factor =>
    cases hop
    intro hi
    cases hk with
    | generic hs hk =>
      rw [Op.generic?_scale hi rfl] at hs
      cases hs
      obtain ⟨top, -, hneg, hnum, hden, -⟩ := Setup.scaleInt_eq_ok rfl hk
      exact ⟨hneg, hnum, hden⟩
    | loadTriples h | storeTriples h | clearAlpha h | swapEnds h | toUnit h | dot3 h => cases h
  | swapBytes | clear | swizzle | convert | atMost | atLeast => exact True.intro

theorem Linked.supported {ops : List Op} {ks : List Kernel} {r w : Nat} (h : Linked ops ks r w) :
    ∀ op ∈ ops, op.Supported ∧ op.HoldsConstants := by
  induction h with
  | nil => exact fun op hop => absurd hop List.not_mem_nil
  | cons hop hk _ ih =>
    exact List.forall_mem_cons.mpr ⟨⟨hk.supported hop, Op.holdsConstants_iff.mpr ⟨_, hop⟩⟩, ih⟩

theorem Op.MovesBytes.supported {op : Op} (h : op.MovesBytes) : op.Supported := by
  obtain ⟨elem, kind, info⟩ := op
  cases kind with
  | read l | write l =>
    obtain ⟨n, hn⟩ := Option.isSome_iff_exists.mp h
    have hzero : l.frac = 0 := (Shuffle.chunk?_eq_some hn).1
    intro hpos
    omega
  | swapBytes | clear | swizzle | convert => exact True.intro
  | unpack | pack | shiftLeft | shiftRight | dither | affine | scale | atMost | atLeast => cases h

/-- **The general kernels take supported operations**, unless they swap single bytes. -/
theorem Op.Supported.setup {op word : Op} (h : op.Supported)
    (hswap : op.kind = .swapBytes → op.elem ≠ .u8) (hword : op.onWords = .ok word) :
    ∃ setup k, word.generic? = some setup ∧ setup word = .ok k := by
  obtain ⟨elem, kind, info⟩ := op
  cases kind with
  | read l | write l =>
    cases hword
    obtain ⟨l', hl'⟩ := (Setup.transfer_iff rfl).mpr h
    exact ⟨_, _, rfl, congrArg (Except.map _) hl'⟩
  | swapBytes =>
    cases hword
    cases elem with
    | u8 => exact absurd rfl (hswap rfl)
    | u16 | u32 | f32 => exact ⟨_, _, rfl, rfl⟩
  | clear values =>
    obtain ⟨words, hwords, rfl⟩ := onWords_clear rfl hword
    have hsome : ∀ i, ∃ w, Setup.clearWord .u32 (words i) = .ok w := by
      intro i
      rcases Constants.words?_eq_some hwords i with ⟨-, hw⟩ | ⟨q, w, -, -, hw⟩
      · exact ⟨none, by rw [hw]; rfl⟩
      · refine ⟨some w, ?_⟩
        rw [hw]
        exact Setup.clearWord_some (Elem.word?_ofWord w)
    obtain ⟨ws, hws⟩ := Quad.exists_ofFnM hsome
    exact ⟨_, _, rfl, congrArg (Except.map _) hws⟩
  | unpack widths | pack widths =>
    cases hword
    obtain ⟨hi, hwide⟩ := h
    exact ⟨_, _, if_pos hi, congrArg (Except.map _) (if_neg (Nat.not_lt.mpr hwide))⟩
  | shiftLeft n =>
    cases hword
    exact ⟨_, _, Op.generic?_shift h.1 (.inl rfl),
      congrArg (Except.map _) (if_neg (Nat.not_le.mpr h.2))⟩
  | shiftRight n =>
    cases hword
    exact ⟨_, _, Op.generic?_shift h.1 (.inr rfl),
      congrArg (Except.map _) (if_neg (Nat.not_le.mpr h.2))⟩
  | swizzle | convert =>
    cases hword
    exact ⟨_, _, rfl, rfl⟩
  | dither d =>
    cases hword
    obtain ⟨hi, hside, hsize⟩ := h
    refine ⟨_, _, if_neg (by rw [hi]; exact Bool.false_ne_true), if_neg ?_⟩
    simp only [Bool.or_eq_true, decide_eq_true_eq, not_or, Nat.not_lt, ne_eq, Decidable.not_not]
    exact ⟨hside, hsize⟩
  | affine t =>
    cases hword
    exact ⟨_, _, if_neg (by rw [show elem.isInt = false from h]; exact Bool.false_ne_true), rfl⟩
  | scale factor =>
    cases hword
    cases hi : elem.isInt with
    | false =>
      exact ⟨_, _, if_neg (by rw [hi]; exact Bool.false_ne_true), rfl⟩
    | true =>
      obtain ⟨hneg, hnum, hden⟩ := h hi
      have htop : elem.top? = some (2 ^ elem.bits - 1) := if_pos hi
      refine ⟨_, .compute (.scaleInt factor.num.natAbs factor.den (2 ^ elem.bits - 1)),
        Op.generic?_scale hi rfl, ?_⟩
      rw [Setup.scaleInt]
      simp only [htop]
      rw [if_neg (by simp only [hneg, Bool.false_or, Bool.or_eq_true, decide_eq_true_eq]; omega)]
  | atMost | atLeast =>
    cases hword
    cases hi : elem.isInt with
    | false => exact ⟨_, _, if_neg (by rw [hi]; exact Bool.false_ne_true), rfl⟩
    | true => exact ⟨_, _, if_pos hi, rfl⟩

/-! ## 3. Rules -/

/-- Floats have a word for every whole number. -/
theorem Elem.word?_of_isInteger {e : Elem} {q : Fraction} (he : e.isInt = false)
    (h : q.isInteger = true) : (e.word? q).isSome = true := by
  have hnone : e.max? = none := by
    rw [Elem.max?, Elem.top?, he]
    rfl
  have hdef := Fraction.isDefined_of_isInteger h
  rw [Elem.word?, hnone]
  simp only [hdef, if_true, Option.isSome_some]

/-- There is a word for what a register holds exactly. -/
theorem Elem.word?_of_represents {e : Elem} {q : Fraction} (h : e.represents q = true) :
    (e.word? q).isSome = true := by
  unfold Elem.represents at h
  split at h
  · exact h
  · rename_i hi
    exact Elem.word?_of_isInteger (Bool.eq_false_iff.mpr hi) (Bool.and_eq_true_iff.mp h).1

namespace Rewrites

variable {s : Site} {rule : Rule} {ops : List Op}

/-- Moving a clamp before a swizzle changes its bounds only. -/
theorem movedBefore?_supported {w : Swizzle} {next moved : Op} (hnext : next.Supported)
    (hm : s.movedBefore? w next = some moved) : moved.Supported := by
  obtain ⟨elem, kind, info⟩ := next
  cases kind with
  | atMost bounds | atLeast bounds =>
    obtain ⟨b, -, rfl⟩ := Option.map_eq_some_iff.mp hm
    exact True.intro
  | _ =>
    cases hm
    exact hnext

/-- **What a rule makes of supported operations is supported**, provided that shifts are added only
where they do not move every bit out. -/
theorem supported (h : Rewrites s rule ops) (hops : ∀ op ∈ s.op :: s.after, op.Supported)
    (hshift : rule = .shiftPair → s.shiftPairOverflow = none) : ∀ op ∈ ops, op.Supported := by
  obtain ⟨hop, hafter⟩ := List.forall_mem_cons.mp hops
  have hnext := Site.forall_next hafter
  cases h with
  | plainCopy _ ha | swapBytesPair _ ha | unpackPack _ ha => exact (hnext ha).2
  | swapBytesNoop | shiftNoop | clearNoop | swizzleIdentity | convertNoop | ditherExact
  | affineIdentity | scaleNoop | clampAbove | clampBelow => exact hafter
  | readSingleElement hk | readUnusedPlanes hk | writeSingleElement hk =>
    rw [Op.Supported, hk] at hop
    exact List.forall_mem_cons.mpr ⟨hop, hafter⟩
  | clearUnused => exact List.forall_mem_cons.mpr ⟨True.intro, hafter⟩
  | shiftPairOverflow ha | clearPair _ ha | swizzlePair _ ha | convertPair _ ha
  | convertExpand _ ha => exact List.forall_mem_cons.mpr ⟨True.intro, (hnext ha).2⟩
  | clearSwizzle _ ha | clearFold _ ha =>
    exact List.forall_mem_cons.mpr ⟨(hnext ha).1, List.forall_mem_cons.mpr ⟨True.intro, (hnext ha).2⟩⟩
  | swizzleCommute _ ha _ hm =>
    exact List.forall_mem_cons.mpr ⟨movedBefore?_supported (hnext ha).1 hm,
      List.forall_mem_cons.mpr ⟨True.intro, (hnext ha).2⟩⟩
  | shiftPairLeft hk ha he hn =>
    rw [Op.Supported, hk] at hop
    exact List.forall_mem_cons.mpr
      ⟨⟨hop.1, shiftSum_lt ha he (.inl ⟨hk, hn⟩) (hshift rfl)⟩, (hnext ha).2⟩
  | shiftPairRight hk ha he hn =>
    rw [Op.Supported, hk] at hop
    exact List.forall_mem_cons.mpr
      ⟨⟨hop.1, shiftSum_lt ha he (.inr ⟨hk, hn⟩) (hshift rfl)⟩, (hnext ha).2⟩
  | affinePair hk ha =>
    rw [Op.Supported, hk] at hop
    exact List.forall_mem_cons.mpr ⟨hop, (hnext ha).2⟩
  | affineResetUnused hk =>
    rw [Op.Supported, hk] at hop
    exact List.forall_mem_cons.mpr ⟨hop, hafter⟩
  | affineConstantRows hk =>
    rw [Op.Supported, hk] at hop
    exact List.forall_mem_cons.mpr ⟨hop, List.forall_mem_cons.mpr ⟨True.intro, hafter⟩⟩
  | affineSwizzle hk =>
    rw [Op.Supported, hk] at hop
    exact List.forall_mem_cons.mpr ⟨True.intro, List.forall_mem_cons.mpr ⟨hop, hafter⟩⟩
  | affineScalar hk =>
    rw [Op.Supported, hk] at hop
    refine List.forall_mem_cons.mpr ⟨fun hi => ?_, hafter⟩
    rw [show s.op.elem.isInt = false from hop] at hi
    cases hi
  | scalePair hk ha he hn hf =>
    obtain ⟨hnext, hrest⟩ := hnext ha
    rw [Op.Supported, hk] at hop
    rw [Op.Supported, hn] at hnext
    refine List.forall_mem_cons.mpr ⟨fun hi => ?_, hrest⟩
    have hi : s.op.elem.isInt = true := hi
    have hi' : _ = true := he ▸ (Op.target_of_kind hk fun hv => Verb.noConfusion hv) ▸ hi
    rcases hf with hf | ⟨hf, hf', -, hlt⟩
    · rw [hi] at hf
      cases hf
    have hnum := Fraction.num_nonneg (Fraction.isDefined_of_isInteger hf) (hop hi).1
    have hnum' := Fraction.num_nonneg (Fraction.isDefined_of_isInteger hf') (hnext hi').1
    rw [Fraction.eq_ofNat_of_isInteger hf hnum, Fraction.eq_ofNat_of_isInteger hf' hnum'] at hlt ⊢
    obtain ⟨hmul, hlt⟩ := Fraction.mul_eq_ofNat hlt
    rw [hmul]
    exact ⟨Fraction.isNegative_of_num (Int.natCast_nonneg _), hlt, by show 1 < 2 ^ 32; decide⟩
  | scaleAfterConvert hk ha _ _ hs =>
    rw [Op.Supported, hk] at hop
    exact List.forall_mem_cons.mpr
      ⟨(hnext ha).1, List.forall_mem_cons.mpr ⟨fun _ => hop hs, (hnext ha).2⟩⟩
  | scaleShiftLeft _ hi _ hb | scaleShiftRight _ hi _ hb =>
    exact List.forall_mem_cons.mpr ⟨⟨hi, hb⟩, hafter⟩

/-- **What a rule makes of operations that hold their constants holds its constants**, where the
elements fit together: constants are read as those of another operation's element. -/
theorem holdsConstants (h : Rewrites s rule ops) (ht : TypedFrom s.op.elem (s.op :: s.after))
    (hsupported : s.op.Supported) (hops : ∀ op ∈ s.op :: s.after, op.HoldsConstants) :
    ∀ op ∈ ops, op.HoldsConstants := by
  obtain ⟨hop, hafter⟩ := List.forall_mem_cons.mp hops
  have hnext := Site.forall_next hafter
  have hsame : ∀ {next : Op} {rest : List Op} {values : Constants}, s.op.kind = .clear values →
      s.after = next :: rest → next.elem = s.op.elem := by
    intro next rest values hk ha
    rw [(typed_next ht ha).1, Op.target_of_kind hk fun hv => Verb.noConfusion hv]
  -- what a rule makes sets no constants, or it sets those that stand here
  have hother : ∀ {e : Elem} {k : Kind} {info : Info}, k.verb ≠ .clear →
      (Op.mk e k info).HoldsConstants := fun hv => Op.holdsConstants_of_verb hv
  cases h with
  | plainCopy _ ha | swapBytesPair _ ha | unpackPack _ ha => exact (hnext ha).2
  | swapBytesNoop | shiftNoop | clearNoop | swizzleIdentity | convertNoop | ditherExact
  | affineIdentity | scaleNoop | clampAbove | clampBelow => exact hafter
  | readSingleElement | readUnusedPlanes | writeSingleElement | affineResetUnused | affineScalar
  | scaleShiftLeft | scaleShiftRight =>
    exact List.forall_mem_cons.mpr ⟨hother fun hv => Verb.noConfusion hv, hafter⟩
  | shiftPairLeft _ ha | shiftPairRight _ ha | swizzlePair _ ha | convertPair _ ha
  | convertExpand _ ha | affinePair _ ha | scalePair _ ha =>
    exact List.forall_mem_cons.mpr ⟨hother fun hv => Verb.noConfusion hv, (hnext ha).2⟩
  | scaleAfterConvert _ ha =>
    exact List.forall_mem_cons.mpr ⟨(hnext ha).1,
      List.forall_mem_cons.mpr ⟨hother fun hv => Verb.noConfusion hv, (hnext ha).2⟩⟩
  | affineSwizzle =>
    exact List.forall_mem_cons.mpr ⟨hother fun hv => Verb.noConfusion hv,
      List.forall_mem_cons.mpr ⟨hother fun hv => Verb.noConfusion hv, hafter⟩⟩
  | swizzleCommute _ ha hn hm =>
    refine List.forall_mem_cons.mpr ⟨Op.holdsConstants_of_verb ?_,
      List.forall_mem_cons.mpr ⟨hother fun hv => Verb.noConfusion hv, (hnext ha).2⟩⟩
    rw [(Site.movedBefore?_verb hm).1]
    intro hv
    rw [hv] at hn
    cases hn
  | shiftPairOverflow ha =>
    refine List.forall_mem_cons.mpr ⟨Op.holdsConstants_of_clear rfl fun i q hq => ?_, (hnext ha).2⟩
    rw [Quad.get_const] at hq
    cases hq
    show (s.op.elem.word? Fraction.zero).isSome = true
    cases s.op.elem <;> rfl
  | clearUnused hk =>
    refine List.forall_mem_cons.mpr ⟨Op.holdsConstants_of_clear rfl fun i q hq => ?_, hafter⟩
    simp only [Constants.pruned, Quad.get_ofFn] at hq
    split at hq
    · cases hq
    · rename_i q' hv
      split at hq
      · cases hq
      · cases hq
        exact hop _ hk i q hv
  | @clearPair values later next rest hk ha hn =>
    refine List.forall_mem_cons.mpr ⟨Op.holdsConstants_of_clear rfl fun i q hq => ?_, (hnext ha).2⟩
    rw [Quad.get_zipWith] at hq
    cases hl : later i with
    | some q' =>
      rw [hl] at hq
      cases hq
      show (s.op.elem.word? q).isSome = true
      rw [← hsame hk ha]
      exact (hnext ha).1 later hn i q hl
    | none =>
      rw [hl] at hq
      exact hop values hk i q hq
  | clearSwizzle hk ha hn =>
    refine List.forall_mem_cons.mpr ⟨(hnext ha).1, List.forall_mem_cons.mpr
      ⟨Op.holdsConstants_of_clear rfl fun i q hq => ?_, (hnext ha).2⟩⟩
    rw [Swizzle.get_apply] at hq
    show (Elem.word? _ q).isSome = true
    rw [Op.target_of_kind hn fun hv => Verb.noConfusion hv, hsame hk ha]
    exact hop _ hk _ q hq
  | clearFold hk ha hv hf =>
    refine List.forall_mem_cons.mpr ⟨(hnext ha).1, List.forall_mem_cons.mpr
      ⟨Op.holdsConstants_of_clear rfl fun i q hq => ?_, (hnext ha).2⟩⟩
    exact Elem.word?_of_represents (Op.represents_of_foldConsts? hf hq)
  | affineConstantRows hk hc =>
    rw [Op.Supported, hk] at hsupported
    refine List.forall_mem_cons.mpr ⟨hother fun hv => Verb.noConfusion hv, List.forall_mem_cons.mpr
      ⟨Op.holdsConstants_of_clear rfl fun i q hq => ?_, hafter⟩⟩
    obtain ⟨rfl, hrow⟩ := Affine.constantRows?_constant hc hq
    obtain ⟨-, -, hwhole⟩ := Affine.isConstantRow_iff.mp hrow
    exact Elem.word?_of_isInteger hsupported hwhole

/-- Transforms are made of transforms only. -/
theorem not_affine (h : Rewrites s rule ops) (hops : ∀ op ∈ s.op :: s.after, op.verb ≠ .affine) :
    ∀ op ∈ ops, op.verb ≠ .affine := by
  obtain ⟨hop, hafter⟩ := List.forall_mem_cons.mp hops
  have hnext := Site.forall_next hafter
  cases h with
  | plainCopy _ ha | swapBytesPair _ ha | unpackPack _ ha => exact (hnext ha).2
  | swapBytesNoop | shiftNoop | clearNoop | swizzleIdentity | convertNoop | ditherExact
  | affineIdentity | scaleNoop | clampAbove | clampBelow => exact hafter
  | readSingleElement | readUnusedPlanes | writeSingleElement | clearUnused | affineScalar
  | scaleShiftLeft | scaleShiftRight =>
    exact List.forall_mem_cons.mpr ⟨fun hv => Verb.noConfusion hv, hafter⟩
  | shiftPairOverflow ha | shiftPairLeft _ ha | shiftPairRight _ ha | clearPair _ ha
  | swizzlePair _ ha | convertPair _ ha | convertExpand _ ha | scalePair _ ha =>
    exact List.forall_mem_cons.mpr ⟨fun hv => Verb.noConfusion hv, (hnext ha).2⟩
  | clearSwizzle _ ha | clearFold _ ha | scaleAfterConvert _ ha =>
    exact List.forall_mem_cons.mpr ⟨(hnext ha).1,
      List.forall_mem_cons.mpr ⟨fun hv => Verb.noConfusion hv, (hnext ha).2⟩⟩
  | swizzleCommute _ ha _ hm =>
    refine List.forall_mem_cons.mpr ⟨?_,
      List.forall_mem_cons.mpr ⟨fun hv => Verb.noConfusion hv, (hnext ha).2⟩⟩
    rw [(Site.movedBefore?_verb hm).1]
    exact (hnext ha).1
  | affinePair hk | affineResetUnused hk | affineConstantRows hk | affineSwizzle hk =>
    rw [Op.verb, hk] at hop
    exact absurd rfl hop

end Rewrites

end PixelConv
