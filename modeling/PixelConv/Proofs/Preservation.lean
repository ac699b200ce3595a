import PixelConv.Proofs.NumberRules

/-!
# Rules keep the outcome

Constants, swizzles and transfers move contents among components; what the rules for them put in
place is faithful too. Main statement: so is every rule of the simplifier at every place of an
analysed program that computes with integers only, except for the one that ends in a plain copy
(`Rewrites.faithful`).
-/

namespace PixelConv

variable {src : Quad Nat} {v : Content}

/-! ## 1. Constants -/

section Moving

variable {op : Op} {values : Constants} {w : Swizzle}

theorem Op.act_clear (hk : op.kind = .clear values) (src : Quad Nat) (v : Content) (i : Fin 4) :
    (op.act src v) i = ((values i).map op.elem.content).or (v i) := by
  simp only [act, hk, Quad.get_ofFn]
  cases values i <;> rfl

theorem Op.act_swizzle (hk : op.kind = .swizzle w) (src : Quad Nat) (v : Content) (i : Fin 4) :
    (op.act src v) i = v (w.source i) := by
  simp only [act, hk, Swizzle.get_apply]

end Moving

namespace Place

variable {s : Site} {next : Op} {rest : List Op}

theorem shiftPairOverflow (h : Place s v) {a c : Nat} (ha : s.after = next :: rest)
    (he : next.elem = s.op.target)
    (hk : s.op.kind = .shiftLeft a ∧ next.kind = .shiftLeft c ∨
      s.op.kind = .shiftRight a ∧ next.kind = .shiftRight c)
    (hsum : s.op.elem.bits ≤ min 255 (a + c)) : Faithful src v (s.op :: s.after)
      (Op.ofKind s.op.elem (.clear (Quad.const (some Fraction.zero))) :: rest) := by
  obtain ⟨he, hmin⟩ := h.shift_sum ha he hk
  rw [hmin] at hsum
  have hcw : ∀ op ∈ [s.op, next], op.verb.isComponentwise = true := by
    intro op hop
    rcases List.mem_cons.mp hop with rfl | hop
    · rcases hk with ⟨hk, -⟩ | ⟨hk, -⟩ <;> rw [Op.verb, hk] <;> rfl
    · rw [List.mem_singleton.mp hop]
      rcases hk with ⟨-, hn⟩ | ⟨-, hn⟩ <;> rw [Op.verb, hn] <;> rfl
  have hdvd : 2 ^ s.op.elem.bits ∣ 2 ^ (a + c) := Nat.pow_dvd_pow 2 hsum
  have hdefined := h.defined
  rw [ha] at hdefined ⊢
  refine Faithful.of_agree [s.op, next]
    [Op.ofKind s.op.elem (.clear (Quad.const (some Fraction.zero)))] rest
    (h.exact_rest ha) (fun i hi => ?_) fun _ ht =>
      ⟨fun i n _ _ => Op.fitsAt_of_ne (fun f hf => Kind.noConfusion hf) n, ht⟩
  obtain ⟨n, hn⟩ := hdefined i (by
    rw [show s.op :: next :: rest = [s.op, next] ++ rest from rfl, needed_componentwise hcw]
    exact hi)
  have hlt := h.range i n hn
  have hzero : onNumber [s.op, next] i n = 0 := by
    show next.onComponent i (s.op.onComponent i n) = 0
    rcases hk with ⟨hk, hn⟩ | ⟨hk, hn⟩
    · simp only [Op.onComponent, hk, hn, he]
      rw [shiftLeft_shiftLeft]
      exact Nat.mod_eq_zero_of_dvd (Nat.dvd_trans hdvd (Nat.dvd_mul_left _ _))
    · simp only [Op.onComponent, hk, hn]
      rw [shiftRight_shiftRight]
      exact Nat.div_eq_of_lt (Nat.lt_of_lt_of_le hlt (Nat.le_of_dvd (Nat.two_pow_pos _) hdvd))
  rw [actAll_componentwise hcw, hn, Option.map_some, hzero, actAll_cons, actAll_nil,
    Op.act_clear rfl, Quad.get_const, Option.map_some, Elem.content_of_isZero rfl]
  rfl

theorem clearNoop (h : Place s v) {values : Constants} (hk : s.op.kind = .clear values)
    (hp : (values.pruned s.op.info.unused s.input.known).all Option.isNone = true) :
    Faithful src v (s.op :: s.after) s.after := by
  have hnone : ∀ i, needed s.after i = true → values i = none := by
    intro i hi
    rw [← h.surveyed.pruned_eq hk hi]
    exact Option.isNone_iff_eq_none.mp (Quad.get_of_all hp i)
  refine Faithful.of_agree [s.op] [] s.after h.exact_after (fun i hi => ?_) fun _ ht => ht
  rw [actAll_cons, actAll_nil, Op.act_clear hk, hnone i hi]
  rfl

theorem clearUnused (h : Place s v) {values : Constants} (hk : s.op.kind = .clear values) :
    Faithful src v (s.op :: s.after)
      (s.become (.clear (values.pruned s.op.info.unused s.input.known)) s.after) := by
  refine Faithful.of_agree [s.op] [{ s.op with
    kind := .clear (values.pruned s.op.info.unused s.input.known) }] s.after h.exact_after
    (fun i hi => ?_) fun _ ht =>
      ⟨fun i n _ _ => Op.fitsAt_of_ne (fun f hf => Kind.noConfusion hf) n, ht⟩
  rw [actAll_cons, actAll_nil, actAll_cons, actAll_nil, Op.act_clear hk, Op.act_clear rfl,
    h.surveyed.pruned_eq hk hi]

theorem clearPair (h : Place s v) {values later : Constants} (hk : s.op.kind = .clear values)
    (ha : s.after = next :: rest) (hn : next.kind = .clear later) :
    Faithful src v (s.op :: s.after)
      (s.become (.clear (Quad.zipWith (fun l v => l <|> v) later values)) rest) := by
  have he := h.elem_next ha
  rw [show s.op.target = s.op.elem by rw [Op.target, hk]] at he
  rw [ha]
  refine Faithful.of_agree [s.op, next] [{ s.op with
    kind := .clear (Quad.zipWith (fun l v => l <|> v) later values) }] rest (h.exact_rest ha)
    (fun i hi => ?_) fun _ ht =>
      ⟨fun i n _ _ => Op.fitsAt_of_ne (fun f hf => Kind.noConfusion hf) n, ht⟩
  simp only [actAll_cons, actAll_nil]
  rw [Op.act_clear hn, Op.act_clear hk, Op.act_clear rfl, Quad.get_zipWith, he]
  cases later i <;> rfl

theorem clearSwizzle (h : Place s v) {values : Constants} {w : Swizzle}
    (hk : s.op.kind = .clear values) (ha : s.after = next :: rest) (hn : next.kind = .swizzle w) :
    Faithful src v (s.op :: s.after)
      (next :: Op.ofKind next.target (.clear (w.apply values)) :: rest) := by
  have he := h.elem_next ha
  rw [show s.op.target = s.op.elem by rw [Op.target, hk]] at he
  have htarget : next.target = s.op.elem := by rw [Op.target, hn, he]
  rw [ha]
  refine Faithful.of_agree [s.op, next]
    [next, Op.ofKind next.target (.clear (w.apply values))] rest (h.exact_rest ha)
    (fun i hi => ?_) fun _ ht =>
      ⟨fun i n _ _ => Op.fitsAt_of_ne (fun f hf => by rw [hn] at hf; cases hf) n,
        fun i n _ _ => Op.fitsAt_of_ne (fun f hf => Kind.noConfusion hf) n, ht⟩
  simp only [actAll_cons, actAll_nil]
  rw [Op.act_swizzle hn, Op.act_clear hk, Op.act_clear rfl, Op.act_swizzle hn, Swizzle.get_apply]
  show _ = ((values (w.source i)).map next.target.content).or _
  rw [htarget]

theorem isInt_of_passes {op : Op} (hop : op.isExact = true)
    (hv : op.verb.passesConstants = true) : op.elem.isInt = true ∧ op.target.isInt = true := by
  obtain ⟨elem, kind, info⟩ := op
  cases kind with
  | convert target expand => exact isInt_of_convert hop rfl
  | shiftLeft | shiftRight | scale | atMost | atLeast => exact ⟨hop, hop⟩
  | read | write | swapBytes | unpack | pack | clear | swizzle | dither | affine => cases hv

theorem clearFold (h : Place s v) {values moved : Constants} (hk : s.op.kind = .clear values)
    (ha : s.after = next :: rest) (hv : next.verb.passesConstants = true)
    (hf : next.foldConsts? values = .ok (some moved)) (htame : Tame src (s.op :: s.after) v) :
    Faithful src v (s.op :: s.after) (next :: Op.ofKind next.target (.clear moved) :: rest) := by
  have hcw := Verb.isComponentwise_of_passesConstants hv
  obtain ⟨hint, htint⟩ := isInt_of_passes (h.exact_next ha) hv
  have he := h.elem_next ha
  rw [show s.op.target = s.op.elem by rw [Op.target, hk]] at he
  rw [ha] at htame ⊢
  refine Faithful.of_agree [s.op, next]
    [next, Op.ofKind next.target (.clear moved)] rest (h.exact_rest ha)
    (fun i hi => ?_) fun _ ht =>
      ⟨fun i n hi hn => ?_, fun i n _ _ => Op.fitsAt_of_ne (fun f hf => Kind.noConfusion hf) n, ht⟩
  · simp only [actAll_cons, actAll_nil]
    rw [Op.act_componentwise hcw, Op.act_clear hk,
      @Op.act_clear (Op.ofKind next.target (.clear moved)) moved rfl, Op.act_componentwise hcw]
    rcases Op.foldConsts?_eq_some hf i with ⟨hvi, hmoved⟩ | ⟨q, hvi, hq, hmoved, hrep⟩
    · rw [hvi, hmoved]
      rfl
    · -- the constant is a natural number, and so is what the operation makes of it
      obtain ⟨hqn, hlt⟩ := (Elem.represents_iff hint).mp hq
      obtain ⟨hrn, -⟩ := (Elem.represents_iff htint).mp hrep
      have hfit : next.FitsAt (next.elem.content q) := by
        refine htame.2.1 i _ hi ?_
        rw [Op.act_clear hk, hvi, he]
        rfl
      have heval := Op.eval_eq_onComponent (h.exact_next ha) hv
        (x := values.map fun v => v.getD Fraction.undefined) (i := i) (c := next.elem.content q)
        (by rw [Quad.get_map, hvi, Option.getD_some, ← hqn]) hlt
        ((h.limits_next ha).exactAt (h.exact_next ha) hlt hfit)
      rw [heval] at hrn
      have hcontent : next.target.content (Fraction.ofNat (next.onComponent i (next.elem.content q)))
          = next.onComponent i (next.elem.content q) := by
        have hnum := congrArg Fraction.num hrn
        exact (Int.ofNat_inj.mp hnum).symm
      rw [hvi, hmoved, heval, ← he]
      show some (next.onComponent i _) = some (next.target.content _)
      rw [hcontent]
  · -- what is not a constant was there before
    obtain ⟨hi, hnone⟩ := (Op.needs_clear rfl _ i).mp hi
    refine htame.2.1 i n hi ?_
    rw [Op.act_clear hk]
    rcases Op.foldConsts?_eq_some hf i with ⟨hvi, -⟩ | ⟨q, -, -, hmoved, -⟩
    · rw [hvi]
      exact hn
    · rw [hmoved] at hnone
      cases hnone

/-! ## 2. Swizzles -/

theorem swizzleIdentity (h : Place s v) {w : Swizzle} (hk : s.op.kind = .swizzle w)
    (hw : ∀ i, s.op.info.unused i = true ∨ w.order i = i.val) :
    Faithful src v (s.op :: s.after) s.after := by
  have hsource : ∀ i, needed s.after i = true → w.source i = i := by
    intro i hi
    rcases hw i with hu | hu
    · rw [h.surveyed.used_of_needed hi] at hu
      cases hu
    · rw [Swizzle.source, hu]
      exact Fin.ext (Nat.mod_eq_of_lt i.isLt)
  refine Faithful.of_agree [s.op] [] s.after h.exact_after (fun i hi => ?_) fun _ ht => ht
  rw [actAll_cons, actAll_nil, actAll_nil, Op.act_swizzle hk, hsource i hi]

theorem swizzlePair (h : Place s v) {w later : Swizzle} (hk : s.op.kind = .swizzle w)
    (ha : s.after = next :: rest) (hn : next.kind = .swizzle later) :
    Faithful src v (s.op :: s.after) (s.become (.swizzle (w.andThen later)) rest) := by
  rw [ha]
  refine Faithful.of_agree [s.op, next] [{ s.op with kind := .swizzle (w.andThen later) }] rest
    (h.exact_rest ha) (fun i hi => ?_) fun _ ht =>
      ⟨fun i n _ _ => Op.fitsAt_of_ne (fun f hf => Kind.noConfusion hf) n, ht⟩
  simp only [actAll_cons, actAll_nil]
  rw [Op.act_swizzle hn, Op.act_swizzle hk, Op.act_swizzle rfl, Swizzle.source_andThen]

/-- The bounds before a swizzle: each component that is read finds its own, and what was collected
stays. -/
theorem boundsBefore?_eq_some {w : Swizzle} {bounds b : Constants} :
    ∀ {used : List (Fin 4)} {acc : Quad (Option (Option Fraction))},
      Site.boundsBefore? w bounds used acc = some b →
      (∀ i ∈ used, b (w.source i) = bounds i) ∧ ∀ j x, acc j = some x → b j = x
  | [], acc, h => by
    cases h
    refine ⟨fun i hi => absurd hi List.not_mem_nil, fun j x hj => ?_⟩
    rw [Quad.get_map, hj]
    rfl
  | k :: used, acc, h => by
    unfold Site.boundsBefore? at h
    split at h
    · rename_i x hacc
      split at h
      · rename_i hx
        obtain ⟨hused, hkept⟩ := boundsBefore?_eq_some h
        refine ⟨fun i hi => ?_, hkept⟩
        rcases List.mem_cons.mp hi with rfl | hi
        · rw [hkept _ _ hacc, hx]
        · exact hused i hi
      · cases h
    · rename_i hacc
      obtain ⟨hused, hkept⟩ := boundsBefore?_eq_some h
      refine ⟨fun i hi => ?_, fun j x hj => ?_⟩
      · rcases List.mem_cons.mp hi with rfl | hi
        · exact hkept _ _ (by rw [Quad.get_set, if_pos rfl])
        · exact hused i hi
      · refine hkept j x ?_
        rw [Quad.get_set]
        by_cases hjk : j = w.source k
        · rw [hjk, hacc] at hj
          cases hj
        · rw [if_neg hjk]
          exact hj

/-- The operation that takes the place before the swizzle does to the source of each component that
is read what the other one did to the component. -/
theorem movedBefore?_eq_some {w : Swizzle} {moved : Op}
    (hcw : next.verb.isComponentwise = true) (hm : s.movedBefore? w next = some moved) :
    moved.elem = next.elem ∧ moved.verb = next.verb ∧ moved.target = next.target ∧
      (∀ f, moved.kind = .scale f → next.kind = .scale f) ∧
      ∀ i, s.op.info.unused i = false → ∀ n,
        moved.onComponent (w.source i) n = next.onComponent i n := by
  have hused : ∀ i, s.op.info.unused i = false → i ∈ s.usedComponents := by
    intro i hi
    exact List.mem_filter.mpr ⟨Quad.mem_indices i, by rw [Op.uses, hi]; rfl⟩
  obtain ⟨elem, kind, info⟩ := next
  cases kind with
  | atMost bounds =>
    obtain ⟨b, hb, rfl⟩ := Option.map_eq_some_iff.mp hm
    refine ⟨rfl, rfl, rfl, fun f hf => Kind.noConfusion hf, fun i hi n => ?_⟩
    simp only [Op.onComponent, (boundsBefore?_eq_some hb).1 i (hused i hi)]
  | atLeast bounds =>
    obtain ⟨b, hb, rfl⟩ := Option.map_eq_some_iff.mp hm
    refine ⟨rfl, rfl, rfl, fun f hf => Kind.noConfusion hf, fun i hi n => ?_⟩
    simp only [Op.onComponent, (boundsBefore?_eq_some hb).1 i (hused i hi)]
  | swapBytes | shiftLeft | shiftRight | convert | dither | scale =>
    cases hm
    exact ⟨rfl, rfl, rfl, fun f hf => hf, fun i _ n => rfl⟩
  | read | write | unpack | pack | clear | swizzle | affine => cases hcw

theorem swizzleCommute (h : Place s v) {w : Swizzle} {moved : Op} (hk : s.op.kind = .swizzle w)
    (ha : s.after = next :: rest) (hcw : next.verb.isComponentwise = true)
    (hm : s.movedBefore? w next = some moved) :
    Faithful src v (s.op :: s.after) (moved :: Op.ofKind next.target (.swizzle w) :: rest) := by
  obtain ⟨helem, hverb, -, hscale, hnum⟩ := movedBefore?_eq_some hcw hm
  have hcw' : moved.verb.isComponentwise = true := by
    rw [hverb]
    exact hcw
  have hused : ∀ i, needed rest i = true → s.op.info.unused i = false := fun i hi =>
    h.surveyed.used_of_needed (by rw [ha, needed_cons, Op.needs_componentwise hcw]; exact hi)
  rw [ha]
  refine Faithful.of_agree [s.op, next] [moved, Op.ofKind next.target (.swizzle w)] rest
    (h.exact_rest ha) (fun i hi => ?_) fun ht hrest =>
      ⟨fun j n hj hn hu f hf => ?_,
        fun i n _ _ => Op.fitsAt_of_ne (fun f hf => Kind.noConfusion hf) n, hrest⟩
  · simp only [actAll_cons, actAll_nil]
    rw [Op.act_componentwise hcw, Op.act_swizzle hk,
      @Op.act_swizzle (Op.ofKind next.target (.swizzle w)) w rfl, Op.act_componentwise hcw']
    cases v (w.source i) with
    | none => rfl
    | some n => rw [Option.map_some, Option.map_some, hnum i (hused i hi) n]
  · obtain ⟨i, rfl, hi⟩ := (Op.needs_swizzle rfl _ j).mp hj
    refine ht.2.1 i n hi ?_ (helem.symm.trans hu) f (hscale f hf)
    rw [Op.act_swizzle hk]
    exact hn

/-! ## 3. Transfers -/

/-- A read of other components than before, as long as those that are read later are the same. -/
theorem readNarrowed (h : Place s v) {l l' : Layout} (hk : s.op.kind = .read l)
    (hle : l'.count ≤ l.count)
    (hused : ∀ i : Fin 4, needed s.after i = true → i.val < l.count → i.val < l'.count) :
    Faithful src v (s.op :: s.after) (s.become (.read l') s.after) := by
  refine Faithful.of_agree [s.op] [{ s.op with kind := .read l' }] s.after h.exact_after
    (fun i hi => ?_) fun _ ht =>
      ⟨fun i n _ _ => Op.fitsAt_of_ne (fun f hf => Kind.noConfusion hf) n, ht⟩
  simp only [actAll_cons, actAll_nil, Op.act, hk, Quad.get_ofFn]
  by_cases hc : i.val < l.count
  · rw [if_pos hc, if_pos (hused i hi hc)]
  · rw [if_neg hc, if_neg (by omega)]

theorem writeSingleElement (h : Place s v) {l : Layout} (hk : s.op.kind = .write l) :
    Faithful src v (s.op :: s.after) (s.become (.write { l with packed := false }) s.after) := by
  refine Faithful.of_agree [s.op] [{ s.op with kind := .write { l with packed := false } }] s.after
    h.exact_after (fun i hi => ?_) fun _ ht =>
      ⟨fun i n _ _ => Op.fitsAt_of_ne (fun f hf => Kind.noConfusion hf) n, ht⟩
  simp only [actAll_cons, actAll_nil, Op.act, hk]

end Place

/-! ## 4. All rules -/

/-- **Rules keep the outcome**: what a rule puts in place of the operations from a place on leaves
the same contents and overflows no more. A plain copy is the exception, since it
leaves nothing to run. -/
theorem Rewrites.faithful {s : Site} {rule : Rule} {ops : List Op} (h : Rewrites s rule ops)
    (hp : Place s v) (htame : Tame src (s.op :: s.after) v) (hcopy : rule ≠ .plainCopy) :
    Faithful src v (s.op :: s.after) ops := by
  have hexact := hp.exact s.op List.mem_cons_self
  have hinexact : s.op.isExact = false → Faithful src v (s.op :: s.after) ops := by
    intro hf
    rw [hf] at hexact
    cases hexact
  cases h with
  | plainCopy => exact absurd rfl hcopy
  | readSingleElement hk _ _ => exact hp.readNarrowed hk (Nat.le_refl _) fun i _ hi => hi
  | readUnusedPlanes hk _ hu hlt =>
    refine hp.readNarrowed hk (Nat.le_of_lt hlt) fun i hi hc => ?_
    exact (Site.usedPlanes_eq_ok hu).2 i hc (hp.surveyed.used_of_needed hi)
  | writeSingleElement hk _ _ => exact hp.writeSingleElement hk
  | swapBytesNoop hk hs => exact hp.swapBytesNoop hk hs
  | swapBytesPair hk ha he hn => exact hp.swapBytesPair hk ha he hn
  | shiftNoop hk => exact hp.shiftNoop hk
  | shiftPairOverflow ha he hk hsum => exact hp.shiftPairOverflow ha he hk hsum
  | shiftPairLeft hk ha he hn => exact hp.shiftPairLeft hk ha he hn
  | shiftPairRight hk ha he hn => exact hp.shiftPairRight hk ha he hn
  | clearNoop hk hpruned => exact hp.clearNoop hk hpruned
  | clearUnused hk _ => exact hp.clearUnused hk
  | clearPair hk ha hn => exact hp.clearPair hk ha hn
  | clearSwizzle hk ha hn => exact hp.clearSwizzle hk ha hn
  | clearFold hk ha hv hf => exact hp.clearFold hk ha hv hf htame
  | swizzleIdentity hk hw => exact hp.swizzleIdentity hk hw
  | swizzlePair hk ha hn => exact hp.swizzlePair hk ha hn
  | swizzleCommute hk ha hn hm => exact hp.swizzleCommute hk ha hn hm
  | convertNoop hk => exact hp.convertNoop hk
  | convertPair hk ha he hn hf => exact hp.convertPair hk ha he hn hf
  | convertExpand hk ha he hn hf => exact hp.convertExpand hk ha he hn hf
  | scaleNoop hk => exact hp.scaleNoop hk
  | scalePair hk ha he hn hf => exact hp.scalePair hk ha he hn hf
  | scaleAfterConvert hk ha he hn _ ht hsize hf hr =>
    exact hp.scaleAfterConvert hk ha he hn ht hsize hf hr
  | scaleShiftLeft hk _ hpow _ hpos => exact hp.scaleShiftLeft hk hpow hpos
  | scaleShiftRight hk _ hpow _ hneg => exact hp.scaleShiftRight hk hpow hneg
  | clampAbove hk hb => exact hp.clampAbove hk hb
  | clampBelow hk hb => exact hp.clampBelow hk hb
  | unpackPack hk | ditherExact hk | affineIdentity hk | affinePair hk | affineResetUnused hk
  | affineConstantRows hk | affineScalar hk | affineSwizzle hk =>
    exact hinexact (by rw [Op.isExact, hk])

end PixelConv
