import PixelConv.Simplify

/-!
# What a rule does when it fires

`Rewrites s rule ops` says that `rule` fires at the place `s` and gives the operations `ops`: one
constructor per rule, with everything the rule has found out about the place. `Rule.rewrites` reads
it off the rules. Whatever is to be shown about all rules is shown by cases on it.
-/

namespace PixelConv

/-- A rule fires at a place and gives the operations from there on. -/
inductive Rewrites (s : Site) : Rule → List Op → Prop
  | plainCopy {l : Layout} {next : Op} {rest : List Op} (hk : s.op.kind = .read l)
      (ha : s.after = next :: rest) (he : next.elem = s.op.target) (hn : next.kind = .write l) :
      Rewrites s .plainCopy rest
  | readSingleElement {l : Layout} (hk : s.op.kind = .read l) (hp : l.packed = true)
      (hc : l.count = 1) :
      Rewrites s .readSingleElement (s.become (.read { l with packed := false }) s.after)
  | readUnusedPlanes {l : Layout} {used : Nat} (hk : s.op.kind = .read l) (hp : l.packed = false)
      (hu : Site.usedPlanes s.op.info.unused l.count = .ok used) (hlt : used < l.count) :
      Rewrites s .readUnusedPlanes (s.become (.read { l with count := used }) s.after)
  | writeSingleElement {l : Layout} (hk : s.op.kind = .write l) (hp : l.packed = true)
      (hc : l.count = 1) :
      Rewrites s .writeSingleElement (s.become (.write { l with packed := false }) s.after)
  | swapBytesNoop (hk : s.op.kind = .swapBytes) (hs : s.op.elem.size = 1) :
      Rewrites s .swapBytesNoop s.after
  | swapBytesPair {next : Op} {rest : List Op} (hk : s.op.kind = .swapBytes)
      (ha : s.after = next :: rest) (he : next.elem = s.op.target) (hn : next.kind = .swapBytes) :
      Rewrites s .swapBytesPair rest
  | unpackPack {w : Quad Nat} {next : Op} {rest : List Op} (hk : s.op.kind = .unpack w)
      (ha : s.after = next :: rest) (he : next.elem = s.op.target) (hn : next.kind = .pack w) :
      Rewrites s .unpackPack rest
  | shiftNoop (hk : s.op.kind = .shiftLeft 0 ∨ s.op.kind = .shiftRight 0) :
      Rewrites s .shiftNoop s.after
  | shiftPairOverflow {n m : Nat} {next : Op} {rest : List Op} (ha : s.after = next :: rest)
      (he : next.elem = s.op.target)
      (hk : s.op.kind = .shiftLeft n ∧ next.kind = .shiftLeft m ∨
        s.op.kind = .shiftRight n ∧ next.kind = .shiftRight m)
      (hsum : s.op.elem.bits ≤ min 255 (n + m)) :
      Rewrites s .shiftPairOverflow
        (Op.ofKind s.op.elem (.clear (Quad.const (some Fraction.zero))) :: rest)
  | shiftPairLeft {n m : Nat} {next : Op} {rest : List Op} (hk : s.op.kind = .shiftLeft n)
      (ha : s.after = next :: rest) (he : next.elem = s.op.target) (hn : next.kind = .shiftLeft m) :
      Rewrites s .shiftPair (s.become (.shiftLeft (min 255 (n + m))) rest)
  | shiftPairRight {n m : Nat} {next : Op} {rest : List Op} (hk : s.op.kind = .shiftRight n)
      (ha : s.after = next :: rest) (he : next.elem = s.op.target)
      (hn : next.kind = .shiftRight m) :
      Rewrites s .shiftPair (s.become (.shiftRight (min 255 (n + m))) rest)
  | clearNoop {values : Constants} (hk : s.op.kind = .clear values)
      (hp : (values.pruned s.op.info.unused s.input.known).all Option.isNone = true) :
      Rewrites s .clearNoop s.after
  | clearUnused {values : Constants} (hk : s.op.kind = .clear values)
      (hp : values.pruned s.op.info.unused s.input.known ≠ values) :
      Rewrites s .clearUnused
        (s.become (.clear (values.pruned s.op.info.unused s.input.known)) s.after)
  | clearPair {values later : Constants} {next : Op} {rest : List Op}
      (hk : s.op.kind = .clear values) (ha : s.after = next :: rest) (hn : next.kind = .clear later) :
      Rewrites s .clearPair
        (s.become (.clear (Quad.zipWith (fun l v => l <|> v) later values)) rest)
  | clearSwizzle {values : Constants} {w : Swizzle} {next : Op} {rest : List Op}
      (hk : s.op.kind = .clear values) (ha : s.after = next :: rest) (hn : next.kind = .swizzle w) :
      Rewrites s .clearCommute (next :: Op.ofKind next.target (.clear (w.apply values)) :: rest)
  | clearFold {values moved : Constants} {next : Op} {rest : List Op}
      (hk : s.op.kind = .clear values) (ha : s.after = next :: rest)
      (hv : next.verb.passesConstants = true) (hf : next.foldConsts? values = .ok (some moved)) :
      Rewrites s .clearCommute (next :: Op.ofKind next.target (.clear moved) :: rest)
  | swizzleIdentity {w : Swizzle} (hk : s.op.kind = .swizzle w)
      (hw : ∀ i, s.op.info.unused i = true ∨ w.order i = i.val) :
      Rewrites s .swizzleIdentity s.after
  | swizzlePair {w later : Swizzle} {next : Op} {rest : List Op} (hk : s.op.kind = .swizzle w)
      (ha : s.after = next :: rest) (hn : next.kind = .swizzle later) :
      Rewrites s .swizzlePair (s.become (.swizzle (w.andThen later)) rest)
  | swizzleCommute {w : Swizzle} {next moved : Op} {rest : List Op} (hk : s.op.kind = .swizzle w)
      (ha : s.after = next :: rest) (hn : next.verb.isComponentwise = true)
      (hm : s.movedBefore? w next = some moved) :
      Rewrites s .swizzleCommute (moved :: Op.ofKind next.target (.swizzle w) :: rest)
  | convertNoop {expand : Bool} (hk : s.op.kind = .convert s.op.elem expand) :
      Rewrites s .convertNoop s.after
  | convertPair {mid target : Elem} {expand : Bool} {next : Op} {rest : List Op}
      (hk : s.op.kind = .convert mid expand) (ha : s.after = next :: rest) (he : next.elem = mid)
      (hn : next.kind = .convert target expand)
      (hf : Elem.fusable expand s.op.elem mid target = true) :
      Rewrites s .convertPair (s.become (.convert target expand) rest)
  | convertExpand {target : Elem} {next : Op} {rest : List Op}
      (hk : s.op.kind = .convert target false) (ha : s.after = next :: rest)
      (he : next.elem = target) (hn : next.kind = .scale (s.op.elem.expansion target))
      (hf : s.op.elem.expansion target ≠ Fraction.one) :
      Rewrites s .convertExpand (s.become (.convert target true) rest)
  | ditherExact {d : Dither} (hk : s.op.kind = .dither d)
      (hx : ∀ i, s.op.info.unused i = true ∨ (s.input.known i).exact = true) :
      Rewrites s .ditherExact s.after
  | affineIdentity {t : Affine} (hk : s.op.kind = .affine t) (hm : t.mask = 0#32) :
      Rewrites s .affineIdentity s.after
  | affinePair {t later : Affine} {next : Op} {rest : List Op} (hk : s.op.kind = .affine t)
      (ha : s.after = next :: rest) (he : next.elem = s.op.target)
      (hn : next.kind = .affine later) :
      Rewrites s .affinePair (s.become (.affine (t.andThen later)) rest)
  | affineResetUnused {t : Affine} (hk : s.op.kind = .affine t)
      (hm : (t.restricted s.nullInputs s.op.info.unused).mask ≠ t.mask) :
      Rewrites s .affineResetUnused
        (s.become (.affine (t.restricted s.nullInputs s.op.info.unused)) s.after)
  | affineConstantRows {t remaining : Affine} {values : Constants} (hk : s.op.kind = .affine t)
      (hc : t.constantRows? s.nullInputs s.op.info.unused = some (remaining, values)) :
      Rewrites s .affineConstantRows
        (s.become (.affine remaining) (Op.ofKind s.op.elem (.clear values) :: s.after))
  | affineScalar {t : Affine} {factor : Fraction} (hk : s.op.kind = .affine t)
      (hf : t.scalar? s.nullInputs s.op.info.unused = some factor) :
      Rewrites s .affineScalar (s.become (.scale factor) s.after)
  | affineSwizzle {t remaining : Affine} {w : Swizzle} (hk : s.op.kind = .affine t)
      (hw : t.swizzle? s.nullInputs s.op.info.unused = some (w, remaining)) :
      Rewrites s .affineSwizzle
        (Op.ofKind s.op.elem (.swizzle w) :: s.become (.affine remaining) s.after)
  | scaleNoop (hk : s.op.kind = .scale Fraction.one) : Rewrites s .scaleNoop s.after
  | scalePair {factor later : Fraction} {next : Op} {rest : List Op}
      (hk : s.op.kind = .scale factor) (ha : s.after = next :: rest)
      (he : next.elem = s.op.target) (hn : next.kind = .scale later)
      (hf : s.op.elem.isInt = false ∨ factor.isInteger = true ∧ later.isInteger = true ∧
        0 ≤ (factor * later).num ∧ (factor * later).num < 2 ^ (32 : Nat)) :
      Rewrites s .scalePair (s.become (.scale (factor * later)) rest)
  | scaleAfterConvert {factor : Fraction} {target : Elem} {expand : Bool} {next : Op}
      {rest : List Op} (hk : s.op.kind = .scale factor) (ha : s.after = next :: rest)
      (he : next.elem = s.op.target) (hn : next.kind = .convert target expand)
      (hs : s.op.elem.isInt = true) (ht : target.isInt = true)
      (hsize : s.op.elem.size ≤ target.size) (hf : factor.isInteger = true)
      (hr : s.staysInRange factor = true) :
      Rewrites s .scaleAfterConvert (next :: Op.ofKind target (.scale factor) :: rest)
  | scaleShiftLeft {factor : Fraction} {k : Int} (hk : s.op.kind = .scale factor)
      (hi : s.op.elem.isInt = true) (hp : factor.powerOfTwo? = some k)
      (hb : k.natAbs < s.op.elem.bits) (hpos : 0 < k) :
      Rewrites s .scaleShift (s.become (.shiftLeft k.natAbs) s.after)
  | scaleShiftRight {factor : Fraction} {k : Int} (hk : s.op.kind = .scale factor)
      (hi : s.op.elem.isInt = true) (hp : factor.powerOfTwo? = some k)
      (hb : k.natAbs < s.op.elem.bits) (hneg : ¬0 < k) :
      Rewrites s .scaleShift (s.become (.shiftRight k.natAbs) s.after)
  | clampAbove {bounds : Constants} (hk : s.op.kind = .atMost bounds)
      (hb : ∀ i, s.withinBound true bounds i = true) : Rewrites s .clampNoop s.after
  | clampBelow {bounds : Constants} (hk : s.op.kind = .atLeast bounds)
      (hb : ∀ i, s.withinBound false bounds i = true) : Rewrites s .clampNoop s.after

/-! ## 1. Reading the constructors off the rules -/

namespace Site

variable {s : Site} {ops : List Op}

/-- What holds of all operations after a place holds of the next one and of the rest. -/
theorem forall_next {P : Op → Prop} (h : ∀ op ∈ s.after, P op) ⦃next : Op⦄ ⦃rest : List Op⦄
    (ha : s.after = next :: rest) : P next ∧ ∀ op ∈ rest, P op :=
  List.forall_mem_cons.mp (ha ▸ h)

theorem next?_eq_some {next : Op} {rest : List Op} (h : s.next? = some (next, rest)) :
    s.after = next :: rest ∧ next.elem = s.op.target := by
  unfold next? at h
  split at h
  · cases h
  · rename_i n r ha
    split at h
    · rename_i he
      simp only [Option.some.injEq, Prod.mk.injEq] at h
      obtain ⟨rfl, rfl⟩ := h
      exact ⟨ha, he⟩
    · cases h

theorem plainCopy_rewrites (h : s.plainCopy = some ops) : Rewrites s .plainCopy ops := by
  unfold plainCopy at h
  split at h
  · rename_i hk hn
    obtain ⟨ha, he⟩ := next?_eq_some hn
    split at h
    · rename_i hw
      cases h
      exact .plainCopy hk ha he hw
    · cases h
  · cases h

theorem readSingleElement_rewrites (h : s.readSingleElement = some ops) :
    Rewrites s .readSingleElement ops := by
  unfold readSingleElement at h
  split at h
  · rename_i hk
    split at h
    · rename_i hc
      cases h
      simp only [Bool.and_eq_true, beq_iff_eq] at hc
      exact .readSingleElement hk hc.1 hc.2
    · cases h
  · cases h

theorem readUnusedPlanes_rewrites (h : s.readUnusedPlanes = .ok (some ops)) :
    Rewrites s .readUnusedPlanes ops := by
  unfold readUnusedPlanes at h
  split at h
  · rename_i hk
    split at h
    · cases h
    · rename_i hp
      split at h
      · cases h
      · rename_i hu
        simp only [Except.ok.injEq] at h
        split at h
        · rename_i hlt
          cases h
          exact .readUnusedPlanes hk (Bool.eq_false_iff.mpr hp) hu hlt
        · cases h
  · cases h

theorem writeSingleElement_rewrites (h : s.writeSingleElement = some ops) :
    Rewrites s .writeSingleElement ops := by
  unfold writeSingleElement at h
  split at h
  · rename_i hk
    split at h
    · rename_i hc
      cases h
      simp only [Bool.and_eq_true, beq_iff_eq] at hc
      exact .writeSingleElement hk hc.1 hc.2
    · cases h
  · cases h

theorem swapBytesNoop_rewrites (h : s.swapBytesNoop = some ops) :
    Rewrites s .swapBytesNoop ops := by
  unfold swapBytesNoop at h
  split at h
  · rename_i hk
    split at h
    · rename_i hs
      cases h
      exact .swapBytesNoop hk hs
    · cases h
  · cases h

theorem swapBytesPair_rewrites (h : s.swapBytesPair = some ops) :
    Rewrites s .swapBytesPair ops := by
  unfold swapBytesPair at h
  split at h
  · rename_i hk hn
    obtain ⟨ha, he⟩ := next?_eq_some hn
    split at h
    · rename_i hw
      cases h
      exact .swapBytesPair hk ha he hw
    · cases h
  · cases h

theorem unpackPack_rewrites (h : s.unpackPack = some ops) : Rewrites s .unpackPack ops := by
  unfold unpackPack at h
  split at h
  · rename_i hk hn
    obtain ⟨ha, he⟩ := next?_eq_some hn
    split at h
    · rename_i hw
      cases h
      exact .unpackPack hk ha he hw
    · cases h
  · cases h

theorem shiftNoop_rewrites (h : s.shiftNoop = some ops) : Rewrites s .shiftNoop ops := by
  unfold shiftNoop at h
  split at h
  · rename_i hk
    split at h
    · rename_i hn
      cases h
      exact .shiftNoop (.inl (hn ▸ hk))
    · cases h
  · rename_i hk
    split at h
    · rename_i hn
      cases h
      exact .shiftNoop (.inr (hn ▸ hk))
    · cases h
  · cases h

/-- Two shifts that can be added go in one direction and stand next to each other. -/
theorem shiftSum?_eq_some {sum : Nat} {kind : Kind} {rest : List Op}
    (h : s.shiftSum? = some (sum, kind, rest)) :
    ∃ n m next, s.after = next :: rest ∧ next.elem = s.op.target ∧ sum = min 255 (n + m) ∧
      (s.op.kind = .shiftLeft n ∧ next.kind = .shiftLeft m ∧ kind = .shiftLeft sum ∨
        s.op.kind = .shiftRight n ∧ next.kind = .shiftRight m ∧ kind = .shiftRight sum) := by
  unfold shiftSum? at h
  split at h
  · rename_i hk hn
    obtain ⟨ha, he⟩ := next?_eq_some hn
    simp only [Option.some.injEq, Prod.mk.injEq] at h
    obtain ⟨rfl, rfl, rfl⟩ := h
    exact ⟨_, _, _, ha, he, rfl, .inl ⟨hk, rfl, rfl⟩⟩
  · rename_i hk hn
    obtain ⟨ha, he⟩ := next?_eq_some hn
    simp only [Option.some.injEq, Prod.mk.injEq] at h
    obtain ⟨rfl, rfl, rfl⟩ := h
    exact ⟨_, _, _, ha, he, rfl, .inr ⟨hk, rfl, rfl⟩⟩
  · cases h

theorem shiftPairOverflow_rewrites (h : s.shiftPairOverflow = some ops) :
    Rewrites s .shiftPairOverflow ops := by
  unfold shiftPairOverflow at h
  split at h
  · rename_i hsum
    obtain ⟨n, m, next, ha, he, rfl, hk⟩ := shiftSum?_eq_some hsum
    split at h
    · rename_i hle
      cases h
      refine .shiftPairOverflow ha he ?_ hle
      rcases hk with ⟨h1, h2, -⟩ | ⟨h1, h2, -⟩
      · exact .inl ⟨h1, h2⟩
      · exact .inr ⟨h1, h2⟩
    · cases h
  · cases h

theorem shiftPair_rewrites (h : s.shiftPair = some ops) : Rewrites s .shiftPair ops := by
  unfold shiftPair at h
  split at h
  · rename_i hsum
    obtain ⟨n, m, next, ha, he, rfl, hk⟩ := shiftSum?_eq_some hsum
    cases h
    rcases hk with ⟨h1, h2, rfl⟩ | ⟨h1, h2, rfl⟩
    · exact .shiftPairLeft h1 ha he h2
    · exact .shiftPairRight h1 ha he h2
  · cases h

theorem clearNoop_rewrites (h : s.clearNoop = some ops) : Rewrites s .clearNoop ops := by
  unfold clearNoop at h
  split at h
  · rename_i hk
    split at h
    · rename_i hp
      cases h
      exact .clearNoop hk hp
    · cases h
  · cases h

theorem clearUnused_rewrites (h : s.clearUnused = some ops) : Rewrites s .clearUnused ops := by
  unfold clearUnused at h
  split at h
  · rename_i hk
    simp only at h
    split at h
    · cases h
    · rename_i hp
      cases h
      exact .clearUnused hk hp
  · cases h

theorem clearPair_rewrites (h : s.clearPair = some ops) : Rewrites s .clearPair ops := by
  unfold clearPair at h
  split at h
  · rename_i hk ha
    cases h
    exact .clearPair hk ha rfl
  · cases h

theorem clearCommute_rewrites (h : s.clearCommute = .ok (some ops)) :
    Rewrites s .clearCommute ops := by
  unfold clearCommute at h
  split at h
  · rename_i values next rest hk ha
    simp only at h
    split at h
    · rename_i hn
      cases h
      exact .clearSwizzle hk ha hn
    · split at h
      · rename_i hv
        cases hf : next.foldConsts? values with
        | error f =>
          rw [hf] at h
          cases h
        | ok moved? =>
          rw [hf] at h
          obtain ⟨moved, rfl, rfl⟩ := Option.map_eq_some_iff.mp (Except.ok.inj h)
          exact .clearFold hk ha hv hf
      · cases h
  · cases h

theorem swizzleIdentity_rewrites (h : s.swizzleIdentity = some ops) :
    Rewrites s .swizzleIdentity ops := by
  unfold swizzleIdentity at h
  split at h
  · rename_i hk
    split at h
    · rename_i hw
      cases h
      refine .swizzleIdentity hk fun i => ?_
      have hi := Quad.all_indices.mp hw i
      simpa only [Bool.or_eq_true, beq_iff_eq] using hi
    · cases h
  · cases h

theorem swizzlePair_rewrites (h : s.swizzlePair = some ops) : Rewrites s .swizzlePair ops := by
  unfold swizzlePair at h
  split at h
  · rename_i hk ha
    cases h
    exact .swizzlePair hk ha rfl
  · cases h

/-- A conversion acts on each component alone. -/
theorem isComponentwise_of_isConvert {op : Op} (h : isConvert op = true) :
    op.verb.isComponentwise = true := by
  unfold isConvert at h
  rw [beq_iff_eq.mp h]
  rfl

theorem swizzleCommute_rewrites (h : s.swizzleCommute = some ops) :
    Rewrites s .swizzleCommute ops := by
  unfold swizzleCommute at h
  split at h
  · rename_i hk ha
    simp only at h
    split at h
    · rename_i hc
      obtain ⟨moved, hm, rfl⟩ := Option.map_eq_some_iff.mp h
      refine .swizzleCommute hk ha ?_ hm
      simp only [Bool.or_eq_true, Bool.and_eq_true] at hc
      rcases hc with ⟨-, hc⟩ | ⟨-, hc⟩
      · exact isComponentwise_of_isConvert hc
      · exact hc
    · cases h
  · cases h

theorem convertNoop_rewrites (h : s.convertNoop = some ops) : Rewrites s .convertNoop ops := by
  unfold convertNoop at h
  split at h
  · rename_i hk
    split at h
    · rename_i he
      cases h
      exact .convertNoop (he ▸ hk)
    · cases h
  · cases h

theorem target_convert {op : Op} {target : Elem} {expand : Bool}
    (hk : op.kind = .convert target expand) : op.target = target := by
  unfold Op.target
  rw [hk]

theorem convertPair_rewrites (h : s.convertPair = some ops) : Rewrites s .convertPair ops := by
  unfold convertPair at h
  split at h
  · rename_i hk hn
    obtain ⟨ha, he⟩ := next?_eq_some hn
    split at h
    · rename_i hf
      simp only [Bool.and_eq_true, decide_eq_true_eq] at hf
      obtain ⟨rfl, hf⟩ := hf
      cases h
      exact .convertPair hk ha (he.trans (target_convert hk)) rfl hf
    · cases h
  · cases h

theorem convertExpand_rewrites (h : s.convertExpand = some ops) : Rewrites s .convertExpand ops := by
  unfold convertExpand at h
  split at h
  · rename_i hk hn
    obtain ⟨ha, he⟩ := next?_eq_some hn
    simp only at h
    split at h
    · rename_i hf
      simp only [Bool.and_eq_true, decide_eq_true_eq, bne_iff_ne] at hf
      obtain ⟨rfl, hf⟩ := hf
      cases h
      exact .convertExpand hk ha (he.trans (target_convert hk)) rfl hf
    · cases h
  · cases h

theorem ditherExact_rewrites (h : s.ditherExact = some ops) : Rewrites s .ditherExact ops := by
  unfold ditherExact at h
  split at h
  · rename_i hk
    split at h
    · rename_i hx
      cases h
      refine .ditherExact hk fun i => ?_
      have hi := Quad.all_indices.mp hx i
      simpa only [Bool.or_eq_true] using hi
    · cases h
  · cases h

theorem affineIdentity_rewrites (h : s.affineIdentity = some ops) :
    Rewrites s .affineIdentity ops := by
  unfold affineIdentity at h
  split at h
  · rename_i hk
    split at h
    · rename_i hm
      cases h
      exact .affineIdentity hk hm
    · cases h
  · cases h

theorem affinePair_rewrites (h : s.affinePair = some ops) : Rewrites s .affinePair ops := by
  unfold affinePair at h
  split at h
  · rename_i hk hn
    obtain ⟨ha, he⟩ := next?_eq_some hn
    cases h
    exact .affinePair hk ha he rfl
  · cases h

theorem affineResetUnused_rewrites (h : s.affineResetUnused = some ops) :
    Rewrites s .affineResetUnused ops := by
  unfold affineResetUnused at h
  split at h
  · rename_i hk
    simp only at h
    split at h
    · cases h
    · rename_i hm
      cases h
      exact .affineResetUnused hk hm
  · cases h

theorem affineConstantRows_rewrites (h : s.affineConstantRows = some ops) :
    Rewrites s .affineConstantRows ops := by
  unfold affineConstantRows at h
  split at h
  · rename_i hk
    obtain ⟨⟨remaining, values⟩, hc, rfl⟩ := Option.map_eq_some_iff.mp h
    exact .affineConstantRows hk hc
  · cases h

theorem affineScalar_rewrites (h : s.affineScalar = some ops) : Rewrites s .affineScalar ops := by
  unfold affineScalar at h
  split at h
  · rename_i hk
    obtain ⟨factor, hf, rfl⟩ := Option.map_eq_some_iff.mp h
    exact .affineScalar hk hf
  · cases h

theorem affineSwizzle_rewrites (h : s.affineSwizzle = some ops) :
    Rewrites s .affineSwizzle ops := by
  unfold affineSwizzle at h
  split at h
  · rename_i hk
    obtain ⟨⟨w, remaining⟩, hw, rfl⟩ := Option.map_eq_some_iff.mp h
    exact .affineSwizzle hk hw
  · cases h

theorem scaleNoop_rewrites (h : s.scaleNoop = some ops) : Rewrites s .scaleNoop ops := by
  unfold scaleNoop at h
  split at h
  · rename_i hk
    split at h
    · rename_i hf
      cases h
      exact .scaleNoop (hf ▸ hk)
    · cases h
  · cases h

theorem scalePair_rewrites (h : s.scalePair = some ops) : Rewrites s .scalePair ops := by
  unfold scalePair at h
  split at h
  · rename_i hk hn
    obtain ⟨ha, he⟩ := next?_eq_some hn
    simp only at h
    split at h
    · rename_i hf
      cases h
      refine .scalePair hk ha he rfl ?_
      simpa only [Bool.or_eq_true, Bool.not_eq_true', Bool.and_eq_true, decide_eq_true_eq,
        and_assoc] using hf
    · cases h
  · cases h

theorem scaleAfterConvert_rewrites (h : s.scaleAfterConvert = some ops) :
    Rewrites s .scaleAfterConvert ops := by
  unfold scaleAfterConvert at h
  split at h
  · rename_i hk hn
    obtain ⟨ha, he⟩ := next?_eq_some hn
    split at h
    · rename_i hc
      split at h
      · rename_i hf
        simp only [Bool.and_eq_true, decide_eq_true_eq] at hf
        obtain ⟨⟨⟨⟨hs, ht⟩, hsize⟩, hf⟩, hr⟩ := hf
        cases h
        exact .scaleAfterConvert hk ha he hc hs ht hsize hf hr
      · cases h
    · cases h
  · cases h

theorem scaleShift_rewrites (h : s.scaleShift = some ops) : Rewrites s .scaleShift ops := by
  unfold scaleShift at h
  split at h
  · rename_i hk
    split at h
    · rename_i hi
      split at h
      · rename_i hp
        split at h
        · rename_i hb
          cases h
          split
          · rename_i hpos
            exact .scaleShiftLeft hk hi hp hb hpos
          · rename_i hneg
            exact .scaleShiftRight hk hi hp hb hneg
        · cases h
      · cases h
    · cases h
  · cases h

theorem clampNoop_rewrites (h : s.clampNoop = some ops) : Rewrites s .clampNoop ops := by
  unfold clampNoop at h
  split at h
  · rename_i hk
    split at h
    · rename_i hb
      cases h
      exact .clampAbove hk (Quad.all_indices.mp hb)
    · cases h
  · rename_i hk
    split at h
    · rename_i hb
      cases h
      exact .clampBelow hk (Quad.all_indices.mp hb)
    · cases h
  · cases h

end Site

/-- **Whatever a rule does is one of the listed rewrites.** -/
theorem Rule.rewrites {rule : Rule} {s : Site} {ops : List Op}
    (h : rule.apply s = .ok (some ops)) : Rewrites s rule ops := by
  cases rule with
  | readUnusedPlanes => exact Site.readUnusedPlanes_rewrites h
  | plainCopy => exact Site.plainCopy_rewrites (Except.ok.inj h)
  | readSingleElement => exact Site.readSingleElement_rewrites (Except.ok.inj h)
  | writeSingleElement => exact Site.writeSingleElement_rewrites (Except.ok.inj h)
  | swapBytesNoop => exact Site.swapBytesNoop_rewrites (Except.ok.inj h)
  | swapBytesPair => exact Site.swapBytesPair_rewrites (Except.ok.inj h)
  | unpackPack => exact Site.unpackPack_rewrites (Except.ok.inj h)
  | shiftNoop => exact Site.shiftNoop_rewrites (Except.ok.inj h)
  | shiftPairOverflow => exact Site.shiftPairOverflow_rewrites (Except.ok.inj h)
  | shiftPair => exact Site.shiftPair_rewrites (Except.ok.inj h)
  | clearNoop => exact Site.clearNoop_rewrites (Except.ok.inj h)
  | clearUnused => exact Site.clearUnused_rewrites (Except.ok.inj h)
  | clearPair => exact Site.clearPair_rewrites (Except.ok.inj h)
  | clearCommute => exact Site.clearCommute_rewrites h
  | swizzleIdentity => exact Site.swizzleIdentity_rewrites (Except.ok.inj h)
  | swizzlePair => exact Site.swizzlePair_rewrites (Except.ok.inj h)
  | swizzleCommute => exact Site.swizzleCommute_rewrites (Except.ok.inj h)
  | convertNoop => exact Site.convertNoop_rewrites (Except.ok.inj h)
  | convertPair => exact Site.convertPair_rewrites (Except.ok.inj h)
  | convertExpand => exact Site.convertExpand_rewrites (Except.ok.inj h)
  | ditherExact => exact Site.ditherExact_rewrites (Except.ok.inj h)
  | affineIdentity => exact Site.affineIdentity_rewrites (Except.ok.inj h)
  | affinePair => exact Site.affinePair_rewrites (Except.ok.inj h)
  | affineResetUnused => exact Site.affineResetUnused_rewrites (Except.ok.inj h)
  | affineConstantRows => exact Site.affineConstantRows_rewrites (Except.ok.inj h)
  | affineScalar => exact Site.affineScalar_rewrites (Except.ok.inj h)
  | affineSwizzle => exact Site.affineSwizzle_rewrites (Except.ok.inj h)
  | scaleNoop => exact Site.scaleNoop_rewrites (Except.ok.inj h)
  | scalePair => exact Site.scalePair_rewrites (Except.ok.inj h)
  | scaleAfterConvert => exact Site.scaleAfterConvert_rewrites (Except.ok.inj h)
  | scaleShift => exact Site.scaleShift_rewrites (Except.ok.inj h)
  | clampNoop => exact Site.clampNoop_rewrites (Except.ok.inj h)

/-! ## 2. What the rules have found out -/

/-- The planes that are kept: at least one, and all that are read. -/
theorem Site.usedPlanes_eq_ok {unused : Quad Bool} {count used : Nat}
    (h : Site.usedPlanes unused count = .ok used) :
    0 < used ∧ ∀ i : Fin 4, i.val < count → unused i = false → i.val < used := by
  unfold Site.usedPlanes at h
  split at h
  · have hmem : ∀ i : Fin 4, i.val < count → i ∈ Quad.indices.take count := by
      intro i hi
      refine List.mem_take_iff_getElem.mpr ⟨i.val, by show i.val < min count 4; omega, ?_⟩
      match i with
      | 0 | 1 | 2 | 3 => rfl
    cases h
    split
    · rename_i k hfind
      refine ⟨Nat.succ_pos _, fun i hi hu => ?_⟩
      obtain ⟨hk, front, back, hlist, hfront⟩ := List.find?_eq_some_iff_append.mp hfind
      -- the components after `k` are not read
      have hlist : Quad.indices.take count = back.reverse ++ k :: front.reverse := by
        rw [← List.reverse_reverse (Quad.indices.take count), hlist, List.reverse_append,
          List.reverse_cons, List.append_assoc, List.singleton_append]
      have hsorted : (Quad.indices.take count).Pairwise (· < ·) :=
        List.Pairwise.sublist (List.take_sublist count _) (by decide)
      have hi := hmem i hi
      rw [hlist] at hi hsorted
      rcases List.mem_append.mp hi with hi | hi
      · have hlt := (List.pairwise_append.mp hsorted).2.2 i hi k List.mem_cons_self
        exact Nat.lt_succ_of_lt hlt
      · rcases List.mem_cons.mp hi with rfl | hi
        · exact Nat.lt_succ_self _
        · have := hfront i (List.mem_reverse.mp hi)
          rw [hu] at this
          cases this
    · rename_i hfind
      refine ⟨Nat.one_pos, fun i hi hu => ?_⟩
      have := List.find?_eq_none.mp hfind i (List.mem_reverse.mpr (hmem i hi))
      rw [hu] at this
      exact absurd rfl this
  · cases h

/-- A register holds each constant of a list that was tested to the end. -/
theorem Elem.represents_of_representsAll? {e : Elem} {q : Fraction} :
    ∀ {values : List (Option Fraction)}, e.representsAll? values = .ok true → some q ∈ values →
      e.represents q = true
  | [], _, hq => absurd hq List.not_mem_nil
  | none :: rest, h, hq => by
    have h : e.representsAll? rest = .ok true := h
    rcases List.mem_cons.mp hq with hq | hq
    · cases hq
    · exact represents_of_representsAll? h hq
  | some c :: rest, h, hq => by
    unfold representsAll? at h
    split at h
    · cases h
    · cases h
    rename_i hc
    rcases List.mem_cons.mp hq with hq | hq
    · cases hq
      unfold represents? at hc
      split at hc
      · cases hc
      · exact Except.ok.inj hc
    · exact represents_of_representsAll? h hq

/-- What it takes to move constants past an operation. -/
theorem Op.foldConsts?_eq_some {op : Op} {values moved : Constants}
    (h : op.foldConsts? values = .ok (some moved)) (i : Fin 4) :
    values i = none ∧ moved i = none ∨
      ∃ q, values i = some q ∧ op.elem.represents q = true ∧
        moved i = some ((op.eval (values.map fun v => v.getD Fraction.undefined)) i) ∧
        op.target.represents ((op.eval (values.map fun v => v.getD Fraction.undefined)) i) =
          true := by
  unfold Op.foldConsts? at h
  split at h
  · cases h
  rename_i y hy
  obtain rfl : y = op.eval (values.map fun v => v.getD Fraction.undefined) := by
    unfold Op.evaluate at hy
    split at hy
    · cases hy
    · exact (Except.ok.inj hy).symm
  simp only at h
  split at h
  · cases h
  · cases h
  rename_i before after hbefore hafter
  have h := Except.ok.inj h
  split at h
  · rename_i hcond
    cases h
    simp only [Bool.and_eq_true] at hcond
    obtain ⟨⟨rfl, rfl⟩, -⟩ := hcond
    have hold := Quad.mem_toList values i
    have hnew := Quad.mem_toList (Quad.zipWith (fun v q => v.map fun _ => q) values
      (op.eval (values.map fun v => v.getD Fraction.undefined))) i
    rw [Quad.get_zipWith] at hnew ⊢
    cases hv : values i with
    | none => exact .inl ⟨rfl, rfl⟩
    | some q =>
      rw [hv] at hold hnew
      exact .inr ⟨q, rfl, Elem.represents_of_representsAll? hbefore hold, rfl,
        Elem.represents_of_representsAll? hafter hnew⟩
  · cases h

/-- The constants that come out are values of the element that the operation leaves. -/
theorem Op.represents_of_foldConsts? {op : Op} {values moved : Constants} {i : Fin 4} {q : Fraction}
    (h : op.foldConsts? values = .ok (some moved)) (hq : moved i = some q) :
    op.target.represents q = true := by
  rcases foldConsts?_eq_some h i with ⟨-, hmoved⟩ | ⟨_, -, -, hmoved, hrep⟩
  · rw [hmoved] at hq
    cases hq
  · rw [hmoved] at hq
    cases hq
    exact hrep

theorem Site.movedBefore?_verb {s : Site} {w : Swizzle} {next moved : Op}
    (h : s.movedBefore? w next = some moved) :
    moved.verb = next.verb ∧ moved.weight = next.weight := by
  unfold Site.movedBefore? at h
  split at h
  · rename_i hk
    obtain ⟨b, -, rfl⟩ := Option.map_eq_some_iff.mp h
    simp only [Op.verb, Op.weight, hk, Kind.verb, and_self]
  · rename_i hk
    obtain ⟨b, -, rfl⟩ := Option.map_eq_some_iff.mp h
    simp only [Op.verb, Op.weight, hk, Kind.verb, and_self]
  · cases h
    exact ⟨rfl, rfl⟩

theorem Verb.isComponentwise_of_passesConstants {v : Verb} (h : v.passesConstants = true) :
    v.isComponentwise = true := by
  simp only [passesConstants, Bool.and_eq_true] at h
  exact h.1.1

end PixelConv
