import PixelConv.Proofs.Framing
import PixelConv.Proofs.Matrices

/-!
# Simplification and overflow

Bounds are computed with numbers of a machine word, and so are the constants that rules move. A
program whose bounds can be computed may be simplified to one whose bounds cannot, or to one with
constants that cannot be tested; simplification then breaks off. Two things lead there. A single
interleaved component hides a source depth that counts once it has a plane of its own
(`Op.HidesDepth`), or some constant, bound or offset has no negative (`Op.Negatable`). Where neither
is the case, simplification comes to its end (`Program.Framed.simplify_of_moderate`), and a depth
that is hidden always breaks it off (`Program.HidesDepth.simplify`).
-/

namespace PixelConv

/-! ## 1. Numbers with a negative -/

namespace Fraction

variable {q : Fraction}

theorem hasNegative_iff : q.hasNegative = true ↔ -(limit : Int) ≤ q.num := decide_eq_true_iff

/-- **Results of arithmetic have a negative.** -/
theorem Lowest.hasNegative (h : q.Lowest) : q.hasNegative = true := by
  refine hasNegative_iff.mpr ?_
  rcases h with rfl | ⟨-, -, hnum, -⟩
  · decide
  · omega

/-- A quotient that is rounded down is not below a negative number that its dividend is not below. -/
theorem neg_limit_le_ediv {a d : Int} (ha : -(limit : Int) ≤ a) (hd : 0 < d) :
    -(limit : Int) ≤ a / d := by
  refine Int.le_ediv_of_mul_le hd (Int.le_trans ?_ ha)
  have hle : (limit : Int) * 1 ≤ limit * d := Int.mul_le_mul_of_nonneg_left hd (Int.natCast_nonneg _)
  rw [Int.neg_mul]
  omega

theorem hasNegative_shiftRight (h : q.hasNegative = true) (n : Nat) :
    (q.shiftRight n).hasNegative = true := by
  unfold shiftRight
  split
  · rename_i hq
    refine hasNegative_iff.mpr ?_
    show -(limit : Int) ≤ if n < 64 then q.num / q.den / 2 ^ n else 0
    split
    · exact neg_limit_le_ediv (neg_limit_le_ediv (hasNegative_iff.mp h)
        (Int.natCast_pos.mpr (isDefined_iff.mp hq))) (Int.pow_pos (by decide))
    · decide
  · exact h

/-- A clamp of floats gives the value or the bound. -/
theorem hasNegative_clamp {bound : Option Fraction} {upper : Bool}
    (hb : ∀ b, bound = some b → b.hasNegative = true) (hq : q.hasNegative = true) :
    (clamp .f32 upper bound q).hasNegative = true := by
  cases bound with
  | none => exact hq
  | some b =>
    cases hdef : b.isDefined with
    | false =>
      simp only [clamp, Elem.effectiveBound?, hdef, Bool.false_eq_true, if_false]
      exact hq
    | true =>
      simp only [clamp, Elem.effectiveBound?, hdef, if_true, Elem.max?, Elem.top?, Elem.isInt,
        Bool.false_eq_true, if_false, Option.map_none]
      generalize (!q.isDefined || if upper = true then b.lt q else q.lt b) = test
      cases test with
      | true => exact hb b rfl
      | false => exact hq

end Fraction

/-- What a register holds has a negative. -/
theorem Elem.hasNegative_of_represents {e : Elem} {q : Fraction} (h : e.represents q = true) :
    q.hasNegative = true := by
  refine Fraction.hasNegative_iff.mpr ?_
  have hlimit : Fraction.limit = 2 ^ 63 - 1 := rfl
  unfold represents at h
  split at h
  · rename_i he
    obtain ⟨w, hw⟩ := Option.isSome_iff_exists.mp h
    obtain ⟨rfl, -⟩ := (word?_eq_some_iff he).mp hw
    show -(Fraction.limit : Int) ≤ (w.toNat : Int)
    omega
  · have hnum := of_decide_eq_true (Bool.and_eq_true_iff.mp h).2
    omega

/-- Constants that fill all bytes alike have a negative. -/
theorem Shuffle.hasNegative_of_fill? {e : Elem} {q : Fraction} (h : (fill? e q).isSome = true) :
    q.hasNegative = true := by
  refine Fraction.hasNegative_iff.mpr ?_
  have hlimit : (0 : Int) ≤ Fraction.limit := Int.natCast_nonneg _
  unfold fill? at h
  split at h
  · rename_i hzero
    have hnum := (Fraction.isZero_iff.mp hzero).2
    omega
  · split at h
    · rename_i hmax
      obtain ⟨top, -, rfl⟩ := Option.map_eq_some_iff.mp hmax
      show -(Fraction.limit : Int) ≤ (top : Int)
      omega
    · cases h

/-! ## 2. Constants that can be tested -/

/-- Every offset of the transform has a negative. -/
def Affine.Negatable (t : Affine) : Prop := ∀ i, (t.rows i).offset.hasNegative = true

/-- Every number that the operation sets components to, or may set them to, has a negative. Upper
bounds on integers count for nothing: they are rounded down. -/
def Op.Negatable (op : Op) : Prop :=
  match op.kind with
  | .clear values => ∀ i q, values i = some q → q.hasNegative = true
  | .atMost bounds => op.elem.isInt = false → ∀ i q, bounds i = some q → q.hasNegative = true
  | .atLeast bounds => ∀ i q, bounds i = some q → q.hasNegative = true
  | .affine t => t.Negatable
  | _ => True

namespace Op

variable {op : Op} {values : Constants} {f : Fault}

theorem Negatable.negatesLeast (h : op.Negatable) : op.negatesLeast = false := by
  obtain ⟨elem, kind, info⟩ := op
  cases kind with
  | atLeast bounds =>
    refine Bool.and_eq_false_iff.mpr (.inr (Bool.eq_false_iff.mpr fun hany => ?_))
    obtain ⟨i, hi⟩ := Quad.any_iff.mp hany
    cases hb : bounds i with
    | none =>
      rw [hb] at hi
      cases hi
    | some b =>
      rw [hb, Option.any_some, h i b hb] at hi
      cases hi
  | _ => rfl

/-- **Constants that an operation leaves as floats have a negative** if those before it have one. -/
theorem Negatable.eval (h : op.Negatable) (hv : op.verb.passesConstants = true)
    (ht : op.target.isInt = false) {x : Value} {i : Fin 4} (hx : (x i).hasNegative = true) :
    ((op.eval x) i).hasNegative = true := by
  obtain ⟨elem, kind, info⟩ := op
  have hfloat : ∀ e : Elem, e.isInt = false → e = .f32 := fun e he => by
    cases e with
    | f32 => rfl
    | u8 | u16 | u32 => cases he
  cases kind with
  | convert target expand =>
    obtain rfl := hfloat target ht
    have hval : ((Op.mk elem (.convert .f32 expand) info).eval x) i =
        if expand then x i * elem.expansion .f32 else x i := by
      cases elem <;> exact Quad.get_map ..
    rw [hval]
    split
    · exact (Fraction.lowest_mul _ _).hasNegative
    · exact hx
  | shiftLeft n =>
    obtain rfl := hfloat elem ht
    exact (Quad.get_map ..).symm ▸ (Fraction.lowest_mul _ _).hasNegative
  | scale factor =>
    obtain rfl := hfloat elem ht
    exact (Quad.get_map ..).symm ▸ (Fraction.lowest_mul _ _).hasNegative
  | shiftRight n =>
    obtain rfl := hfloat elem ht
    exact (Quad.get_map ..).symm ▸ Fraction.hasNegative_shiftRight hx n
  | atMost bounds =>
    obtain rfl := hfloat elem ht
    exact (Quad.get_zipWith ..).symm ▸ Fraction.hasNegative_clamp (h rfl i) hx
  | atLeast bounds =>
    obtain rfl := hfloat elem ht
    exact (Quad.get_zipWith ..).symm ▸ Fraction.hasNegative_clamp (h i) hx
  | read | write | swapBytes | unpack | pack | clear | swizzle | dither | affine => cases hv

end Op

/-- A test that breaks off has met a constant of a float that has no negative. -/
theorem Elem.representsAll?_eq_error {e : Elem} {f : Fault} :
    ∀ {values : List (Option Fraction)}, e.representsAll? values = .error f →
      f = .overflow ∧ e.isInt = false ∧ ∃ q, some q ∈ values ∧ q.hasNegative = false
  | [], h => by cases h
  | none :: rest, h => by
    have h : e.representsAll? rest = .error f := h
    obtain ⟨hf, he, q, hq, hneg⟩ := representsAll?_eq_error h
    exact ⟨hf, he, q, List.mem_cons_of_mem _ hq, hneg⟩
  | some c :: rest, h => by
    unfold representsAll? at h
    split at h
    · rename_i hc
      cases h
      unfold represents? at hc
      split at hc
      · rename_i hleast
        cases hc
        simp only [Bool.and_eq_true, Bool.not_eq_true'] at hleast
        exact ⟨rfl, hleast.1.1, c, List.mem_cons_self, hleast.2⟩
      · cases hc
    · cases h
    · obtain ⟨hf, he, q, hq, hneg⟩ := representsAll?_eq_error h
      exact ⟨hf, he, q, List.mem_cons_of_mem _ hq, hneg⟩

namespace Op

variable {op : Op} {values : Constants} {f : Fault}

/-- **Why constants cannot be moved past an operation**: a bound of the operation, a constant before it
or a float after it has no negative. -/
theorem foldConsts?_eq_error (h : op.foldConsts? values = .error f) :
    f = .overflow ∧ (op.negatesLeast = true ∨
      ∃ i q, values i = some q ∧ (q.hasNegative = false ∨ op.target.isInt = false ∧
        ((op.eval (values.map fun v => v.getD Fraction.undefined)) i).hasNegative = false)) := by
  unfold foldConsts? at h
  split at h
  · rename_i hy
    cases h
    unfold evaluate at hy
    split at hy
    · rename_i hneg
      cases hy
      exact ⟨rfl, .inl hneg⟩
    · cases hy
  · rename_i y hy
    obtain rfl : y = op.eval (values.map fun v => v.getD Fraction.undefined) := by
      unfold evaluate at hy
      split at hy
      · cases hy
      · exact (Except.ok.inj hy).symm
    simp only at h
    split at h
    · rename_i hbefore
      cases h
      obtain ⟨rfl, -, q, hq, hneg⟩ := Elem.representsAll?_eq_error hbefore
      obtain ⟨i, hi⟩ := Quad.exists_of_mem hq
      exact ⟨rfl, .inr ⟨i, q, hi, .inl hneg⟩⟩
    · rename_i hafter
      cases h
      obtain ⟨rfl, ht, q, hq, hneg⟩ := Elem.representsAll?_eq_error hafter
      obtain ⟨i, hi⟩ := Quad.exists_of_mem hq
      rw [Quad.get_zipWith] at hi
      obtain ⟨c, hc, rfl⟩ := Option.map_eq_some_iff.mp hi
      exact ⟨rfl, .inr ⟨i, c, hc, .inr ⟨ht, hneg⟩⟩⟩
    · cases h

theorem Negatable.foldConsts? (h : op.Negatable) (hv : op.verb.passesConstants = true)
    (hvalues : ∀ i q, values i = some q → q.hasNegative = true) :
    op.foldConsts? values ≠ .error f := by
  intro herror
  obtain ⟨-, hleast | ⟨i, q, hq, hneg | ⟨ht, hneg⟩⟩⟩ := foldConsts?_eq_error herror
  · rw [h.negatesLeast] at hleast
    cases hleast
  · rw [hvalues i q hq] at hneg
    cases hneg
  · rw [h.eval hv ht (by rw [Quad.get_map, hq]; exact hvalues i q hq)] at hneg
    cases hneg

end Op

/-! ## 3. Operations that rules keep moderate -/

/-- A single interleaved component has no plane of its own, and so its source depth does not count.
Here it is one whose bounds could not be computed if it did. -/
def Op.HidesDepth (depths : Option Depths) (op : Op) : Prop :=
  op.elem.isInt = true ∧ ∃ l d, op.kind = .read l ∧ depths = some d ∧ l.packed = true ∧
    l.count = 1 ∧ Bounds.maxBits < d 0

/-- The bounds after the operation can be computed, and its numbers and depths do no harm to other
operations either. -/
structure Op.Moderate (depths : Option Depths) (op : Op) : Prop where
  bounds : op.overflows depths = false
  numbers : op.Negatable
  depth : ¬op.HidesDepth depths

/-- Operations of this kind say how many bits their components have. -/
def Verb.readsFields : Verb → Bool
  | .read | .unpack => true
  | _ => false

namespace Op

variable {op : Op} {depths : Option Depths}

theorem Negatable.congr {a b : Op} (hc : a.code = b.code) (h : a.Negatable) : b.Negatable := by
  obtain ⟨ae, ak, ai⟩ := a
  obtain ⟨be, bk, bi⟩ := b
  cases hc
  exact h

theorem HidesDepth.congr {a b : Op} (hc : a.code = b.code) (h : a.HidesDepth depths) :
    b.HidesDepth depths := by
  obtain ⟨ae, ak, ai⟩ := a
  obtain ⟨be, bk, bi⟩ := b
  cases hc
  exact h

theorem Negatable.clear {values : Constants} (h : op.Negatable) (hk : op.kind = .clear values)
    (i : Fin 4) (q : Fraction) (hq : values i = some q) : q.hasNegative = true := by
  unfold Negatable at h
  rw [hk] at h
  exact h i q hq

theorem Negatable.affine {t : Affine} (h : op.Negatable) (hk : op.kind = .affine t) : t.Negatable := by
  unfold Negatable at h
  rw [hk] at h
  exact h

/-- A read can be measured if all of its components can. -/
theorem overflows_read {l : Layout} (hk : op.kind = .read l) : op.overflows depths = false ↔
    (op.elem.isInt = true → ∀ i : Fin 4, i.val < l.count → l.measures depths i = true) := by
  simp only [overflows, hk, ← Bool.not_eq_true, Quad.any_indices, Bool.and_eq_true,
    decide_eq_true_eq, Bool.not_eq_true']
  constructor
  · intro h hint i hi
    exact Classical.byContradiction fun hm => h ⟨hint, i, hi, hm⟩
  · rintro h ⟨hint, i, hi, hm⟩
    exact hm (h hint i hi)

namespace Moderate

theorem congr {a b : Op} (hc : a.code = b.code) (h : a.Moderate depths) : b.Moderate depths :=
  ⟨(overflows_congr hc depths).symm.trans h.bounds, h.numbers.congr hc,
    fun hb => h.depth (hb.congr hc.symm)⟩

/-- Operations that read no fields are moderate if their numbers are. -/
theorem of_numbers (hfields : op.verb.readsFields = false) (h : op.Negatable) :
    op.Moderate depths := by
  refine ⟨?_, h, ?_⟩
  · have hleast := h.negatesLeast
    obtain ⟨elem, kind, info⟩ := op
    cases kind with
    | read | unpack => cases hfields
    | _ => exact hleast
  · rintro ⟨-, l, _, hk, -⟩
    rw [Op.verb, hk] at hfields
    cases hfields

/-- A single component whose depth is not hidden can be read from a plane. -/
theorem readSingle {l : Layout} (h : op.Moderate depths) (hk : op.kind = .read l)
    (hp : l.packed = true) (hc : l.count = 1) :
    Moderate depths { op with kind := .read { l with packed := false } } := by
  refine ⟨(overflows_read rfl).mpr fun hint i hi => ?_, trivial, ?_⟩
  · obtain rfl : i = 0 := Fin.ext (by have : i.val < l.count := hi; omega)
    have hold := (overflows_read hk).mp h.bounds hint 0 (by rw [hc]; decide)
    unfold Layout.measures at hold ⊢
    cases depths with
    | none => exact hold
    | some d =>
      simp only [hp, Bool.not_true, Bool.and_false, Bool.false_eq_true, if_false] at hold
      simp only [Bool.not_false, Bool.and_true]
      split
      · refine decide_eq_true (Nat.not_lt.mp fun hlt => h.depth ?_)
        exact ⟨hint, l, d, hk, rfl, hp, hc, hlt⟩
      · exact hold
  · rintro ⟨-, l', _, hk', -, hp', -⟩
    cases hk'
    cases hp'

/-- Fewer planes can be read where more of them can. -/
theorem readPlanes {l : Layout} {n : Nat} (h : op.Moderate depths) (hk : op.kind = .read l)
    (hp : l.packed = false) (hn : n ≤ l.count) :
    Moderate depths { op with kind := .read { l with count := n } } := by
  refine ⟨(overflows_read rfl).mpr fun hint i hi => ?_, trivial, ?_⟩
  · exact (overflows_read hk).mp h.bounds hint i (Nat.lt_of_lt_of_le hi hn)
  · rintro ⟨-, l', _, hk', -, hp', -⟩
    cases hk'
    rw [hp] at hp'
    cases hp'

end Moderate

end Op

/-- The bounds that are taken back through a swizzle are some of those after it. -/
theorem Site.boundsBefore?_mem {w : Swizzle} {bounds b : Constants} :
    ∀ {used : List (Fin 4)} {acc : Quad (Option (Option Fraction))},
      Site.boundsBefore? w bounds used acc = some b →
      (∀ j q, acc j = some (some q) → ∃ i, bounds i = some q) →
      ∀ j q, b j = some q → ∃ i, bounds i = some q
  | [], acc, h, hacc => by
    cases h
    intro j q hq
    rw [Quad.get_map] at hq
    exact hacc j q (Option.join_eq_some_iff.mp hq)
  | k :: used, acc, h, hacc => by
    unfold Site.boundsBefore? at h
    split at h
    · split at h
      · exact boundsBefore?_mem h hacc
      · cases h
    · refine boundsBefore?_mem h fun j q hj => ?_
      rw [Quad.get_set] at hj
      split at hj
      · exact ⟨k, Option.some.inj hj⟩
      · exact hacc j q hj

theorem Op.Moderate.movedBefore? {depths : Option Depths} {s : Site} {w : Swizzle} {next moved : Op}
    (h : next.Moderate depths) (hm : s.movedBefore? w next = some moved) : moved.Moderate depths := by
  have hnone : ∀ (j : Fin 4) (q : Fraction) (bounds : Constants),
      (Quad.const none : Quad (Option (Option Fraction))) j = some (some q) →
        ∃ i, bounds i = some q := by
    intro j q bounds hj
    rw [Quad.get_const] at hj
    cases hj
  obtain ⟨elem, kind, info⟩ := next
  cases kind with
  | atMost bounds =>
    obtain ⟨b, hb, rfl⟩ := Option.map_eq_some_iff.mp hm
    refine .of_numbers rfl fun hfloat j q hq => ?_
    obtain ⟨i, hi⟩ := Site.boundsBefore?_mem hb (fun j q => hnone j q bounds) j q hq
    exact h.numbers hfloat i q hi
  | atLeast bounds =>
    obtain ⟨b, hb, rfl⟩ := Option.map_eq_some_iff.mp hm
    refine .of_numbers rfl fun j q hq => ?_
    obtain ⟨i, hi⟩ := Site.boundsBefore?_mem hb (fun j q => hnone j q bounds) j q hq
    exact h.numbers i q hi
  | _ =>
    cases hm
    exact h

/-! ## 4. Transforms -/

namespace Affine

variable {t u : Affine}

theorem hasNegative_unit (i : Fin 4) : (unit i 4).hasNegative = true := by
  match i with
  | 0 | 1 | 2 | 3 => decide

/-- **A composition has offsets that were computed.** -/
theorem negatable_andThen (t u : Affine) : (t.andThen u).Negatable := by
  intro i
  show ((t.andThen u).entry i 4).hasNegative = true
  rw [entry_andThen, productEntry, if_pos rfl]
  exact (Fraction.lowest_add _ _).hasNegative

namespace Negatable

theorem withUnitRow (h : t.Negatable) (i : Fin 4) : (t.withUnitRow i).Negatable := by
  intro a
  show ((t.withUnitRow i).entry a 4).hasNegative = true
  rw [entry_withUnitRow]
  split
  · exact hasNegative_unit a
  · exact h a

theorem withUnitCol (h : t.Negatable) (j : Fin 5) : (t.withUnitCol j).Negatable := by
  intro a
  show ((t.withUnitCol j).entry a 4).hasNegative = true
  rw [entry_withUnitCol]
  split
  · exact hasNegative_unit a
  · exact h a

theorem restricted (h : t.Negatable) (nullInputs unused : Quad Bool) :
    (t.restricted nullInputs unused).Negatable := by
  unfold Affine.restricted
  refine List.foldlRecOn (motive := Affine.Negatable) _ _
    (List.foldlRecOn (motive := Affine.Negatable) _ _ h fun t ht j _ => ?_) fun t ht i _ => ?_
  · split
    · exact ht.withUnitCol _
    · exact ht
  · split
    · exact ht.withUnitRow _
    · exact ht

theorem constantRows? {remaining : Affine} {nullInputs unused : Quad Bool} {values : Constants}
    (h : t.Negatable) (hc : t.constantRows? nullInputs unused = some (remaining, values)) :
    remaining.Negatable := by
  unfold Affine.constantRows? at hc
  simp only at hc
  split at hc
  · cases hc
  · simp only [Option.some.injEq, Prod.mk.injEq] at hc
    obtain ⟨rfl, -⟩ := hc
    exact List.foldlRecOn (motive := Affine.Negatable) _ _ h fun t ht i _ => ht.withUnitRow i

theorem swizzle? {remaining : Affine} {nullInputs unused : Quad Bool} {w : Swizzle}
    (h : t.Negatable) (hw : t.swizzle? nullInputs unused = some (w, remaining)) :
    remaining.Negatable := by
  unfold Affine.swizzle? at hw
  simp only at hw
  split at hw
  · simp only [Option.some.injEq, Prod.mk.injEq] at hw
    obtain ⟨-, rfl⟩ := hw
    intro i
    rw [ofRows, Quad.get_ofFn]
    split
    · exact hasNegative_unit i
    · cases (sources (t.rows i) nullInputs).head? with
      | none => exact h i
      | some j => exact h i
  · cases hw

end Negatable

end Affine

/-! ## 5. Rules -/

/-- **What a rule makes of moderate operations is moderate.** -/
theorem Rewrites.moderate {depths : Option Depths} {s : Site} {rule : Rule} {ops : List Op}
    (h : Rewrites s rule ops) (hops : ∀ op ∈ s.op :: s.after, op.Moderate depths) :
    ∀ op ∈ ops, op.Moderate depths := by
  obtain ⟨hop, hafter⟩ := List.forall_mem_cons.mp hops
  have hrest := Site.forall_next hafter
  cases h with
  | swapBytesNoop | shiftNoop | clearNoop | swizzleIdentity | convertNoop | ditherExact
  | affineIdentity | scaleNoop | clampAbove | clampBelow => exact hafter
  | plainCopy _ ha | swapBytesPair _ ha | unpackPack _ ha => exact (hrest ha).2
  | readSingleElement hk hp hc => exact List.forall_mem_cons.mpr ⟨hop.readSingle hk hp hc, hafter⟩
  | readUnusedPlanes hk hp _ hlt =>
    exact List.forall_mem_cons.mpr ⟨hop.readPlanes hk hp (Nat.le_of_lt hlt), hafter⟩
  | writeSingleElement | affineScalar | scaleShiftLeft | scaleShiftRight =>
    exact List.forall_mem_cons.mpr ⟨.of_numbers rfl trivial, hafter⟩
  | shiftPairLeft _ ha | shiftPairRight _ ha | swizzlePair _ ha | convertPair _ ha
  | convertExpand _ ha | scalePair _ ha =>
    exact List.forall_mem_cons.mpr ⟨.of_numbers rfl trivial, (hrest ha).2⟩
  | scaleAfterConvert _ ha =>
    exact List.forall_mem_cons.mpr ⟨(hrest ha).1,
      List.forall_mem_cons.mpr ⟨.of_numbers rfl trivial, (hrest ha).2⟩⟩
  | shiftPairOverflow ha =>
    refine List.forall_mem_cons.mpr ⟨.of_numbers rfl fun i q hq => ?_, (hrest ha).2⟩
    rw [Quad.get_const] at hq
    cases hq
    rfl
  | clearUnused hk =>
    refine List.forall_mem_cons.mpr ⟨.of_numbers rfl fun i q hq => ?_, hafter⟩
    simp only [Constants.pruned, Quad.get_ofFn] at hq
    split at hq
    · cases hq
    · rename_i c hc
      split at hq
      · cases hq
      · cases hq
        exact hop.numbers.clear hk i q hc
  | @clearPair _ later _ _ hk ha hn =>
    obtain ⟨hnext, hrest⟩ := hrest ha
    refine List.forall_mem_cons.mpr ⟨.of_numbers rfl fun i q hq => ?_, hrest⟩
    rw [Quad.get_zipWith] at hq
    cases hl : later i with
    | none =>
      rw [hl] at hq
      exact hop.numbers.clear hk i q hq
    | some c =>
      rw [hl] at hq
      cases hq
      exact hnext.numbers.clear hn i q hl
  | clearSwizzle hk ha =>
    refine List.forall_mem_cons.mpr ⟨(hrest ha).1,
      List.forall_mem_cons.mpr ⟨.of_numbers rfl fun i q hq => ?_, (hrest ha).2⟩⟩
    rw [Swizzle.get_apply] at hq
    exact hop.numbers.clear hk _ q hq
  | clearFold hk ha hv hf =>
    refine List.forall_mem_cons.mpr ⟨(hrest ha).1,
      List.forall_mem_cons.mpr ⟨.of_numbers rfl fun i q hq => ?_, (hrest ha).2⟩⟩
    exact Elem.hasNegative_of_represents (Op.represents_of_foldConsts? hf hq)
  | swizzleCommute _ ha _ hm =>
    exact List.forall_mem_cons.mpr ⟨(hrest ha).1.movedBefore? hm,
      List.forall_mem_cons.mpr ⟨.of_numbers rfl trivial, (hrest ha).2⟩⟩
  | affinePair _ ha =>
    exact List.forall_mem_cons.mpr ⟨.of_numbers rfl (Affine.negatable_andThen _ _), (hrest ha).2⟩
  | affineResetUnused hk =>
    exact List.forall_mem_cons.mpr
      ⟨.of_numbers rfl ((hop.numbers.affine hk).restricted _ _), hafter⟩
  | affineConstantRows hk hc =>
    refine List.forall_mem_cons.mpr ⟨.of_numbers rfl ((hop.numbers.affine hk).constantRows? hc),
      List.forall_mem_cons.mpr ⟨.of_numbers rfl fun i q hq => ?_, hafter⟩⟩
    rw [(Affine.constantRows?_constant hc hq).1]
    exact hop.numbers.affine hk i
  | affineSwizzle hk hw =>
    exact List.forall_mem_cons.mpr ⟨.of_numbers rfl trivial, List.forall_mem_cons.mpr
      ⟨.of_numbers rfl ((hop.numbers.affine hk).swizzle? hw), hafter⟩⟩

/-! ## 6. Programs -/

namespace Program

variable {p q : Program} {r w : Shape} {inner : List Op} {f : Fault}

/-- The program reads and writes the same shape, and does nothing in between. -/
def IsCopy (p : Program) : Prop := ∃ e l, codes p.ops = [(e, .read l), (e, .write l)]

/-- A depth is hidden in a program that is more than a copy. -/
def HidesDepth (p : Program) : Prop := (∃ op ∈ p.ops, op.HidesDepth p.depths) ∧ ¬p.IsCopy

theorem moderate_analyse (h : ∀ op ∈ p.ops, op.Moderate p.depths) :
    ∀ op ∈ p.analyse.ops, op.Moderate p.depths :=
  forall_of_codes Op.Moderate.congr (codes_analyse p).symm h

/-- A step of simplification keeps operations moderate. -/
theorem moderate_step {applied : Applied} (h : ∀ op ∈ p.ops, op.Moderate p.depths)
    (hstep : p.analyse.step = .ok (some (applied, q))) :
    ∀ op ∈ q.ops, op.Moderate q.depths := by
  obtain ⟨pre, op, rest, out, before, after, hops, rfl, -, hrule, -⟩ := step_eq_some hstep
  have ha := moderate_analyse h
  rw [hops] at ha
  obtain ⟨hpre, hplace⟩ := List.forall_mem_append.mp ha
  exact List.forall_mem_append.mpr ⟨hpre, (Rule.rewrites hrule).moderate hplace⟩

/-- Nothing goes wrong in the next step on moderate operations. -/
theorem Framed.not_faults (hp : p.Framed r w inner) (h : ∀ op ∈ p.ops, op.Moderate p.depths) :
    ¬p.Faults f := by
  rintro (⟨hnot, -⟩ | ⟨-, herror⟩)
  · exact hnot fun op hop => (h op hop).bounds
  · obtain ⟨values, op, next, hop, hnext, hk, hv, hfold⟩ := hp.step_eq_error herror
    have ha := moderate_analyse h
    exact (ha next hnext).numbers.foldConsts? hv ((ha op hop).numbers.clear hk) hfold

/-- **Moderate operations are simplified to the end.** -/
theorem Framed.simplify_of_moderate (hp : p.Framed r w inner)
    (h : ∀ op ∈ p.ops, op.Moderate p.depths) : ∃ rules q, p.simplify = .ok (rules, q) := by
  have hstep : ∀ (q q' : Program) (applied : Applied),
      (∃ r w inner, q.Framed r w inner) ∧ (∀ op ∈ q.ops, op.Moderate q.depths) →
      q.analyse.step = .ok (some (applied, q')) →
      ((∃ r w inner, q'.Framed r w inner) ∧ ∀ op ∈ q'.ops, op.Moderate q'.depths) ∨
        q'.ops = [] := by
    rintro q q' applied ⟨⟨r', w', inner', hq⟩, hmod⟩ hs
    exact (hq.step hs).imp_left fun ⟨r'', w'', inner'', hq', _⟩ =>
      ⟨⟨r'', w'', inner'', hq'⟩, moderate_step hmod hs⟩
  refine exists_simplify hstep ?_ ⟨⟨r, w, inner, hp⟩, h⟩
  rintro q f ⟨⟨r', w', inner', hq⟩, hmod⟩
  exact hq.not_faults hmod

/-- **A framed program is simplified, or its simplification overflows.** -/
theorem Framed.simplify_cases (hp : p.Framed r w inner) :
    (∃ rules q, p.simplify = .ok (rules, q)) ∨ p.simplify = .error .overflow := by
  cases hs : p.simplify with
  | ok answer => exact .inl ⟨answer.1, answer.2, rfl⟩
  | error f =>
    have hstep : ∀ (q q' : Program) (applied : Applied), (∃ r w inner, q.Framed r w inner) →
        q.analyse.step = .ok (some (applied, q')) →
        (∃ r w inner, q'.Framed r w inner) ∨ q'.ops = [] := by
      rintro q q' applied ⟨r', w', inner', hq⟩ hs
      exact (hq.step hs).imp_left fun ⟨r'', w'', inner'', hq', _⟩ => ⟨r'', w'', inner'', hq'⟩
    obtain ⟨q, ⟨r', w', inner', hq⟩, hf⟩ := faults_of_simplify hstep ⟨r, w, inner, hp⟩ hs
    rcases hf with ⟨-, rfl⟩ | ⟨-, herror⟩
    · exact .inr rfl
    · obtain ⟨_, _, _, -, -, -, -, hfold⟩ := hq.step_eq_error herror
      obtain ⟨rfl, -⟩ := Op.foldConsts?_eq_error hfold
      exact .inr rfl

/-- The first rule takes a copy for what it is. -/
theorem IsCopy.step (h : p.IsCopy) :
    p.analyse.step = .ok (some (⟨.plainCopy, 0⟩, { p.analyse with ops := [], analysed := false })) := by
  obtain ⟨e, l, hcodes⟩ := h
  rw [← codes_analyse] at hcodes
  obtain ⟨a, rest, hops, ha, hrest⟩ := List.map_eq_cons_iff.mp hcodes
  obtain ⟨b, last, rfl, hb, hlast⟩ := List.map_eq_cons_iff.mp hrest
  obtain rfl := List.map_eq_nil_iff.mp hlast
  obtain ⟨ae, ak, ai⟩ := a
  obtain ⟨be, bk, bi⟩ := b
  cases ha
  cases hb
  have hfire : (Site.mk none ⟨ae, .read l, ai⟩ [⟨ae, .write l, bi⟩]).plainCopy = some [] := by
    simp only [Site.plainCopy, Site.next?, Op.target, if_true]
  have happly : Rule.plainCopy.apply ⟨none, ⟨ae, .read l, ai⟩, [⟨ae, .write l, bi⟩]⟩ =
      .ok (some []) := by rw [Rule.apply, hfire]
  rw [Program.step, hops, stepFrom, Rule.order, Site.first, happly]

/-- A copy is simplified to nothing, whatever its depth is. -/
theorem IsCopy.simplify (h : p.IsCopy) (hm : p.Measurable) :
    ∃ rules q, p.simplify = .ok (rules, q) := by
  have hstep : ∀ (q q' : Program) (applied : Applied), q.IsCopy ∧ q.Measurable →
      q.analyse.step = .ok (some (applied, q')) → (q'.IsCopy ∧ q'.Measurable) ∨ q'.ops = [] := by
    rintro q q' applied ⟨hq, -⟩ hs
    rw [hq.step] at hs
    cases hs
    exact .inr rfl
  refine exists_simplify hstep ?_ ⟨h, hm⟩
  rintro q f ⟨hq, hmeasured⟩ (⟨hnot, -⟩ | ⟨-, herror⟩)
  · exact hnot hmeasured
  · rw [hq.step] at herror
    cases herror

/-- A single component is given a plane of its own first of all, unless the program is a copy. -/
theorem Framed.step_of_single (hp : p.Framed r w inner) (hpacked : r.layout.packed = true)
    (hcount : r.layout.count = 1) (hcopy : ¬p.IsCopy) :
    ∃ ri rest, p.analyse.step = .ok (some (⟨.readSingleElement, 0⟩,
      { p.analyse with
        ops := ⟨r.elem, .read { r.layout with packed := false }, ri⟩ :: rest
        analysed := false })) := by
  obtain ⟨inner', hpa, -⟩ := hp.congr (codes_analyse p).symm
  obtain ⟨ri, rest, hops, hends⟩ := hpa.endsIn
  have hnone : (Site.mk none ⟨r.elem, .read r.layout, ri⟩ rest).plainCopy = none := by
    cases hfire : (Site.mk none ⟨r.elem, .read r.layout, ri⟩ rest).plainCopy with
    | none => rfl
    | some out =>
      rcases (Site.plainCopy_rewrites hfire).ofRead rfl (by omega) hends with
        ⟨-, -, rfl, wi, hafter⟩ | ⟨hrule, -⟩
      · refine absurd ⟨r.elem, r.layout, ?_⟩ hcopy
        rw [← codes_analyse, hops, show rest = _ from hafter]
        rfl
      · exact absurd rfl hrule
  have hfire : (Site.mk none ⟨r.elem, .read r.layout, ri⟩ rest).readSingleElement =
      some (⟨r.elem, .read { r.layout with packed := false }, ri⟩ :: rest) := by
    simp only [Site.readSingleElement, hpacked, hcount, Bool.true_and, beq_self_eq_true, if_true,
      Site.become]
  have hcopies : Rule.plainCopy.apply ⟨none, ⟨r.elem, .read r.layout, ri⟩, rest⟩ = .ok none := by
    rw [Rule.apply, hnone]
  have hsingle : Rule.readSingleElement.apply ⟨none, ⟨r.elem, .read r.layout, ri⟩, rest⟩ =
      .ok (some (⟨r.elem, .read { r.layout with packed := false }, ri⟩ :: rest)) := by
    rw [Rule.apply, hfire]
  refine ⟨ri, rest, ?_⟩
  rw [Program.step, hops, stepFrom, Rule.order, Site.first, hcopies]
  simp only
  rw [Site.first, hsingle]

/-- **A hidden depth breaks simplification off**: the component gets a plane of its own, and then the
depth counts. -/
theorem HidesDepth.simplify (h : p.HidesDepth) (hp : p.Framed r w inner) :
    p.simplify = .error .overflow := by
  obtain ⟨⟨op, hop, hint, l, d, hk, hd, hpacked, hcount, hlarge⟩, hcopy⟩ := h
  obtain ⟨oi, rfl⟩ := hp.read_eq hop hk
  cases hk
  obtain ⟨ri, rest, hstep⟩ := hp.step_of_single hpacked hcount hcopy
  refine hp.simplify_cases.resolve_left fun ⟨rules, q, hs⟩ => ?_
  refine safe_of_simplify hs _ _ (.step hstep (.refl _)) .overflow (.inl ⟨fun hm => ?_, rfl⟩)
  have hmeasures := (Op.overflows_read rfl).mp (hm _ List.mem_cons_self) hint 0
    (by show 0 < r.layout.count; omega)
  have hdepths : p.analyse.depths = some d := hd
  have hpos : 0 < d 0 := Nat.lt_of_le_of_lt (Nat.zero_le _) hlarge
  simp only [Layout.measures, hdepths, hpos, decide_true, Bool.not_false, Bool.and_true, if_true,
    decide_eq_true_eq] at hmeasures
  omega

/-- **Why a framed program is not simplified**, although its bounds can be computed: a depth is hidden,
or some number has no negative. -/
theorem Framed.simplify_or (hp : p.Framed r w inner) (hm : p.Measurable) :
    (∃ rules q, p.simplify = .ok (rules, q)) ∨
      p.simplify = .error .overflow ∧ (p.HidesDepth ∨ ∃ op ∈ p.ops, ¬op.Negatable) := by
  by_cases hcopy : p.IsCopy
  · exact .inl (hcopy.simplify hm)
  by_cases hdepth : ∃ op ∈ p.ops, op.HidesDepth p.depths
  · exact .inr ⟨HidesDepth.simplify ⟨hdepth, hcopy⟩ hp, .inl ⟨hdepth, hcopy⟩⟩
  by_cases hnumbers : ∃ op ∈ p.ops, ¬op.Negatable
  · exact hp.simplify_cases.imp_right fun hs => ⟨hs, .inr hnumbers⟩
  · refine .inl (hp.simplify_of_moderate fun op hop => ⟨hm op hop, ?_, fun hd => hdepth ⟨op, hop, hd⟩⟩)
    exact Classical.byContradiction fun hop' => hnumbers ⟨op, hop, hop'⟩

end Program

end PixelConv
