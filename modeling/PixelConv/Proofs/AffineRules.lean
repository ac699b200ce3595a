import PixelConv.Proofs.Matrices
import PixelConv.Proofs.Rewrites
import PixelConv.Proofs.Zeros

/-!
# Rules for transforms keep exact values

A transform is reset, or split into constants, a scale or a swizzle, by what its outputs that are read
add up. Rows are compared with their reduced form `Affine.aligned`, which has the offset and one input
at most: a row is equal to it where all other inputs are silent (`AffineRow.eval_eq_aligned`). Main
statement: the operations that a rule puts in place of a transform give the same exact values, and
their transforms carry their own masks (`Site.affine_rules_exact`).
-/

namespace PixelConv

/-! ## 1. Neutral elements -/

namespace Fraction

variable {q : Fraction}

theorem Lowest.zero_add (h : q.Lowest) : zero + q = q := by
  rw [← h.add_zero]
  show Fraction.add zero (q + zero) = Fraction.add q zero
  rw [h.add_zero, Fraction.add, Fraction.add, Bool.and_comm, Int.add_comm,
    Int.mul_comm (zero.den : Int)]

theorem Lowest.one_mul (h : q.Lowest) : one * q = q := by
  cases hq : q.isDefined with
  | false =>
    rcases h with rfl | ⟨hpos, -⟩
    · rfl
    · rw [isDefined_iff.mpr hpos] at hq
      cases hq
  | true =>
    show Fraction.mul one q = q
    rw [Fraction.mul, if_pos (by rw [hq]; rfl)]
    show reduce (1 * q.num) (((1 : Nat) : Int) * q.den) = q
    rw [Int.one_mul, Int.natCast_one, Int.one_mul]
    exact h.reduce_eq hq

end Fraction

/-! ## 2. Rows with one input -/

/-- All entries of the row are numbers in lowest terms, within the limit. -/
def AffineRow.Numeric (r : AffineRow) : Prop :=
  ∀ j, (r.entry j).isDefined = true ∧ (r.entry j).Lowest

namespace Affine

theorem eval_aligned_none (r : AffineRow) (i : Fin 4) (x : Value) :
    (aligned r i none).eval x = r.offset := rfl

theorem eval_aligned_some (r : AffineRow) (i j : Fin 4) (x : Value) :
    (aligned r i (some j)).eval x =
      if (r.weight j).isZero then r.offset else r.offset + r.weight j * x i := by
  match i with
  | 0 | 1 | 2 | 3 => rfl

end Affine

namespace AffineRow

variable {r : AffineRow} {x : Value} {nullInputs : Quad Bool}

theorem Numeric.weight (h : r.Numeric) (j : Fin 4) :
    (r.weight j).isDefined = true ∧ (r.weight j).Lowest := by
  rw [← entry_castSucc]
  exact h j.castSucc

theorem Numeric.offset (h : r.Numeric) : r.offset.Lowest := (h 4).2

/-- **A row is its reduced form** if no other input contributes. -/
theorem eval_eq_aligned (hr : r.Numeric) (hzero : ∀ j, nullInputs j = true → x j = Fraction.zero)
    (source : Option (Fin 4))
    (h : ∀ j, source ≠ some j → Affine.silent r nullInputs j = true) (i : Fin 4)
    (hi : ∀ j, source = some j → i = j) :
    r.eval x = (Affine.aligned r i source).eval x := by
  have hsame : (Affine.aligned r i source).offset = r.offset := by
    cases source <;> rfl
  have hsilent : ∀ j, source ≠ some j → (Affine.aligned r i source).weight j = Fraction.zero := by
    intro j hj
    cases source with
    | none => exact Quad.get_const _ j
    | some k =>
      have hne : j ≠ i := by
        rw [hi k rfl]
        rintro rfl
        exact hj rfl
      simp only [Affine.aligned, Quad.get_set, Quad.get_const, if_neg hne]
  refine (eval_congr hr.offset hsame fun j => ?_).symm
  by_cases hj : source = some j
  · refine .inl ?_
    rw [hj, Affine.aligned, hi j hj, Quad.get_set, if_pos rfl]
  · rw [hsilent j hj]
    rcases Bool.or_eq_true_iff.mp (h j hj) with hweight | hnull
    · exact .inl ((hr.weight j).2.eq_zero hweight).symm
    · exact .inr ⟨hzero j hnull, rfl, (hr.weight j).1⟩

/-- A row that nothing contributes to is its offset. -/
theorem eval_of_silent (hr : r.Numeric) (hzero : ∀ j, nullInputs j = true → x j = Fraction.zero)
    (h : ∀ j, Affine.silent r nullInputs j = true) : r.eval x = r.offset := by
  rw [eval_eq_aligned hr hzero none (fun j _ => h j) 0 fun j hj => by cases hj]
  exact Affine.eval_aligned_none r 0 x

/-- A row without offset that one input alone contributes to is a multiple of it. -/
theorem eval_of_diagonal (hr : r.Numeric) (hx : ∀ c, (x c).isDefined = true)
    (hzero : ∀ j, nullInputs j = true → x j = Fraction.zero) {i : Fin 4}
    (h : ∀ j, j ≠ i → Affine.silent r nullInputs j = true) (hoffset : r.offset.isZero = true) :
    r.eval x = r.weight i * x i := by
  rw [eval_eq_aligned hr hzero (some i) (fun j hj => h j fun he => hj (by rw [he])) i
    fun j hj => Option.some.inj hj, Affine.eval_aligned_some, hr.offset.eq_zero hoffset]
  split
  · rename_i hweight
    exact (Fraction.mul_of_isZero (hr.weight i).1 (hx i) (.inl hweight)).symm
  · exact (Fraction.lowest_mul _ _).zero_add

end AffineRow

/-! ## 3. What is split off -/

namespace Affine

variable {t remaining : Affine} {nullInputs unused : Quad Bool} {i : Fin 4}

/-- The one factor is the weight of every input on the diagonal that is not zero; it is defined. -/
theorem scalar?_factor {factor : Fraction} (h : t.scalar? nullInputs unused = some factor)
    (ht : ∀ i j, ((t.rows i).weight j).isDefined = true) :
    factor.isDefined = true ∧ ∀ i, unused i = false → nullInputs i = false →
      (t.rows i).weight i = factor := by
  unfold scalar? at h
  simp only at h
  split at h
  · -- the weights that have to agree
    have hmem : ∀ i, unused i = false → nullInputs i = false → (t.rows i).weight i ∈
        ((Quad.indices.filter fun i => !unused i).filter fun i => !nullInputs i).map
          fun i => (t.rows i).weight i := by
      intro i hu hn
      refine List.mem_map_of_mem (List.mem_filter.mpr ⟨List.mem_filter.mpr ⟨Quad.mem_indices i, ?_⟩, ?_⟩)
      · rw [hu]
        rfl
      · rw [hn]
        rfl
    split at h
    · rename_i hnil
      cases h
      refine ⟨rfl, fun i hu hn => ?_⟩
      have := hmem i hu hn
      rw [hnil] at this
      cases this
    · rename_i q rest hcons
      split at h
      · rename_i hall
        cases h
        rw [hcons] at hmem
        refine ⟨?_, fun i hu hn => ?_⟩
        · have hfirst : factor ∈ _ := hcons ▸ List.mem_cons_self
          obtain ⟨i, -, rfl⟩ := List.mem_map.mp hfirst
          exact ht i i
        · rcases List.mem_cons.mp (hmem i hu hn) with heq | hrest
          · exact heq
          · exact of_decide_eq_true (List.all_eq_true.mp hall _ hrest)
      · cases h
  · cases h

/-- What a split into a swizzle does to a row that is read: the only input that contributes comes to
its place, and the row keeps its weight and its offset. -/
theorem swizzle?_aligned {w : Swizzle}
    (h : t.swizzle? nullInputs unused = some (w, remaining)) (hi : unused i = false) :
    ∃ source : Option (Fin 4), remaining.rows i = aligned (t.rows i) i source ∧
      (∀ j, source = some j → w.source i = j) ∧
      ∀ j, source ≠ some j → silent (t.rows i) nullInputs j = true := by
  unfold swizzle? at h
  simp only at h
  split at h
  · rename_i hc
    simp only [Option.some.injEq, Prod.mk.injEq] at h
    obtain ⟨rfl, rfl⟩ := h
    refine ⟨(sources (t.rows i) nullInputs).head?, ?_, fun j hj => ?_, fun j hj => ?_⟩
    · simp only [ofRows, Quad.get_ofFn, hi, Bool.false_eq_true, if_false]
    · simp only [Swizzle.source, Quad.get_ofFn, hi, Bool.false_eq_true, if_false, hj,
        Option.getD_some]
      exact Fin.ofNat_val_eq_self j
    · -- an input that contributes is a source of the row, and the row has no second one
      refine Decidable.byContradiction fun hloud => hj ?_
      have hmem : j ∈ sources (t.rows i) nullInputs :=
        List.mem_filter.mpr ⟨Quad.mem_indices j, by rw [Bool.eq_false_iff.mpr hloud]; rfl⟩
      have hrow : i ∈ Quad.indices.filter fun i => !unused i :=
        List.mem_filter.mpr ⟨Quad.mem_indices i, by rw [hi]; rfl⟩
      have hlength := of_decide_eq_true
        (List.all_eq_true.mp (Bool.and_eq_true_iff.mp hc).1 i hrow)
      obtain ⟨k, hk⟩ := List.length_eq_one_iff.mp
        (Nat.le_antisymm hlength (List.length_pos_of_mem hmem))
      rw [hk] at hmem ⊢
      rw [List.mem_singleton.mp hmem]
      rfl
  · cases h

/-! ## 4. Rows that are read -/

section Rows

variable {rows : Quad AffineRow} {remaining : Affine} {nullInputs unused : Quad Bool} {x : Value}
  {i : Fin 4} (hrows : ∀ i, (rows i).Numeric)

include hrows in
/-- The transform with an empty mask gives back its input. -/
theorem eval_of_mask (hx : ∀ c, (x c).isDefined = true ∧ (x c).Lowest)
    (hmask : (ofRows rows).mask = 0#32) : (rows i).eval x = x i := by
  have hentry : ∀ j, (rows i).entry j = unit i j := by
    refine entry_of_not_meets ?_
    rw [show maskOf rows = 0#32 from hmask, EntryMask.meets, BitVec.zero_and]
    rfl
  have hweight : ∀ j, (rows i).weight j = if i = j then Fraction.one else Fraction.zero := by
    intro j
    rw [← AffineRow.entry_castSucc, hentry, ← unitRow_weight, ← AffineRow.entry_castSucc, unitRow,
      AffineRow.entry_ofFn]
  have hoffset : (rows i).offset.isZero = true := by
    have hlast : i.val ≠ (4 : Fin 5).val := Nat.ne_of_lt i.isLt
    rw [show (rows i).offset = (rows i).entry 4 from rfl, hentry, unit, if_neg hlast]
    rfl
  have hnull : ∀ j, (Quad.const false : Quad Bool) j = true → x j = Fraction.zero := by
    intro j hj
    rw [Quad.get_const] at hj
    cases hj
  have hsilent : ∀ j, j ≠ i → silent (rows i) (Quad.const false) j = true := by
    intro j hj
    rw [silent, hweight, if_neg (Ne.symm hj)]
    rfl
  rw [AffineRow.eval_of_diagonal (hrows i) (fun c => (hx c).1) hnull hsilent hoffset, hweight,
    if_pos rfl]
  exact (hx i).2.one_mul

variable (hzero : ∀ j, nullInputs j = true → x j = Fraction.zero)
include hrows hzero

/-- Weights of inputs that are zero can be reset. -/
theorem eval_restricted (hi : unused i = false) :
    (((ofRows rows).restricted nullInputs unused).rows i).eval x = (rows i).eval x := by
  obtain ⟨hsame, hrow⟩ := (ofRows rows).restricted_row nullInputs unused hi
  refine AffineRow.eval_congr (hrows i).offset hsame fun j => ?_
  rcases hrow j with hj | ⟨hj, hdefined⟩
  · exact .inl hj
  · exact .inr ⟨hzero j hj, hdefined, ((hrows i).weight j).1⟩

/-- Constant rows are set after the others were computed. -/
theorem eval_constantRows? {values : Constants}
    (h : (ofRows rows).constantRows? nullInputs unused = some (remaining, values)) :
    (values i).getD ((remaining.rows i).eval x) = (rows i).eval x := by
  cases hq : values i with
  | none => exact congrArg (AffineRow.eval · x) ((constantRows?_eq_some h).2 i hq)
  | some q =>
    obtain ⟨rfl, hrow⟩ := constantRows?_constant h hq
    obtain ⟨-, hsilent, -⟩ := isConstantRow_iff.mp hrow
    exact (AffineRow.eval_of_silent (hrows i) hzero hsilent).symm

/-- A uniform diagonal multiplies by one factor. An input that is known to be zero may have any
weight. -/
theorem eval_scalar? (hx : ∀ c, (x c).isDefined = true) {factor : Fraction}
    (h : (ofRows rows).scalar? nullInputs unused = some factor) (hi : unused i = false) :
    x i * factor = (rows i).eval x := by
  obtain ⟨hdiagonal, hoffset⟩ := scalar?_diagonal h hi
  obtain ⟨hfactor, hweight⟩ := scalar?_factor h fun i j => ((hrows i).weight j).1
  rw [AffineRow.eval_of_diagonal (hrows i) hx hzero hdiagonal hoffset]
  cases hn : nullInputs i with
  | false =>
    rw [← hweight i hi hn]
    exact Fraction.mul_comm _ _
  | true => rw [hzero i hn, Fraction.zero_mul hfactor, Fraction.mul_zero ((hrows i).weight i).1]

/-- What a row takes up is moved to its place first. -/
theorem eval_swizzle? {w : Swizzle} {y : Value}
    (h : (ofRows rows).swizzle? nullInputs unused = some (w, remaining)) (hi : unused i = false)
    (hy : y i = x (w.source i)) : (remaining.rows i).eval y = (rows i).eval x := by
  obtain ⟨source, hrow, hsource, hsilent⟩ := swizzle?_aligned h hi
  have hsilent : ∀ j, source ≠ some j → silent (rows i) nullInputs j = true := hsilent
  rw [hrow, show (ofRows rows).rows i = rows i from rfl,
    AffineRow.eval_eq_aligned (hrows i) hzero source hsilent (w.source i) hsource]
  cases source with
  | none => rw [eval_aligned_none, eval_aligned_none]
  | some j => rw [eval_aligned_some, eval_aligned_some, hy]

end Rows

end Affine

/-! ## 5. The rules -/

/-- **Only the rules for transforms** look at one; with what they find out about it. -/
theorem Rewrites.of_affine {s : Site} {rule : Rule} {ops : List Op} {t : Affine}
    (h : Rewrites s rule ops) (hk : s.op.kind = .affine t) (hpair : rule ≠ .affinePair) :
    (rule = .affineIdentity ∧ t.mask = 0#32 ∧ ops = s.after) ∨
    (rule = .affineResetUnused ∧
      ops = s.become (.affine (t.restricted s.nullInputs s.op.info.unused)) s.after) ∨
    (rule = .affineConstantRows ∧ ∃ remaining values,
      t.constantRows? s.nullInputs s.op.info.unused = some (remaining, values) ∧
      ops = s.become (.affine remaining) (Op.ofKind s.op.elem (.clear values) :: s.after)) ∨
    (rule = .affineScalar ∧ ∃ factor, t.scalar? s.nullInputs s.op.info.unused = some factor ∧
      ops = s.become (.scale factor) s.after) ∨
    (rule = .affineSwizzle ∧ ∃ w remaining,
      t.swizzle? s.nullInputs s.op.info.unused = some (w, remaining) ∧
      ops = Op.ofKind s.op.elem (.swizzle w) :: s.become (.affine remaining) s.after) := by
  have hsame : ∀ {u : Affine}, s.op.kind = .affine u → u = t := fun hu =>
    Kind.affine.inj (hu.symm.trans hk)
  cases h with
  | affineIdentity hu hm =>
    cases hsame hu
    exact .inl ⟨rfl, hm, rfl⟩
  | affineResetUnused hu =>
    cases hsame hu
    exact .inr (.inl ⟨rfl, rfl⟩)
  | affineConstantRows hu hc =>
    cases hsame hu
    exact .inr (.inr (.inl ⟨rfl, _, _, hc, rfl⟩))
  | affineScalar hu hf =>
    cases hsame hu
    exact .inr (.inr (.inr (.inl ⟨rfl, _, hf, rfl⟩)))
  | affineSwizzle hu hw =>
    cases hsame hu
    exact .inr (.inr (.inr (.inr ⟨rfl, _, _, hw, rfl⟩)))
  | affinePair => exact absurd rfl hpair
  | plainCopy hu | readSingleElement hu | readUnusedPlanes hu | writeSingleElement hu
  | swapBytesNoop hu | swapBytesPair hu | unpackPack hu | shiftPairLeft hu | shiftPairRight hu
  | clearNoop hu | clearUnused hu | clearPair hu | clearSwizzle hu | clearFold hu
  | swizzleIdentity hu | swizzlePair hu | swizzleCommute hu | convertNoop hu | convertPair hu
  | convertExpand hu | ditherExact hu | scaleNoop hu | scalePair hu | scaleAfterConvert hu
  | scaleShiftLeft hu | scaleShiftRight hu | clampAbove hu | clampBelow hu =>
    exact Kind.noConfusion (hu.symm.trans hk)
  | shiftNoop hu =>
    rcases hu with hu | hu
    · exact Kind.noConfusion (hu.symm.trans hk)
    · exact Kind.noConfusion (hu.symm.trans hk)
  | shiftPairOverflow _ _ hu =>
    rcases hu with ⟨hu, -⟩ | ⟨hu, -⟩
    · exact Kind.noConfusion (hu.symm.trans hk)
    · exact Kind.noConfusion (hu.symm.trans hk)

section Effects

variable {op : Op} {x : Value}

theorem Op.get_eval_affine {t : Affine} (hk : op.kind = .affine t) (i : Fin 4) :
    (op.eval x) i = (t.rows i).eval x := by
  rw [Op.get_eval_of_not_wraps (by rw [hk]; rfl), Op.evalRaw, hk]
  exact Quad.get_map _ _ i

theorem Op.get_eval_clear {values : Constants} (hk : op.kind = .clear values) (i : Fin 4) :
    (op.eval x) i = (values i).getD (x i) := by
  rw [Op.get_eval_of_not_wraps (by rw [hk]; rfl), Op.evalRaw, hk]
  exact Quad.get_zipWith _ _ _ i

theorem Op.get_eval_swizzle {w : Swizzle} (hk : op.kind = .swizzle w) (i : Fin 4) :
    (op.eval x) i = x (w.source i) := by
  rw [Op.get_eval_of_not_wraps (by rw [hk]; rfl), Op.evalRaw, hk]
  exact Swizzle.get_apply _ _ i

theorem Op.get_eval_scale_float {e : Elem} (hf : e.isInt = false) (factor : Fraction) (info : Info)
    (i : Fin 4) : ((Op.mk e (.scale factor) info).eval x) i = x i * factor := by
  rw [Op.get_eval, hf, Bool.false_and, if_neg Bool.false_ne_true, Op.evalRaw]
  simp only [Quad.get_map, hf, Bool.false_eq_true, if_false]

end Effects

namespace Site

variable {s : Site} {rule : Rule} {ops : List Op} {rows : Quad AffineRow} {x : Value}

/-- **Every rule for transforms keeps exact values.** A transform of floats has numbers in lowest
terms for entries and carries its computed mask; the inputs are such numbers too, and those that are
known to be zero are. Whatever outputs are marked as unused, a rule that fires is one of five, and
the operations that it puts in place of the transform, one after the other, give the same value in
every component that is read. Each transform among them carries its computed mask. -/
theorem affine_rules_exact (hk : s.op.kind = .affine (.ofRows rows)) (hf : s.op.elem = .f32)
    (hrows : ∀ i, (rows i).Numeric) (hrule : rule.apply s = .ok (some ops))
    (hpair : rule ≠ .affinePair) (hx : ∀ c, (x c).isDefined = true ∧ (x c).Lowest)
    (hzero : ∀ c, s.nullInputs c = true → x c = Fraction.zero) :
    rule ∈ [.affineIdentity, .affineResetUnused, .affineConstantRows, .affineScalar,
      .affineSwizzle] ∧
    ∃ new, ops = new ++ s.after ∧
      (∀ i, s.op.info.unused i = false →
        (new.foldl (fun y op => op.eval y) x) i = (s.op.eval x) i) ∧
      ∀ op ∈ new, ∀ u, op.kind = .affine u → u.mask = Affine.maskOf u.rows := by
  have hregular : (Affine.ofRows rows).Regular :=
    Affine.regular_ofRows fun i j => (hrows i j).2.reduced (hrows i j).1
  have hfloat : s.op.elem.isInt = false := by
    rw [hf]
    rfl
  have hmask : ∀ {k : Kind} {t : Affine}, t.Regular → k = .affine t →
      ∀ u, k = .affine u → u.mask = Affine.maskOf u.rows := by
    rintro k t ht rfl u hu
    cases hu
    exact ht.mask
  have hnone : ∀ {k : Kind}, k.verb ≠ .affine →
      ∀ u, k = .affine u → u.mask = Affine.maskOf u.rows := by
    rintro k hv u rfl
    exact absurd rfl hv
  have hnil : ∀ op ∈ ([] : List Op), ∀ u, op.kind = .affine u → u.mask = Affine.maskOf u.rows :=
    fun _ hop => absurd hop List.not_mem_nil
  simp only [Op.get_eval_affine hk]
  rcases (Rule.rewrites hrule).of_affine hk hpair with ⟨rfl, hm, rfl⟩ | ⟨rfl, rfl⟩ |
    ⟨rfl, remaining, values, hc, rfl⟩ | ⟨rfl, factor, hc, rfl⟩ | ⟨rfl, w, remaining, hc, rfl⟩
  · exact ⟨by decide, [], rfl, fun i _ => (Affine.eval_of_mask hrows hx hm).symm, hnil⟩
  · refine ⟨by decide, [_], rfl, fun i hi => ?_,
      List.forall_mem_cons.mpr ⟨hmask (hregular.restricted _ _) rfl, hnil⟩⟩
    rw [List.foldl_cons, List.foldl_nil, Op.get_eval_affine rfl]
    exact Affine.eval_restricted hrows hzero hi
  · refine ⟨by decide, [_, _], rfl, fun i _ => ?_, List.forall_mem_cons.mpr
      ⟨hmask ((Affine.constantRows?_eq_some hc).1 hregular) rfl,
        List.forall_mem_cons.mpr ⟨hnone fun hv => Verb.noConfusion hv, hnil⟩⟩⟩
    rw [List.foldl_cons, List.foldl_cons, List.foldl_nil, Op.get_eval_clear rfl,
      Op.get_eval_affine rfl]
    exact Affine.eval_constantRows? hrows hzero hc
  · refine ⟨by decide, [_], rfl, fun i hi => ?_,
      List.forall_mem_cons.mpr ⟨hnone fun hv => Verb.noConfusion hv, hnil⟩⟩
    exact (Op.get_eval_scale_float hfloat factor s.op.info i).trans
      (Affine.eval_scalar? hrows hzero (fun c => (hx c).1) hc hi)
  · refine ⟨by decide, [_, _], rfl, fun i hi => ?_, List.forall_mem_cons.mpr
      ⟨hnone fun hv => Verb.noConfusion hv, List.forall_mem_cons.mpr
        ⟨hmask ((Affine.swizzle?_eq_some hc).1 hregular) rfl, hnil⟩⟩⟩
    rw [List.foldl_cons, List.foldl_cons, List.foldl_nil, Op.get_eval_affine rfl]
    exact Affine.eval_swizzle? hrows hzero hc hi (Op.get_eval_swizzle rfl i)

/-- Two components change places and are scaled, a fractional constant is put into the last one. The
third component is zero before and is not read afterwards, so that its row and its column do not
matter. -/
def crossedRows : Quad AffineRow :=
  ⟨⟨⟨⟨0, 1⟩, ⟨1, 3⟩, ⟨0, 1⟩, ⟨0, 1⟩⟩, ⟨2, 1⟩⟩, ⟨⟨⟨5, 7⟩, ⟨0, 1⟩, ⟨9, 1⟩, ⟨0, 1⟩⟩, ⟨0, 1⟩⟩,
    ⟨⟨⟨1, 1⟩, ⟨1, 1⟩, ⟨1, 1⟩, ⟨1, 1⟩⟩, ⟨-4, 1⟩⟩, ⟨⟨⟨0, 1⟩, ⟨0, 1⟩, ⟨0, 1⟩, ⟨0, 1⟩⟩, ⟨1, 2⟩⟩⟩

/-- The place of that transform, before what it computes is stored. -/
def crossed : Site where
  before := some ⟨.f32, .clear ⟨none, none, some Fraction.zero, none⟩,
    { Info.blank with known := ⟨Known.nothing, Known.nothing, Known.null, Known.nothing⟩ }⟩
  op := ⟨.f32, .affine (.ofRows crossedRows),
    { Info.blank with unused := ⟨false, false, true, false⟩ }⟩
  after := [.ofKind .f32 (.write ⟨4, false, 0⟩)]

/-- Values before it. -/
def crossedInput : Value := ⟨⟨1, 2⟩, ⟨4, 3⟩, Fraction.zero, ⟨7, 1⟩⟩

theorem crossed_rules_exact : ∃ new : List Op, new.length = 2 ∧
    Rule.affineSwizzle.apply crossed = .ok (some (new ++ crossed.after)) ∧
    ∀ i, i ≠ 2 →
      (new.foldl (fun y op => op.eval y) crossedInput) i = (crossed.op.eval crossedInput) i := by
  have hrows : ∀ (i : Fin 4) (j : Fin 5),
      ((crossedRows i).entry j).isDefined = true ∧ ((crossedRows i).entry j).Lowest := by decide
  have hx : ∀ c, (crossedInput c).isDefined = true ∧ (crossedInput c).Lowest := by decide
  have hzero : ∀ c, crossed.nullInputs c = true → crossedInput c = Fraction.zero := by decide
  have hunused : ∀ i : Fin 4, i ≠ 2 → crossed.op.info.unused i = false := by decide
  obtain ⟨ops, hrule, hlength⟩ : ∃ ops, Rule.affineSwizzle.apply crossed = .ok (some ops) ∧
      ops.length = 3 := ⟨_, rfl, rfl⟩
  obtain ⟨-, new, hnew, hsame, -⟩ :=
    affine_rules_exact rfl rfl hrows hrule (by decide) hx hzero
  refine ⟨new, ?_, hnew ▸ hrule, fun i hi => hsame i (hunused i hi)⟩
  rw [hnew, List.length_append] at hlength
  exact Nat.succ.inj hlength

end Site

end PixelConv
