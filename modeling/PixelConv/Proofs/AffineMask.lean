import PixelConv.Simplify.Affine

/-!
# Masks of affine transforms under simplification

Resetting rows and columns only takes entries out of the mask and never makes a transform mix
components that it did not mix before (`Affine.Within`). Splitting off constant rows takes at least
one entry out, and splitting off a swizzle leaves a transform that does not mix. These are the facts
behind the weight of a transform. A computed mask has every entry that differs from the identity
(`Affine.maskOf_entry`).
-/

namespace PixelConv

/-! ## 1. Counting entries -/

namespace EntryMask

/-- One mask with an entry less. -/
theorem card_lt_card {m n : EntryMask} (h : ∀ k, m.getLsbD k = true → n.getLsbD k = true) {k : Nat}
    (hn : n.getLsbD k = true) (hm : m.getLsbD k = false) : card m < card n := by
  have hk : k < 32 := BitVec.lt_of_getLsbD hn
  have hsplit : List.range 32 = List.range k ++ k :: (List.range (31 - k)).map (k + 1 + ·) := by
    have h32 : 32 = k + (1 + (31 - k)) := by omega
    have h1 : List.range (1 + (31 - k)) = 0 :: (List.range (31 - k)).map (1 + ·) := by
      rw [List.range_add]
      rfl
    rw [h32, List.range_add, h1]
    simp [Nat.add_assoc]
  have hle : ∀ l : List Nat, l.countP m.getLsbD ≤ l.countP n.getLsbD := fun l =>
    List.countP_mono_left fun x _ hx => h x hx
  have h1 := hle (List.range k)
  have h2 := hle ((List.range (31 - k)).map (k + 1 + ·))
  show (List.range 32).countP m.getLsbD < (List.range 32).countP n.getLsbD
  rw [hsplit, List.countP_append, List.countP_append, List.countP_cons, List.countP_cons, hn, hm]
  simp only [if_true, Bool.false_eq_true, if_false]
  omega

theorem card_lt_of_ne {m n : EntryMask} (h : ∀ k, m.getLsbD k = true → n.getLsbD k = true)
    (hne : m ≠ n) : card m < card n := by
  have hex : ∃ k, m.getLsbD k ≠ n.getLsbD k := by
    refine Classical.byContradiction fun hno => hne ?_
    refine BitVec.eq_of_getLsbD_eq fun i _ => ?_
    exact Classical.byContradiction fun hi => hno ⟨i, hi⟩
  obtain ⟨k, hk⟩ := hex
  cases hm : m.getLsbD k with
  | true =>
    rw [hm, h k hm] at hk
    exact absurd rfl hk
  | false =>
    cases hn : n.getLsbD k with
    | true => exact card_lt_card h hn hm
    | false =>
      rw [hm, hn] at hk
      exact absurd rfl hk

theorem card_le_of_bounded {m : EntryMask} (h : ∀ k, 20 ≤ k → m.getLsbD k = false) :
    card m ≤ 20 := by
  have hsplit : List.range 32 = List.range 20 ++ (List.range 12).map (20 + ·) := by decide
  show (List.range 32).countP m.getLsbD ≤ 20
  rw [hsplit, List.countP_append]
  have h1 : (List.range 20).countP m.getLsbD ≤ 20 := by
    have := List.countP_le_length (p := m.getLsbD) (l := List.range 20)
    rwa [List.length_range] at this
  have h2 : ((List.range 12).map (20 + ·)).countP m.getLsbD = 0 := by
    rw [List.countP_eq_zero]
    intro k hk
    obtain ⟨j, _, rfl⟩ := List.mem_map.mp hk
    rw [h (20 + j) (by omega)]
    exact Bool.false_ne_true
  omega

theorem card_le (m : EntryMask) : card m ≤ 32 := by
  have := List.countP_le_length (p := fun i => m.getLsbD i) (l := List.range 32)
  rwa [List.length_range] at this

/-- Taking entries out of a mask that has one of them changes it. -/
theorem and_not_ne_of_meets {m n : EntryMask} (h : meets m n = true) : m &&& ~~~n ≠ m := by
  intro he
  have hz : m &&& n = 0#32 := by
    have : m &&& n = (m &&& ~~~n) &&& n := by rw [he]
    rw [this, BitVec.and_assoc]
    simp
  simp [meets, hz] at h

end EntryMask

namespace Affine

/-! ## 2. Resetting rows and columns -/

/-- The first transform has no entry in its mask that the second one lacks, and mixes components
only if that one does. -/
structure Within (t u : Affine) : Prop where
  mask : ∀ k, t.mask.getLsbD k = true → u.mask.getLsbD k = true
  mixes : t.mixes = true → u.mixes = true

theorem Within.refl (t : Affine) : Within t t := ⟨fun _ h => h, fun h => h⟩

theorem Within.trans {t u v : Affine} (h : Within t u) (h' : Within u v) : Within t v :=
  ⟨fun k hk => h'.mask k (h.mask k hk), fun hm => h'.mixes (h.mixes hm)⟩

theorem mixes_iff (t : Affine) :
    t.mixes = true ↔ ∃ i j, i ≠ j ∧ ((t.rows i).weight j).isZero = false := by
  unfold mixes
  rw [List.any_eq_true]
  constructor
  · rintro ⟨i, -, h⟩
    rw [List.any_eq_true] at h
    obtain ⟨j, -, h⟩ := h
    simp only [Bool.and_eq_true, decide_eq_true_eq, Bool.not_eq_true'] at h
    exact ⟨i, j, h⟩
  · rintro ⟨i, j, hne, hz⟩
    refine ⟨i, Quad.mem_indices i, ?_⟩
    rw [List.any_eq_true]
    refine ⟨j, Quad.mem_indices j, ?_⟩
    simp only [hne, hz, Bool.not_false, Bool.and_true, decide_eq_true_eq, ne_eq, not_false_eq_true]

theorem unitRow_weight (i j : Fin 4) :
    (unitRow i).weight j = if i = j then Fraction.one else Fraction.zero := by
  have h : (unitRow i).weight j = unit i j.castSucc := by
    match j with
    | 0 | 1 | 2 | 3 => rfl
  rw [h]
  simp only [unit, Fin.val_castSucc, Fin.ext_iff]

theorem withUnitRow_within (t : Affine) (i : Fin 4) : Within (t.withUnitRow i) t := by
  refine ⟨fun k hk => ?_, fun hm => ?_⟩
  · simp only [withUnitRow, BitVec.getLsbD_and, Bool.and_eq_true] at hk
    exact hk.1
  · obtain ⟨a, b, hne, hz⟩ := (mixes_iff _).mp hm
    simp only [withUnitRow, Quad.get_set] at hz
    by_cases ha : a = i
    · subst ha
      rw [if_pos rfl, unitRow_weight, if_neg hne] at hz
      exact absurd hz (by decide)
    · rw [if_neg ha] at hz
      exact (mixes_iff t).mpr ⟨a, b, hne, hz⟩

theorem withUnitCol_weight (t : Affine) (j : Fin 4) (a b : Fin 4) :
    ((t.withUnitCol j.castSucc).rows a).weight b =
      if b = j then unit a j.castSucc else (t.rows a).weight b := by
  have h : ((t.withUnitCol j.castSucc).rows a).weight b =
      if b.castSucc = j.castSucc then unit a j.castSucc else t.entry a b.castSucc := by
    simp only [withUnitCol, Quad.get_ofFn]
    match b with
    | 0 | 1 | 2 | 3 => rfl
  rw [h]
  have he : t.entry a b.castSucc = (t.rows a).weight b := by
    unfold entry AffineRow.entry
    rw [dif_pos (show b.castSucc.val < 4 from b.isLt)]
    rfl
  simp only [he, Fin.castSucc_inj]

theorem withUnitCol_within (t : Affine) (j : Fin 4) : Within (t.withUnitCol j.castSucc) t := by
  refine ⟨fun k hk => ?_, fun hm => ?_⟩
  · simp only [withUnitCol, BitVec.getLsbD_and, Bool.and_eq_true] at hk
    exact hk.1
  · obtain ⟨a, b, hne, hz⟩ := (mixes_iff _).mp hm
    rw [withUnitCol_weight] at hz
    by_cases hb : b = j
    · subst hb
      have hu : unit a b.castSucc = Fraction.zero := by
        simp only [unit, Fin.val_castSucc]
        rw [if_neg fun h => hne (Fin.ext h)]
      rw [if_pos rfl, hu] at hz
      exact absurd hz (by decide)
    · rw [if_neg hb] at hz
      exact (mixes_iff t).mpr ⟨a, b, hne, hz⟩

/-- Steps that stay within their transform stay within it altogether. -/
theorem foldl_within {α : Type} (f : Affine → α → Affine) (hf : ∀ t a, Within (f t a) t)
    (l : List α) (t : Affine) : Within (l.foldl f t) t := by
  induction l generalizing t with
  | nil => exact Within.refl t
  | cons a l ih => exact (ih (f t a)).trans (hf t a)

theorem restricted_within (t : Affine) (nullInputs unused : Quad Bool) :
    Within (t.restricted nullInputs unused) t := by
  unfold restricted
  refine (foldl_within _ (fun t i => ?_) _ _).trans (foldl_within _ (fun t j => ?_) _ _)
  · split
    · exact withUnitRow_within t i
    · exact Within.refl t
  · split
    · exact withUnitCol_within t j
    · exact Within.refl t

theorem withUnitCol_offset (t : Affine) (j i : Fin 4) :
    ((t.withUnitCol j.castSucc).rows i).offset = (t.rows i).offset := by
  have hlast : (4 : Fin 5) ≠ j.castSucc := by
    intro h
    have := congrArg Fin.val h
    have := j.isLt
    simp only [Fin.val_castSucc] at *
    omega
  simp only [withUnitCol, Quad.get_ofFn]
  exact if_neg hlast

/-- A row that is read, after the columns of `nullInputs` were reset. -/
theorem restricted_row (t : Affine) (nullInputs unused : Quad Bool) {i : Fin 4}
    (hi : unused i = false) :
    ((t.restricted nullInputs unused).rows i).offset = (t.rows i).offset ∧
      ∀ j, ((t.restricted nullInputs unused).rows i).weight j = (t.rows i).weight j ∨
        nullInputs j = true ∧ (((t.restricted nullInputs unused).rows i).weight j).isDefined =
          true := by
  unfold restricted
  simp only
  refine List.foldlRecOn (motive := fun u : Affine => (u.rows i).offset = (t.rows i).offset ∧
    ∀ j, (u.rows i).weight j = (t.rows i).weight j ∨
      nullInputs j = true ∧ ((u.rows i).weight j).isDefined = true) _ _ ?_ fun u hu k _ => ?_
  · refine List.foldlRecOn (motive := fun u : Affine => (u.rows i).offset = (t.rows i).offset ∧
      ∀ j, (u.rows i).weight j = (t.rows i).weight j ∨
        nullInputs j = true ∧ ((u.rows i).weight j).isDefined = true) _ _
      ⟨rfl, fun j => .inl rfl⟩ fun u hu k _ => ?_
    split
    · rename_i hk
      refine ⟨(withUnitCol_offset u k i).trans hu.1, fun j => ?_⟩
      rw [withUnitCol_weight]
      split
      · rename_i hj
        rw [hj]
        refine .inr ⟨(Bool.and_eq_true_iff.mp hk).1, ?_⟩
        unfold unit
        split <;> rfl
      · exact hu.2 j
    · exact hu
  · split
    · rename_i hk
      have hne : i ≠ k := by
        rintro rfl
        rw [hi] at hk
        cases hk
      rw [withUnitRow, Quad.get_set, if_neg hne]
      exact hu
    · exact hu

/-! ## 3. Splitting -/

/-- Nothing contributes to a constant row, and its offset is a whole number. -/
theorem isConstantRow_iff {t : Affine} {nullInputs unused : Quad Bool} {i : Fin 4} :
    t.isConstantRow nullInputs unused i = true ↔
      (unused i = false ∧ EntryMask.meets t.mask (EntryMask.row i.val) = true) ∧
        (∀ j, silent (t.rows i) nullInputs j = true) ∧ (t.rows i).offset.isInteger = true := by
  simp only [isConstantRow, Bool.and_eq_true, Bool.not_eq_true', Quad.all_indices, and_assoc]

/-- Constant rows leave a transform with a smaller mask. -/
theorem constantRows?_within {t remaining : Affine} {nullInputs unused : Quad Bool}
    {values : Constants} (h : t.constantRows? nullInputs unused = some (remaining, values)) :
    Within remaining t ∧ remaining.mask ≠ t.mask := by
  unfold constantRows? at h
  simp only at h
  split at h
  · cases h
  · rename_i hrows
    simp only [Option.some.injEq, Prod.mk.injEq] at h
    obtain ⟨rfl, -⟩ := h
    refine ⟨foldl_within withUnitRow withUnitRow_within _ t, ?_⟩
    -- the first constant row is in the mask of `t` and is taken out first
    cases hl : Quad.indices.filter (t.isConstantRow nullInputs unused) with
    | nil => rw [hl] at hrows; exact absurd rfl hrows
    | cons i rows =>
      have hi : t.isConstantRow nullInputs unused i = true :=
        (List.mem_filter.mp (hl ▸ List.mem_cons_self)).2
      obtain ⟨⟨-, hmeets⟩, -⟩ := isConstantRow_iff.mp hi
      have hrest := foldl_within withUnitRow withUnitRow_within rows (t.withUnitRow i)
      intro he
      refine EntryMask.and_not_ne_of_meets hmeets (BitVec.eq_of_getLsbD_eq fun k hk => ?_)
      cases hb : t.mask.getLsbD k with
      | false => simp only [BitVec.getLsbD_and, hb, Bool.false_and]
      | true =>
        rw [← he] at hb
        exact hrest.mask k hb

/-- The mask of a matrix has bits for its entries only. -/
theorem maskOf_bounded (rows : Quad AffineRow) (k : Nat) (hk : 20 ≤ k) :
    (maskOf rows).getLsbD k = false := by
  unfold maskOf
  refine List.foldlRecOn (motive := fun m : EntryMask => m.getLsbD k = false) _ _ (by simp)
    fun m hm i _ => ?_
  refine List.foldlRecOn (motive := fun m : EntryMask => m.getLsbD k = false) _ _ hm
    fun m hm j _ => ?_
  split
  · exact hm
  · simp only [EntryMask.entry, BitVec.getLsbD_or, hm, Bool.false_or, BitVec.getLsbD_shiftLeft,
      BitVec.getLsbD_one]
    have hi := i.isLt
    have hj := j.isLt
    simp
    omega

/-- A bit that no step takes out of a mask, and that one step puts in. -/
theorem getLsbD_foldl {α : Type} {step : EntryMask → α → EntryMask} {k : Nat}
    (hkeep : ∀ m a, m.getLsbD k = true → (step m a).getLsbD k = true) :
    ∀ (l : List α) (m : EntryMask), (m.getLsbD k = true ∨ ∃ a ∈ l, ∀ m, (step m a).getLsbD k = true) →
      (l.foldl step m).getLsbD k = true
  | [], m, h => by
    rcases h with h | ⟨a, ha, -⟩
    · exact h
    · cases ha
  | a :: l, m, h => by
    refine getLsbD_foldl hkeep l (step m a) ?_
    rcases h with h | ⟨b, hb, hset⟩
    · exact .inl (hkeep m a h)
    · rcases List.mem_cons.mp hb with rfl | hb
      · exact .inl (hset m)
      · exact .inr ⟨b, hb, hset⟩

/-- Every entry that differs from the identity is in the mask. -/
theorem maskOf_entry {rows : Quad AffineRow} {i : Fin 4} {j : Fin 5}
    (h : (rows i).entry j ≠ unit i j) : (maskOf rows).getLsbD (5 * i.val + j.val) = true := by
  have hbit : (EntryMask.entry i.val j.val).getLsbD (5 * i.val + j.val) = true := by
    simp only [EntryMask.entry, BitVec.getLsbD_shiftLeft, BitVec.getLsbD_one]
    have hi := i.isLt
    have hj := j.isLt
    simp
    omega
  have hcolumn : ∀ (a : Fin 4) (m : EntryMask) (c : Fin 5), m.getLsbD (5 * i.val + j.val) = true →
      (if (rows a).entry c = unit a c then m else m ||| EntryMask.entry a.val c.val).getLsbD
        (5 * i.val + j.val) = true := by
    intro a m c hm
    split
    · exact hm
    · rw [BitVec.getLsbD_or, hm, Bool.true_or]
  unfold maskOf
  refine getLsbD_foldl (fun m a hm => getLsbD_foldl (hcolumn a) _ m (.inl hm)) _ _
    (.inr ⟨i, Quad.mem_indices i, fun m => getLsbD_foldl (hcolumn i) _ m (.inr ⟨j, ?_, fun m => ?_⟩)⟩)
  · match j with
    | 0 | 1 | 2 | 3 | 4 => decide
  · rw [if_neg h, BitVec.getLsbD_or, hbit, Bool.or_true]

/-- A row that does not meet the mask is that of the identity. -/
theorem entry_of_not_meets {rows : Quad AffineRow} {i : Fin 4}
    (h : EntryMask.meets (maskOf rows) (EntryMask.row i.val) = false) (j : Fin 5) :
    (rows i).entry j = unit i j := by
  refine Decidable.byContradiction fun hne => ?_
  have hrow : (EntryMask.row i.val).getLsbD (5 * i.val + j.val) = true := by
    have hall : ∀ (a : Fin 4) (b : Fin 5), (EntryMask.row a.val).getLsbD (5 * a.val + b.val) = true := by
      decide
    exact hall i j
  have hzero : maskOf rows &&& EntryMask.row i.val = 0#32 := by
    simpa [EntryMask.meets] using h
  have hbit := congrArg (fun m : EntryMask => m.getLsbD (5 * i.val + j.val)) hzero
  simp only [BitVec.getLsbD_and, maskOf_entry hne, hrow, BitVec.getLsbD_zero] at hbit
  cases hbit

/-- A split into a swizzle and a rest starts from a transform that mixes components and leaves one
that does not. -/
theorem swizzle?_mixes {t remaining : Affine} {nullInputs unused : Quad Bool} {w : Swizzle}
    (h : t.swizzle? nullInputs unused = some (w, remaining)) :
    t.mixes = true ∧ remaining.mixes = false ∧ EntryMask.card remaining.mask ≤ 20 := by
  unfold swizzle? at h
  simp only at h
  split at h
  · rename_i hc
    simp only [Option.some.injEq, Prod.mk.injEq] at h
    obtain ⟨-, rfl⟩ := h
    refine ⟨?_, ?_, EntryMask.card_le_of_bounded (maskOf_bounded _)⟩
    · rw [Bool.and_eq_true, List.any_eq_true] at hc
      obtain ⟨-, i, -, hi⟩ := hc
      cases hs : (sources (t.rows i) nullInputs).head? with
      | none => rw [hs] at hi; cases hi
      | some j =>
        rw [hs] at hi
        have hne : j ≠ i := by simpa using hi
        have hmem : j ∈ sources (t.rows i) nullInputs := List.mem_of_head? hs
        have hloud := (List.mem_filter.mp hmem).2
        simp only [silent, Bool.not_eq_true', Bool.or_eq_false_iff] at hloud
        exact (mixes_iff t).mpr ⟨i, j, hne.symm, hloud.1⟩
    · rw [Bool.eq_false_iff]
      intro hm
      obtain ⟨a, b, hne, hz⟩ := (mixes_iff _).mp hm
      simp only [ofRows, Quad.get_ofFn] at hz
      split at hz
      · rw [unitRow_weight, if_neg hne] at hz
        exact absurd hz (by decide)
      · have hw : (aligned (t.rows a) a (sources (t.rows a) nullInputs).head?).weight b =
            Fraction.zero := by
          unfold aligned
          split
          · simp
          · simp only [Quad.get_set, Quad.get_const]
            rw [if_neg hne.symm]
        rw [hw] at hz
        exact absurd hz (by decide)
  · cases h

end Affine

end PixelConv
