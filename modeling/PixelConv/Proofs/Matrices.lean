import PixelConv.Proofs.AffineMask
import PixelConv.Proofs.ExactArithmetic

/-!
# Regular transforms

A transform is regular if its mask is that of its rows and all of its entries are defined and in
lowest terms. Resetting rows and columns, splitting and composing keep transforms regular. A regular
transform with an empty mask is the identity, and a composition takes an input up only where both
transforms have a path for it (`Affine.exists_path`).
-/

namespace PixelConv

/-! ## 1. Sums of products -/

namespace Fraction

variable {a b : Fraction}

/-- The value is defined and in lowest terms. -/
def Reduced (q : Fraction) : Prop := 0 < q.den ∧ q.num.natAbs.gcd q.den = 1

instance (q : Fraction) : Decidable q.Reduced :=
  inferInstanceAs (Decidable (0 < q.den ∧ q.num.natAbs.gcd q.den = 1))

theorem Reduced.isDefined (h : a.Reduced) : a.isDefined = true := isDefined_iff.mpr h.1

theorem Lowest.reduced (h : a.Lowest) (ha : a.isDefined = true) : a.Reduced := by
  rcases h with rfl | ⟨hden, hgcd, -⟩
  · cases ha
  · exact ⟨hden, hgcd⟩

theorem isZero_iff : a.isZero = true ↔ a.isDefined = true ∧ a.num = 0 := by
  rw [isZero, Bool.and_eq_true, beq_iff_eq]
  rfl

/-- Zero is whole in lowest terms. -/
theorem Reduced.isInteger (h : a.Reduced) (hz : a.isZero = true) : a.isInteger = true := by
  have hgcd := h.2
  rw [(isZero_iff.mp hz).2, Int.natAbs_zero, Nat.gcd_zero_left] at hgcd
  rw [Fraction.isInteger, hgcd]
  rfl

/-- A product with a factor that is zero is zero, whatever its terms are. -/
theorem mul_of_isZero (ha : a.isDefined = true) (hb : b.isDefined = true)
    (h : a.isZero = true ∨ b.isZero = true) : a * b = zero := by
  have hnum : a.num * b.num = 0 := by
    rcases h with h | h
    · rw [(isZero_iff.mp h).2, Int.zero_mul]
    · rw [(isZero_iff.mp h).2, Int.mul_zero]
  have hden := Nat.mul_pos (isDefined_iff.mp ha) (isDefined_iff.mp hb)
  show Fraction.mul a b = zero
  rw [Fraction.mul, if_pos (by rw [ha, hb]; rfl), hnum]
  exact reduce_zero (by omega)

variable {f g : Fin 4 → Fraction} (hf : ∀ k, (f k).isDefined = true)
  (hg : ∀ k, (g k).isDefined = true)

include hf hg in
theorem reduced_foldl (l : List (Fin 4)) : ∀ acc : Fraction, acc.Reduced →
    (l.foldl (fun acc k => acc + f k * g k) acc).Reduced := by
  induction l with
  | nil => exact fun _ h => h
  | cons k l ih =>
    intro acc hacc
    exact ih _ ((lowest_add _ _).reduced
      (isDefined_add hacc.isDefined (isDefined_mul (hf k) (hg k))))

include hf hg in
/-- A sum of products that are zero is zero. -/
theorem foldl_of_isZero (l : List (Fin 4))
    (h : ∀ k, (f k).isZero = true ∨ (g k).isZero = true) :
    l.foldl (fun acc k => acc + f k * g k) zero = zero := by
  induction l with
  | nil => rfl
  | cons k l ih =>
    rw [List.foldl_cons, mul_of_isZero (hf k) (hg k) (h k), show zero + zero = zero from rfl]
    exact ih

end Fraction

/-! ## 2. Entries -/

namespace AffineRow

@[simp] theorem entry_ofFn (f : Fin 5 → Fraction) (j : Fin 5) : (ofFn f).entry j = f j := by
  match j with
  | 0 | 1 | 2 | 3 | 4 => rfl

theorem entry_castSucc (r : AffineRow) (j : Fin 4) : r.entry j.castSucc = r.weight j := by
  rw [entry, dif_pos (show j.castSucc.val < 4 from j.isLt)]
  rfl

end AffineRow

namespace Affine

theorem entry_withUnitRow (t : Affine) (i a : Fin 4) (b : Fin 5) :
    (t.withUnitRow i).entry a b = if a = i then unit a b else t.entry a b := by
  simp only [entry, withUnitRow, Quad.get_set]
  split
  · rename_i ha
    rw [ha, unitRow, AffineRow.entry_ofFn]
  · rfl

theorem entry_withUnitCol (t : Affine) (j : Fin 5) (a : Fin 4) (b : Fin 5) :
    (t.withUnitCol j).entry a b = if b = j then unit a b else t.entry a b := by
  simp only [entry, withUnitCol, Quad.get_ofFn, AffineRow.entry_ofFn]
  split
  · rename_i hb
    rw [hb]
  · rfl

theorem reduced_unit (i : Fin 4) (j : Fin 5) : (unit i j).Reduced := by
  unfold unit
  split <;> decide

/-- Rows that are not reset stay. -/
theorem rows_foldl_withUnitRow {l : List (Fin 4)} {a : Fin 4} (h : a ∉ l) (t : Affine) :
    (l.foldl withUnitRow t).rows a = t.rows a := by
  induction l generalizing t with
  | nil => rfl
  | cons i l ih =>
    have hi : a ≠ i := List.ne_of_not_mem_cons h
    rw [List.foldl_cons, ih (List.not_mem_of_not_mem_cons h), withUnitRow, Quad.get_set, if_neg hi]

/-! ## 3. Computed masks -/

/-- **The bits of a computed mask** are the entries that differ from the identity. -/
theorem getLsbD_maskOf {rows : Quad AffineRow} {k : Nat} : (maskOf rows).getLsbD k = true ↔
    ∃ (i : Fin 4) (j : Fin 5), k = 5 * i.val + j.val ∧ (rows i).entry j ≠ unit i j := by
  constructor
  · unfold maskOf
    refine List.foldlRecOn (motive := fun m : EntryMask => m.getLsbD k = true →
      ∃ (i : Fin 4) (j : Fin 5), k = 5 * i.val + j.val ∧ (rows i).entry j ≠ unit i j) _ _
      (fun h => by simp at h) fun m hm i _ => ?_
    refine List.foldlRecOn (motive := fun m : EntryMask => m.getLsbD k = true →
      ∃ (i : Fin 4) (j : Fin 5), k = 5 * i.val + j.val ∧ (rows i).entry j ≠ unit i j) _ _ hm
      fun m hm j _ => ?_
    split
    · exact hm
    · rename_i hne
      intro hk
      rw [BitVec.getLsbD_or, Bool.or_eq_true] at hk
      rcases hk with hk | hk
      · exact hm hk
      · refine ⟨i, j, ?_, hne⟩
        simp only [EntryMask.entry, BitVec.getLsbD_shiftLeft, BitVec.getLsbD_one, Bool.and_eq_true,
          Bool.not_eq_true', decide_eq_true_eq, decide_eq_false_iff_not] at hk
        omega
  · rintro ⟨i, j, rfl, hne⟩
    exact maskOf_entry hne

/-- Entries that are reset leave the mask. -/
theorem maskOf_reset {rows rows' : Quad AffineRow} (cleared : Fin 4 → Fin 5 → Bool) (m : EntryMask)
    (hm : ∀ i j, m.getLsbD (5 * i.val + j.val) = cleared i j)
    (hrows : ∀ i j, (rows' i).entry j = if cleared i j then unit i j else (rows i).entry j) :
    maskOf rows' = maskOf rows &&& ~~~m := by
  refine BitVec.eq_of_getLsbD_eq fun k hk => Bool.eq_iff_iff.mpr ?_
  rw [BitVec.getLsbD_and, BitVec.getLsbD_not, Bool.and_eq_true, Bool.and_eq_true,
    getLsbD_maskOf, getLsbD_maskOf]
  constructor
  · rintro ⟨i, j, rfl, hne⟩
    have hsame := hrows i j
    rw [hm]
    cases hclear : cleared i j with
    | true =>
      rw [hclear, if_pos rfl] at hsame
      exact absurd hsame hne
    | false =>
      rw [hclear, if_neg Bool.false_ne_true] at hsame
      exact ⟨⟨i, j, rfl, fun h => hne (hsame.trans h)⟩, decide_eq_true hk, rfl⟩
  · rintro ⟨⟨i, j, rfl, hne⟩, -, hclear⟩
    refine ⟨i, j, rfl, ?_⟩
    rw [hm, Bool.not_eq_true'] at hclear
    rw [hrows, hclear, if_neg Bool.false_ne_true]
    exact hne

theorem maskOf_withUnitRow (t : Affine) (i : Fin 4) :
    maskOf (t.withUnitRow i).rows = maskOf t.rows &&& ~~~EntryMask.row i.val := by
  refine maskOf_reset (fun a _ => decide (a = i)) _ (fun a b => ?_) fun a b => ?_
  · have hall : ∀ (i a : Fin 4) (b : Fin 5),
        (EntryMask.row i.val).getLsbD (5 * a.val + b.val) = decide (a = i) := by decide
    exact hall i a b
  · simp only [decide_eq_true_eq]
    exact entry_withUnitRow t i a b

theorem maskOf_withUnitCol (t : Affine) (j : Fin 5) :
    maskOf (t.withUnitCol j).rows = maskOf t.rows &&& ~~~EntryMask.col j.val := by
  refine maskOf_reset (fun _ b => decide (b = j)) _ (fun a b => ?_) fun a b => ?_
  · have hall : ∀ (j : Fin 5) (a : Fin 4) (b : Fin 5),
        (EntryMask.col j.val).getLsbD (5 * a.val + b.val) = decide (b = j) := by decide
    exact hall j a b
  · simp only [decide_eq_true_eq]
    exact entry_withUnitCol t j a b

/-- The mask is that of the rows, and all entries are defined and in lowest terms. -/
structure Regular (t : Affine) : Prop where
  mask : t.mask = maskOf t.rows
  entries : ∀ i j, (t.entry i j).Reduced

theorem regular_ofRows {rows : Quad AffineRow} (h : ∀ i j, ((rows i).entry j).Reduced) :
    (ofRows rows).Regular := ⟨rfl, h⟩

namespace Regular

variable {t u : Affine}

theorem weight (h : t.Regular) (i j : Fin 4) : ((t.rows i).weight j).Reduced := by
  rw [← AffineRow.entry_castSucc]
  exact h.entries i j.castSucc

theorem withUnitRow (h : t.Regular) (i : Fin 4) : (t.withUnitRow i).Regular := by
  refine ⟨?_, fun a b => ?_⟩
  · rw [maskOf_withUnitRow, ← h.mask]
    rfl
  · rw [entry_withUnitRow]
    split
    · exact reduced_unit a b
    · exact h.entries a b

theorem withUnitCol (h : t.Regular) (j : Fin 5) : (t.withUnitCol j).Regular := by
  refine ⟨?_, fun a b => ?_⟩
  · rw [maskOf_withUnitCol, ← h.mask]
    rfl
  · rw [entry_withUnitCol]
    split
    · exact reduced_unit a b
    · exact h.entries a b

theorem foldl {α : Type} {f : Affine → α → Affine} (hf : ∀ t a, t.Regular → (f t a).Regular)
    (h : t.Regular) (l : List α) : (l.foldl f t).Regular :=
  List.foldlRecOn (motive := Regular) l f h fun t ht a _ => hf t a ht

theorem restricted (h : t.Regular) (nullInputs unused : Quad Bool) :
    (t.restricted nullInputs unused).Regular := by
  unfold Affine.restricted
  refine (h.foldl (fun t j ht => ?_) _).foldl (fun t i ht => ?_) _
  · split
    · exact ht.withUnitCol _
    · exact ht
  · split
    · exact ht.withUnitRow _
    · exact ht

/-- An empty mask is that of the identity. -/
theorem weight_of_mask (h : t.Regular) (hmask : t.mask = 0#32) (i j : Fin 4) :
    (t.rows i).weight j = if i = j then Fraction.one else Fraction.zero := by
  rw [← AffineRow.entry_castSucc, ← unitRow_weight, ← AffineRow.entry_castSucc, unitRow,
    AffineRow.entry_ofFn]
  refine Decidable.byContradiction fun hne => ?_
  have hbit := getLsbD_maskOf.mpr ⟨i, j.castSucc, rfl, hne⟩
  rw [← h.mask, hmask] at hbit
  simp at hbit

end Regular

/-! ## 4. Composition -/

/-- Sums of products of defined entries are in lowest terms. -/
theorem reduced_productEntry {t u : Affine} {i : Fin 4} {j : Fin 5}
    (ht : ∀ k, (t.entry k j).isDefined = true) (hu : ∀ k, (u.entry i k).isDefined = true) :
    (productEntry t u i j).Reduced := by
  have hweight : ∀ k, ((u.rows i).weight k).isDefined = true := fun k => by
    rw [← AffineRow.entry_castSucc]
    exact hu k.castSucc
  have hsum := Fraction.reduced_foldl hweight ht Quad.indices Fraction.zero (by decide)
  unfold productEntry
  simp only
  split
  · exact (Fraction.lowest_add _ _).reduced (Fraction.isDefined_add hsum.isDefined (hu 4))
  · exact hsum

@[simp] theorem entry_andThen (t u : Affine) (i : Fin 4) (j : Fin 5) :
    (t.andThen u).entry i j = productEntry t u i j := by
  rw [entry, andThen, ofRows, Quad.get_ofFn, AffineRow.entry_ofFn]

theorem Regular.andThen {t u : Affine} (ht : t.Regular) (hu : u.Regular) :
    (t.andThen u).Regular := by
  refine regular_ofRows fun i j => ?_
  rw [Quad.get_ofFn, AffineRow.entry_ofFn]
  exact reduced_productEntry (fun k => (ht.entries k j).isDefined)
    fun k => (hu.entries i k).isDefined

/-- A composition takes an input up only by way of some component in between. -/
theorem exists_path {t u : Affine} (ht : t.Regular) (hu : u.Regular) {i j : Fin 4}
    (h : (((t.andThen u).rows i).weight j).isZero = false) :
    ∃ k, ((u.rows i).weight k).isZero = false ∧ ((t.rows k).weight j).isZero = false := by
  refine Classical.byContradiction fun hnone => ?_
  have hzero : ∀ k, ((u.rows i).weight k).isZero = true ∨ (t.entry k j.castSucc).isZero = true := by
    intro k
    rw [entry, AffineRow.entry_castSucc]
    cases hk : ((u.rows i).weight k).isZero with
    | true => exact .inl rfl
    | false =>
      exact .inr (Bool.not_eq_false _ ▸ fun hz => hnone ⟨k, hk, hz⟩)
  have hlast : j.castSucc ≠ 4 := Fin.ne_of_lt (Fin.castSucc_lt_last j)
  rw [← AffineRow.entry_castSucc, ← entry, entry_andThen,
    productEntry, if_neg hlast, Fraction.foldl_of_isZero (fun k => (hu.weight i k).isDefined)
      (fun k => (ht.entries k j.castSucc).isDefined) Quad.indices hzero] at h
  cases h

/-! ## 5. Splitting -/

/-- What is left when constant rows are split off: they are reset, the others stay. -/
theorem constantRows?_eq_some {t remaining : Affine} {nullInputs unused : Quad Bool}
    {values : Constants} (h : t.constantRows? nullInputs unused = some (remaining, values)) :
    (t.Regular → remaining.Regular) ∧
      ∀ i, values i = none → remaining.rows i = t.rows i := by
  unfold constantRows? at h
  simp only at h
  split at h
  · cases h
  · simp only [Option.some.injEq, Prod.mk.injEq] at h
    obtain ⟨rfl, rfl⟩ := h
    refine ⟨fun ht => ht.foldl (fun t i ht => ht.withUnitRow i) _, fun i hi => ?_⟩
    refine rows_foldl_withUnitRow (fun hmem => ?_) t
    rw [Quad.get_ofFn, if_pos (List.contains_iff_mem.mpr hmem)] at hi
    cases hi

/-- A constant that is split off is the offset of a constant row. -/
theorem constantRows?_constant {t remaining : Affine} {nullInputs unused : Quad Bool}
    {values : Constants} (h : t.constantRows? nullInputs unused = some (remaining, values)) {i : Fin 4}
    {q : Fraction} (hq : values i = some q) :
    q = (t.rows i).offset ∧ t.isConstantRow nullInputs unused i = true := by
  unfold constantRows? at h
  simp only at h
  split at h
  · cases h
  · simp only [Option.some.injEq, Prod.mk.injEq] at h
    obtain ⟨-, rfl⟩ := h
    rw [Quad.get_ofFn] at hq
    split at hq
    · rename_i hmem
      cases hq
      exact ⟨rfl, (List.mem_filter.mp (List.contains_iff_mem.mp hmem)).2⟩
    · cases hq

/-- Where no row is constant, every row that is read has an offset or an input that contributes,
unless it is the one of the identity. -/
theorem not_constant_of_constantRows? {t : Affine} {nullInputs unused : Quad Bool}
    (h : t.constantRows? nullInputs unused = none) (i : Fin 4) :
    t.isConstantRow nullInputs unused i = false := by
  unfold constantRows? at h
  simp only at h
  split at h
  · rename_i hempty
    have hnil := List.isEmpty_iff.mp hempty
    rw [List.filter_eq_nil_iff] at hnil
    exact Bool.eq_false_iff.mpr (hnil i (Quad.mem_indices i))
  · cases h

/-- Where one factor is enough, nothing but the diagonal contributes to a row that is read. -/
theorem scalar?_diagonal {t : Affine} {nullInputs unused : Quad Bool} {factor : Fraction}
    (h : t.scalar? nullInputs unused = some factor) {i : Fin 4} (hi : unused i = false) :
    (∀ j, j ≠ i → silent (t.rows i) nullInputs j = true) ∧ (t.rows i).offset.isZero = true := by
  unfold scalar? at h
  simp only at h
  split at h
  · rename_i hall
    have hmem : i ∈ Quad.indices.filter fun i => !unused i :=
      List.mem_filter.mpr ⟨Quad.mem_indices i, by rw [hi]; rfl⟩
    obtain ⟨hdiagonal, hoffset⟩ := Bool.and_eq_true_iff.mp (List.all_eq_true.mp hall i hmem)
    refine ⟨fun j hj => ?_, hoffset⟩
    have hor := Quad.all_indices.mp hdiagonal j
    rw [decide_eq_false hj, Bool.false_or] at hor
    exact hor
  · cases h

theorem sources_head? {r : AffineRow} {nullInputs : Quad Bool} {j : Fin 4}
    (h : (sources r nullInputs).head? = some j) : (r.weight j).isZero = false := by
  have hloud := (List.mem_filter.mp (List.mem_of_head? h)).2
  simp only [silent, Bool.not_eq_true', Bool.or_eq_false_iff] at hloud
  exact hloud.1

/-- What is left when a swizzle is split off: rows that are read take up at most the component that
the swizzle has brought to their place. -/
theorem swizzle?_eq_some {t remaining : Affine} {nullInputs unused : Quad Bool} {w : Swizzle}
    (h : t.swizzle? nullInputs unused = some (w, remaining)) :
    (t.Regular → remaining.Regular) ∧ ∀ i, unused i = false → ∀ k,
      ((remaining.rows i).weight k).isZero = false →
        k = i ∧ ((t.rows i).weight (w.source i)).isZero = false := by
  unfold swizzle? at h
  simp only at h
  split at h
  · simp only [Option.some.injEq, Prod.mk.injEq] at h
    obtain ⟨rfl, rfl⟩ := h
    refine ⟨fun ht => regular_ofRows fun i j => ?_, fun i hi k hk => ?_⟩
    · rw [Quad.get_ofFn]
      split
      · rw [unitRow, AffineRow.entry_ofFn]
        exact reduced_unit i j
      · have haligned : ∀ source, ((aligned (t.rows i) i source).entry j).Reduced := by
          intro source
          unfold AffineRow.entry
          split
          · cases source with
            | none =>
              simp only [aligned, Quad.get_const]
              decide
            | some c =>
              simp only [aligned, Quad.get_set, Quad.get_const]
              split
              · exact ht.weight i c
              · decide
          · cases source <;> exact ht.entries i 4
        exact haligned _
    · simp only [ofRows, Quad.get_ofFn, hi, Bool.false_eq_true, if_false] at hk
      cases hs : (sources (t.rows i) nullInputs).head? with
      | none =>
        rw [hs] at hk
        simp only [aligned, Quad.get_const] at hk
        cases hk
      | some j =>
        rw [hs] at hk
        simp only [aligned, Quad.get_set, Quad.get_const] at hk
        by_cases hki : k = i
        · have hsource : Swizzle.source ⟨Quad.ofFn fun i => if unused i then i.val else
              ((sources (t.rows i) nullInputs).head?.getD i).val⟩ i = j := by
            simp only [Swizzle.source, Quad.get_ofFn, hi, Bool.false_eq_true, if_false, hs,
              Option.getD_some]
            exact Fin.ofNat_val_eq_self j
          rw [hsource]
          exact ⟨hki, sources_head? hs⟩
        · rw [if_neg hki] at hk
          cases hk
  · cases h

end Affine

end PixelConv
