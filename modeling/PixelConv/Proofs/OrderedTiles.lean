import Mathlib.Data.List.Nodup
import Mathlib.Data.Nat.GCD.Basic
import Mathlib.Tactic.Ring
import PixelConv.Dither
import PixelConv.Proofs.Approximation

/-!
# Ordered tiles

The rank of a cell has one digit to base four for each pair of coordinate bits, and a digit gives
both bits back. So ranks number the cells of a tile without a gap (`Dither.ranks_perm`), and the
thresholds of the tile are the middles of `4 ^ k` equal parts of the unit interval, each taken once
(`Dither.entries_perm`). Main statement: ordered tiles are balanced (`Dither.ordered_balanced`).
-/

namespace PixelConv

namespace Dither

/-! ## 1. Ranks -/

theorem rank_lt (x y k : Nat) : rank x y k < 4 ^ k := by
  induction k generalizing x y with
  | zero => exact Nat.one_pos
  | succ k ih =>
    have hrest := ih (x / 2) (y / 2)
    rw [rank, Nat.pow_succ]
    omega

/-- **Cells have different ranks.** The last digit gives the lowest bit of the row and whether that
of the column differs from it, the other digits are the rank of the halved coordinates. -/
theorem rank_inj {k x y x' y' : Nat} (hx : x < 2 ^ k) (hy : y < 2 ^ k) (hx' : x' < 2 ^ k)
    (hy' : y' < 2 ^ k) (h : rank x y k = rank x' y' k) : x = x' ∧ y = y' := by
  induction k generalizing x y x' y' with
  | zero =>
    rw [Nat.pow_zero] at hx hy hx' hy'
    omega
  | succ k ih =>
    rw [Nat.pow_succ] at hx hy hx' hy'
    rw [rank, rank] at h
    -- a rank is split into its last digit and the others by division
    have hhalves : x / 2 = x' / 2 ∧ y / 2 = y' / 2 := by
      refine ih ?_ ?_ ?_ ?_ ?_ <;> omega
    have hdigit : (x + y) % 2 = (x' + y') % 2 ∧ y % 2 = y' % 2 := by omega
    omega

/-- The cells of a tile, row by row, have all the ranks there are. -/
theorem ranks_perm (k : Nat) :
    ((List.range (4 ^ k)).map fun i => rank (i % 2 ^ k) (i / 2 ^ k) k).Perm
      (List.range (4 ^ k)) := by
  have hside : 0 < 2 ^ k := Nat.two_pow_pos k
  have harea : 4 ^ k = 2 ^ k * 2 ^ k := Nat.mul_pow 2 2 k
  have hrow : ∀ {i}, i < 4 ^ k → i / 2 ^ k < 2 ^ k := fun hi =>
    Nat.div_lt_of_lt_mul (harea ▸ hi)
  have hnodup : ((List.range (4 ^ k)).map fun i => rank (i % 2 ^ k) (i / 2 ^ k) k).Nodup := by
    refine List.Nodup.map_on (fun i hi j hj h => ?_) List.nodup_range
    obtain ⟨hmod, hdiv⟩ := rank_inj (Nat.mod_lt i hside) (hrow (List.mem_range.mp hi))
      (Nat.mod_lt j hside) (hrow (List.mem_range.mp hj)) h
    rw [← Nat.mod_add_div i (2 ^ k), hmod, hdiv, Nat.mod_add_div]
  -- as many different ranks as there are numbers below the area
  refine (List.subperm_of_subset hnodup fun v hv => ?_).perm_of_length_le ?_
  · obtain ⟨i, -, rfl⟩ := List.mem_map.mp hv
    exact List.mem_range.mpr (rank_lt _ _ _)
  · rw [List.length_map]

/-! ## 2. Thresholds -/

/-- The middle of part `v` of `n` equal parts of the unit interval. -/
def middle (n v : Nat) : Fraction := ⟨2 * v + 1, 2 * n⟩

variable {k v n : Nat}

/-- An odd number over a power of two is in lowest terms, and these fit as long as the area does. -/
theorem threshold_eq_middle (hk : k ≤ 30) (hv : v < 4 ^ k) :
    threshold v (4 ^ k) = middle (4 ^ k) v := by
  have hpow : 4 ^ k ≤ 4 ^ 30 := Nat.pow_le_pow_right (by decide) hk
  have hcoprime : (2 * v + 1).Coprime (2 * 4 ^ k) := by
    have hodd : (2 * v + 1).Coprime 2 :=
      (Nat.coprime_mul_left_add_left 1 2 v).mpr (Nat.coprime_one_left 2)
    exact hodd.mul_right ((hodd.mul_right hodd).pow_right k)
  have hnum : (middle (4 ^ k) v).num.natAbs = 2 * v + 1 := by
    show (2 * (v : Int) + 1).natAbs = 2 * v + 1
    omega
  have hden : (middle (4 ^ k) v).den = 2 * 4 ^ k := rfl
  have hlowest : (middle (4 ^ k) v).Lowest := by
    rw [Fraction.Lowest, hnum, hden, Fraction.limit]
    exact .inr ⟨by omega, hcoprime, by omega, by omega⟩
  have hdefined : (middle (4 ^ k) v).isDefined = true := by
    rw [Fraction.isDefined_iff, hden]
    omega
  rw [← hlowest.reduce_eq hdefined, threshold, middle]
  push_cast
  rfl

/-- **The thresholds of an ordered tile** are the middles of equal parts of the unit interval. -/
theorem entries_perm (hk : k ≤ 30) :
    (ordered k).entries.toList.Perm ((List.range (4 ^ k)).map (middle (4 ^ k))) := by
  have hentries : (ordered k).entries.toList =
      ((List.range (4 ^ k)).map fun i => rank (i % 2 ^ k) (i / 2 ^ k) k).map (middle (4 ^ k)) := by
    rw [List.map_map]
    exact List.map_congr_left fun i _ => threshold_eq_middle hk (rank_lt _ _ _)
  rw [hentries]
  exact (ranks_perm k).map _

/-! ## 3. Balance -/

theorem value_middle (n v : Nat) : (middle n v).value = (2 * v + 1) / (2 * n) := by
  rw [Fraction.value, middle]
  push_cast
  rfl

theorem value_middle_inj (hn : 0 < n) {w : Nat} (h : (middle n v).value = (middle n w).value) :
    v = w := by
  have hn' : (2 * n : ℚ) ≠ 0 := by positivity
  rw [value_middle, value_middle, div_left_inj' hn'] at h
  have hnum : 2 * v + 1 = 2 * w + 1 := by exact_mod_cast h
  omega

/-- The first `m` odd numbers add up to the square of `m`. -/
theorem sum_middle (m n : Nat) :
    (((List.range m).map (middle n)).map Fraction.value).sum = m * m / (2 * n) := by
  induction m with
  | zero => simp
  | succ m ih =>
    rw [List.range_succ, List.map_append, List.map_append, List.sum_append, ih, List.map_singleton,
      List.map_singleton, List.sum_singleton, value_middle]
    push_cast
    ring

/-- **Ordered tiles are balanced.** As long as twice the area is a term of a fraction, the tile with
`2 ^ k` cells per side has `4 ^ k` entries, and these are the fractions `(2 v + 1) / (2 * 4 ^ k)` in
some order, each once. So they are different numbers between zero and one, and their mean is one
half. -/
theorem ordered_balanced (hk : k ≤ 30) :
    (ordered k).entries.size = 4 ^ k ∧
    (ordered k).entries.toList.Perm ((List.range (4 ^ k)).map (middle (4 ^ k))) ∧
    ((ordered k).entries.toList.map Fraction.value).Nodup ∧
    (∀ q ∈ (ordered k).entries, 0 < q.value ∧ q.value < 1) ∧
    ((ordered k).entries.toList.map Fraction.value).sum / (ordered k).entries.size = 1 / 2 := by
  have hpos : 0 < 4 ^ k := Nat.pow_pos (by decide)
  have hsize : (ordered k).entries.size = 4 ^ k := by
    rw [ordered, List.size_toArray, List.length_map, List.length_range]
  have hperm := entries_perm hk
  generalize 4 ^ k = n at hpos hsize hperm ⊢
  have hn : (0 : ℚ) < n := Nat.cast_pos.mpr hpos
  have hvalues := hperm.map Fraction.value
  refine ⟨hsize, hperm, ?_, fun q hq => ?_, ?_⟩
  · rw [hvalues.nodup_iff, List.map_map]
    exact List.Nodup.map_on (fun v _ w _ h => value_middle_inj hpos h) List.nodup_range
  · obtain ⟨v, hv, rfl⟩ := List.mem_map.mp (hperm.mem_iff.mp (Array.mem_toList_iff.mpr hq))
    have hlt : (v : ℚ) + 1 ≤ n := by exact_mod_cast List.mem_range.mp hv
    rw [value_middle, div_lt_one (by positivity)]
    exact ⟨by positivity, by linarith⟩
  · rw [hvalues.sum_eq, sum_middle, hsize]
    field_simp

/-- The largest tile, with the smallest threshold there is. -/
theorem largest_balanced : (ordered 30).entries.size = 2 ^ 60 ∧
    (⟨1, 2 ^ 61⟩ : Fraction) ∈ (ordered 30).entries ∧
    ((ordered 30).entries.toList.map Fraction.value).Nodup ∧
    ((ordered 30).entries.toList.map Fraction.value).sum / (ordered 30).entries.size = 1 / 2 := by
  obtain ⟨hsize, hperm, hnodup, -, hmean⟩ := ordered_balanced (Nat.le_refl 30)
  refine ⟨hsize, ?_, hnodup, hmean⟩
  have hsmallest : middle (4 ^ 30) 0 = ⟨1, 2 ^ 61⟩ := by decide
  rw [← hsmallest, ← Array.mem_toList_iff, hperm.mem_iff]
  exact List.mem_map_of_mem (List.mem_range.mpr (by decide))

/-- The tile of two cells per side. -/
example : (ordered 1).entries = #[⟨1, 8⟩, ⟨5, 8⟩, ⟨7, 8⟩, ⟨3, 8⟩] := by decide

end Dither

end PixelConv
