import PixelConv.BitField

/-!
# The fields of a pattern

Which components have a field, and what it can hold. A field is as wide as its pattern says up to
the first zero (`BitField.len_ofWidths`), and what it holds has no more bits than that
(`BitField.toNat_extract_lt`).
-/

namespace PixelConv

namespace BitField

/-! ## 1. Components with a field -/

/-- No width follows a zero, so that every width stands for a field. -/
def Leading (widths : Quad Nat) : Prop :=
  ∀ i j : Fin 4, i.val ≤ j.val → widths i = 0 → widths j = 0

instance (widths : Quad Nat) : Decidable (Leading widths) :=
  inferInstanceAs (Decidable (∀ i j : Fin 4, i.val ≤ j.val → widths i = 0 → widths j = 0))

theorem getD_toList (widths : Quad Nat) (i : Fin 4) : widths.toList.getD i.val 0 = widths i := by
  rw [List.getD_eq_getElem?_getD, Quad.getElem?_toList, Option.getD_some]

theorem len_place : ∀ (ws : List Nat) (top i : Nat),
    ((place top ws).getD i empty).len =
      if i < (ws.takeWhile (0 < ·)).length then ws.getD i 0 else 0
  | [], _, _ => rfl
  | 0 :: _, _, _ => rfl
  | (w + 1) :: ws, top, 0 => rfl
  | (w + 1) :: ws, top, i + 1 => by
    show ((place (top - (w + 1)) ws).getD i empty).len = _
    rw [len_place ws]
    simp

theorem pos_of_lt_takeWhile : ∀ (ws : List Nat) (i : Nat),
    i < (ws.takeWhile (0 < ·)).length → 0 < ws.getD i 0
  | [], _, h => absurd h (Nat.not_lt_zero _)
  | 0 :: _, _, h => absurd h (Nat.not_lt_zero _)
  | (w + 1) :: _, 0, _ => Nat.succ_pos w
  | (_ + 1) :: ws, i + 1, h => pos_of_lt_takeWhile ws i (Nat.lt_of_succ_lt_succ h)

theorem getD_takeWhile : ∀ ws : List Nat, ws.getD (ws.takeWhile (0 < ·)).length 0 = 0
  | [] => rfl
  | 0 :: _ => rfl
  | (_ + 1) :: ws => getD_takeWhile ws

/-- A field is as wide as its pattern says, up to the first zero. -/
theorem len_ofWidths (widths : Quad Nat) (bits : Nat) (i : Fin 4) :
    ((ofWidths widths bits) i).len = if i.val < count widths then widths i else 0 := by
  rw [ofWidths, Quad.ofListD, Quad.get_ofFn, len_place, getD_toList, count]

/-- The widths before the first zero are not zero. -/
theorem pos_of_lt_count {widths : Quad Nat} {i : Fin 4} (h : i.val < count widths) :
    0 < widths i := by
  rw [← getD_toList]
  exact pos_of_lt_takeWhile _ _ h

/-- Without a width after a zero, every width stands before the first zero. -/
theorem lt_count_of_pos {widths : Quad Nat} (hlead : Leading widths) {i : Fin 4}
    (h : 0 < widths i) : i.val < count widths := by
  refine Nat.lt_of_not_le fun hle => ?_
  have hzero : widths ⟨count widths, Nat.lt_of_le_of_lt hle i.isLt⟩ = 0 := by
    rw [← getD_toList]
    exact getD_takeWhile widths.toList
  have := hlead _ i hle hzero
  omega

theorem len_eq_zero_iff {widths : Quad Nat} {bits : Nat} {i : Fin 4} :
    ((ofWidths widths bits) i).len = 0 ↔ count widths ≤ i.val := by
  rw [len_ofWidths]
  split
  · rename_i hlt
    have := pos_of_lt_count hlt
    omega
  · omega

/-- Without a width after a zero, every field is as wide as its pattern says. -/
theorem Leading.len_eq {widths : Quad Nat} (hlead : Leading widths) (bits : Nat) (i : Fin 4) :
    ((ofWidths widths bits) i).len = widths i := by
  rw [len_ofWidths]
  by_cases h : 0 < widths i
  · rw [if_pos (lt_count_of_pos hlead h)]
  · split <;> omega

theorem width_le_sum (widths : Quad Nat) (i : Fin 4) : widths i ≤ widths.toList.sum := by
  have hsum : widths.toList.sum = widths 0 + widths 1 + widths 2 + widths 3 := by
    show widths 0 + (widths 1 + (widths 2 + (widths 3 + 0))) = _
    omega
  match i with
  | 0 | 1 | 2 | 3 => omega

/-! ## 2. What a field holds -/

/-- The ones of a field within a word. -/
theorem toNat_ones (start : Nat) {len : Nat} (h : len ≤ 32) :
    (BitField.mk start len).ones.toNat = 2 ^ len - 1 := by
  have hall : ∀ n : Fin 33, (BitField.mk 0 n.val).ones.toNat = 2 ^ n.val - 1 := by decide
  exact hall ⟨len, Nat.lt_succ_of_le h⟩

/-- **A field holds a number of its width.** -/
theorem toNat_extract_lt {f : BitField} (h : f.len ≤ 32) (w : UInt32) :
    (f.extract w).toNat < 2 ^ f.len := by
  have hpos : 0 < 2 ^ f.len := Nat.two_pow_pos _
  unfold extract
  split
  · exact hpos
  · rw [UInt32.toNat_and, toNat_ones f.start h]
    have := Nat.and_le_right (n := (w >>> f.start.toUInt32).toNat) (m := 2 ^ f.len - 1)
    omega

end BitField

end PixelConv
