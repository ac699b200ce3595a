import PixelConv.Proofs.Certainty
import PixelConv.Proofs.Gathering

/-!
# Which components a split defines

A zero ends a pattern. The fields stop there, and so do the exact values and the registers that the
kernel overwrites; the analysis looks at the width of each component by itself. Main statement: the
four agree on a pattern exactly if no width follows a zero (`Op.unpack_defines_iff`).
-/

namespace PixelConv

namespace BitField

/-! ## 1. Patterns -/

/-- Every width stands for a field exactly if no width follows a zero. -/
theorem leading_iff {widths : Quad Nat} :
    Leading widths ↔ ∀ i : Fin 4, 0 < widths i ↔ i.val < count widths := by
  refine ⟨fun h i => ⟨lt_count_of_pos h, pos_of_lt_count⟩, fun h i j hij hzero => ?_⟩
  refine Nat.eq_zero_of_not_pos fun hpos => ?_
  have := (h i).mpr (Nat.lt_of_le_of_lt hij ((h j).mp hpos))
  omega

/-! ## 2. Registers -/

/-- What a split leaves in a register: the bits of its field in the packed word, which is read before
any register changes, or what the register held if there is no field. -/
def deposit (f : BitField) (packed old : UInt32) : UInt32 :=
  if f.len = 0 then old else f.extract packed

/-- The register is overwritten: for no packed word does it matter what the register held. -/
def Overwrites (f : BitField) : Prop :=
  ∀ packed old old', f.deposit packed old = f.deposit packed old'

theorem overwrites_iff {f : BitField} : f.Overwrites ↔ f.len ≠ 0 := by
  unfold Overwrites deposit
  constructor
  · intro h hlen
    have hsame := h 0 0 1
    rw [if_pos hlen, if_pos hlen] at hsame
    exact absurd hsame (by decide)
  · intro hlen packed old old'
    rw [if_neg hlen, if_neg hlen]

end BitField

theorem RegOp.get_unpack (fields : Quad BitField) (x y : Nat) (q : Pixel) (i : Fin 4) :
    ((RegOp.unpack fields).apply x y q) i = (fields i).deposit (q 0) (q i) :=
  Quad.get_zipWith _ fields q i

namespace Op

variable {op : Op} {widths : Quad Nat}

/-! ## 3. Analysis and evaluation -/

/-- The analysis takes a component to be defined by its own width. -/
theorem garbage_after_unpack (hk : op.kind = .unpack widths) {prev : Info}
    (hprev : (prev.known 0).garbage = false) (depths : Option Depths) (i : Fin 4) :
    ((op.infoAfter depths prev).known i).garbage = false ↔ 0 < widths i := by
  simp only [infoAfter, knownAfter, hk, Quad.get_map]
  split
  · rename_i hpos
    exact ⟨fun _ => hpos, fun _ => hprev⟩
  · rename_i hpos
    exact ⟨fun h => absurd h (by decide), fun h => absurd h hpos⟩

/-- A component has an exact value if it has a field of a word. -/
theorem isDefined_eval_unpack (hk : op.kind = .unpack widths) (v : Value) (i : Fin 4) :
    ((op.eval v) i).isDefined = true ↔
      (v 0).word?.isSome = true ∧ ((BitField.ofWidths widths op.elem.bits) i).len ≠ 0 := by
  rw [get_eval_of_not_wraps (by rw [hk]; rfl), show v 0 = v.c0 from rfl]
  simp only [evalRaw, hk, Value.unpack]
  cases v.c0.word? with
  | none =>
    rw [Quad.get_const]
    exact ⟨fun h => absurd h (by decide), fun h => absurd h.1 (by decide)⟩
  | some w =>
    simp only [Quad.get_map]
    split
    · rename_i hlen
      exact ⟨fun h => absurd h (by decide), fun h => absurd hlen h.2⟩
    · rename_i hlen
      exact ⟨fun _ => ⟨rfl, hlen⟩, fun _ => rfl⟩

/-- **Which components a split defines.** For every integer element, every pattern that the kernels
accept and a defined first component: a component has a field, its register is overwritten, and it has
an exact value for every word in the first component, all three exactly if it stands before the first
zero of the pattern. The analysis takes it to be defined exactly if its own width is not zero. So the
analysis agrees with the others on all components exactly if no width follows a zero. -/
theorem unpack_defines_iff {e : Elem} (hint : e.isInt = true) (widths : Quad Nat)
    (hsum : widths.toList.sum ≤ e.bits) (info prev : Info) (hprev : (prev.known 0).garbage = false)
    (depths : Option Depths) (v : Value) :
    ∃ fields, fields = BitField.ofWidths widths e.bits ∧
      Chosen ⟨e, .unpack widths, info⟩ (.compute (.unpack fields)) 0 0 ∧
      (∀ x y q i, ((RegOp.unpack fields).apply x y q) i = (fields i).deposit (q 0) (q i)) ∧
      (∀ i : Fin 4, ((fields i).len ≠ 0 ↔ i.val < BitField.count widths) ∧
        ((((Op.mk e (.unpack widths) info).eval v) i).isDefined = true ↔
          (v 0).word?.isSome = true ∧ i.val < BitField.count widths) ∧
        ((fields i).Overwrites ↔ i.val < BitField.count widths) ∧
        ((((Op.mk e (.unpack widths) info).infoAfter depths prev).known i).garbage = false ↔
          0 < widths i)) ∧
      ((∀ i : Fin 4,
        (((Op.mk e (.unpack widths) info).infoAfter depths prev).known i).garbage = false ↔
          (fields i).len ≠ 0) ↔ BitField.Leading widths) := by
  have hfield : ∀ i : Fin 4, ((BitField.ofWidths widths e.bits) i).len ≠ 0 ↔
      i.val < BitField.count widths := fun i =>
    (not_congr BitField.len_eq_zero_iff).trans Nat.not_le
  refine ⟨_, rfl, chosen_unpack rfl hint hsum, RegOp.get_unpack _, fun i => ⟨hfield i, ?_, ?_, ?_⟩,
    ?_⟩
  · rw [isDefined_eval_unpack rfl, hfield]
  · rw [BitField.overwrites_iff, hfield]
  · exact garbage_after_unpack rfl hprev depths i
  · rw [BitField.leading_iff]
    exact forall_congr' fun i => iff_congr (garbage_after_unpack rfl hprev depths i) (hfield i)

/-- A first component that was read from memory. -/
def wholeInfo : Info := { Info.blank with known := Quad.const Known.whole }

/-- Five, six and five bits give three components to everyone. Four bits after a gap are no field, yet
the analysis takes the third component to be defined. -/
theorem gap_defines : BitField.Leading ⟨5, 6, 5, 0⟩ ∧
    (∀ i : Fin 4,
      (((Op.ofKind .u16 (.unpack ⟨5, 6, 5, 0⟩)).infoAfter none wholeInfo).known i).garbage = false ↔
        ((BitField.ofWidths ⟨5, 6, 5, 0⟩ 16) i).len ≠ 0) ∧
    (((Op.ofKind .u8 (.unpack ⟨4, 0, 4, 0⟩)).infoAfter none wholeInfo).known 2).garbage = false ∧
    (((Op.ofKind .u8 (.unpack ⟨4, 0, 4, 0⟩)).eval (Quad.const (.ofWord 7))) 2).isDefined = false ∧
    ¬((BitField.ofWidths ⟨4, 0, 4, 0⟩ 8) 2).Overwrites := by
  obtain ⟨_, rfl, -, -, -, hall⟩ := unpack_defines_iff (e := .u16) rfl ⟨5, 6, 5, 0⟩ (by decide)
    Info.blank wholeInfo rfl none (Quad.const (.ofWord 7))
  obtain ⟨_, rfl, -, -, hgap, -⟩ := unpack_defines_iff (e := .u8) rfl ⟨4, 0, 4, 0⟩ (by decide)
    Info.blank wholeInfo rfl none (Quad.const (.ofWord 7))
  obtain ⟨-, hvalue, hover, hknown⟩ := hgap 2
  refine ⟨by decide, hall.mpr (by decide), hknown.mpr (by decide), ?_, ?_⟩
  · exact Bool.eq_false_iff.mpr fun h => absurd (hvalue.mp h).2 (by decide)
  · exact fun h => absurd (hover.mp h) (by decide)

end Op

end PixelConv
