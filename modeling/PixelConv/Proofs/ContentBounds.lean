import PixelConv.Proofs.Fields
import PixelConv.Proofs.Knowledge

/-!
# Contents stay within their bounds

What the analysis knows about integer contents after an operation is true of what the operation makes
of them (`Describes.step`), for all operations whose bounds it can follow, bit fields included.
-/

namespace PixelConv

/-! ## 1. Operations that can be followed -/

/-- An operation on integers whose bounds the analysis follows: it gathers no bit fields, adds no
tile and applies no transform, and its parameters fit its element. -/
structure Op.Followed (op : Op) : Prop where
  int : op.elem.isInt = true
  limits : op.InLimits
  constants : op.ConstantsFit
  kind : match op.kind with
    | .read l => l.frac ≤ 3
    | .unpack widths => BitField.Leading widths ∧ widths.toList.sum ≤ op.elem.bits
    | .convert target _ => target.isInt = true
    | .pack _ | .dither _ | .affine _ => False
    | _ => True

theorem Op.Followed.congr {a b : Op} (h : a.code = b.code) (ha : a.Followed) : b.Followed :=
  of_code (fun _ h => ⟨h.int, h.limits, h.constants, h.kind⟩) h ha

theorem Op.Followed.isExact {op : Op} (h : op.Followed) (hu : ∀ w, op.kind ≠ .unpack w) :
    op.isExact = true := by
  obtain ⟨hint, -, -, hkind⟩ := h
  unfold Op.isExact
  cases hk : op.kind with
  | unpack w => exact absurd hk (hu w)
  | convert target expand =>
    rw [hk] at hkind
    exact Bool.and_eq_true_iff.mpr ⟨hint, hkind⟩
  | pack | dither | affine =>
    rw [hk] at hkind
    exact hkind.elim
  | shiftLeft | shiftRight | scale | atMost | atLeast => exact hint
  | read | write | swapBytes | clear | swizzle => rfl

/-- The effect on the contents of a pixel whose elements in memory are `src`. A split into bit
fields defines the components that have one, a write changes nothing. -/
def Op.hold (src : Quad Nat) (op : Op) (v : Content) : Content :=
  match op.kind with
  | .unpack widths => Quad.ofFn fun i =>
    if 0 < widths i then
      v.c0.map fun n => (((BitField.ofWidths widths op.elem.bits) i).extract n.toUInt32).toNat
    else none
  | .write _ => v
  | _ => op.act src v

theorem Op.hold_eq_act {op : Op} (hu : ∀ w, op.kind ≠ .unpack w) (hw : ∀ l, op.kind ≠ .write l)
    (src : Quad Nat) (v : Content) : op.hold src v = op.act src v := by
  unfold Op.hold
  split
  · rename_i widths hk
    exact absurd hk (hu widths)
  · rename_i l hk
    exact absurd hk (hw l)
  · rfl

/-! ## 2. Contents -/

/-- What the analysis knows is true of contents in the range of `e`: exactly the undefined components
hold nothing, and what the others hold lies between their bounds. -/
structure Describes (info : Info) (e : Elem) (v : Content) : Prop where
  garbage : TracksGarbage info.known v
  range : InRange e v
  bounds : ∀ i n, v i = some n → (info.bounds i).Encloses n

section Contents

variable {op : Op} {prev : Info} {depths : Option Depths} {src : Quad Nat} {v : Content}

/-- The bounds after an operation, where the component is defined. -/
theorem Op.bounds_infoAfter {i : Fin 4} (h : ((op.knownAfter prev) i).garbage = false) :
    (op.infoAfter depths prev).bounds i = (op.boundsAfter depths prev) i := by
  simp only [Op.infoAfter, Quad.get_ofFn, h, Bool.false_eq_true, if_false]

/-- A defined component that lies between the bounds after an operation. -/
theorem encloses_infoAfter {v' : Content} (hgarbage : TracksGarbage (op.knownAfter prev) v')
    {i : Fin 4} {n : Nat} (hn : v' i = some n) (h : ((op.boundsAfter depths prev) i).Encloses n) :
    ((op.infoAfter depths prev).bounds i).Encloses n := by
  have hdef : ((op.knownAfter prev) i).garbage = false := by
    rw [hgarbage i, hn]
    rfl
  rw [Op.bounds_infoAfter hdef]
  exact h

/-- Bit fields are numbers of their width. -/
theorem Describes.unpack {widths : Quad Nat} (hk : op.kind = .unpack widths) (hf : op.Followed)
    (h : Describes prev op.elem v) :
    Describes (op.infoAfter depths prev) op.elem (op.hold src v) := by
  have hfits := hf.kind
  rw [hk] at hfits
  obtain ⟨hlead, hsum⟩ := hfits
  have hhold : ∀ i, (op.hold src v) i = if 0 < widths i then v.c0.map fun n =>
      (((BitField.ofWidths widths op.elem.bits) i).extract n.toUInt32).toNat else none := by
    intro i
    simp only [Op.hold, hk, Quad.get_ofFn]
  have hlt : ∀ i n, (op.hold src v) i = some n → 0 < widths i ∧ n < 2 ^ widths i := by
    intro i n hn
    rw [hhold] at hn
    split at hn
    · rename_i hpos
      obtain ⟨m, -, rfl⟩ := Option.map_eq_some_iff.mp hn
      have hlen := hlead.len_eq op.elem.bits i
      have hle := BitField.width_le_sum widths i
      have hbits := op.elem.bits_le
      refine ⟨hpos, ?_⟩
      have := BitField.toNat_extract_lt (f := (BitField.ofWidths widths op.elem.bits) i)
        (by omega) m.toUInt32
      rwa [hlen] at this
    · cases hn
  have hgarbage : TracksGarbage (op.knownAfter prev) (op.hold src v) := by
    intro i
    simp only [Op.knownAfter, hk, Quad.get_map]
    rw [hhold]
    split
    · rw [Option.isNone_map]
      exact h.garbage 0
    · rfl
  refine ⟨hgarbage, fun i n hn => ?_, fun i n hn => encloses_infoAfter hgarbage hn ?_⟩
  · have hle := BitField.width_le_sum widths i
    exact Nat.lt_of_lt_of_le (hlt i n hn).2 (Nat.pow_le_pow_right (by decide) (by omega))
  · simp only [Op.boundsAfter, hk, Quad.get_map]
    rw [if_pos (hlt i n hn).1]
    exact Bounds.encloses_ofBits (hlt i n hn).2

/-- **One operation**: what is known after it is true of the contents that it leaves. -/
theorem Describes.step (hf : op.Followed) (hsrc : SourceFits src depths op)
    (h : Describes prev op.elem v) :
    Describes (op.infoAfter depths prev) op.target (op.hold src v) := by
  by_cases hu : ∃ widths, op.kind = .unpack widths
  · obtain ⟨widths, hk⟩ := hu
    have htarget : op.target = op.elem := by rw [Op.target, hk]
    rw [htarget]
    exact h.unpack hk hf
  by_cases hw : ∃ l, op.kind = .write l
  · obtain ⟨l, hk⟩ := hw
    have htarget : op.target = op.elem := by rw [Op.target, hk]
    have hhold : op.hold src v = v := by simp only [Op.hold, hk]
    have hknown : op.knownAfter prev = prev.known := by simp only [Op.knownAfter, hk]
    rw [htarget, hhold]
    have hgarbage : TracksGarbage (op.knownAfter prev) v := by
      rw [hknown]
      exact h.garbage
    refine ⟨hgarbage, h.range, fun i n hn => encloses_infoAfter hgarbage hn ?_⟩
    simp only [Op.boundsAfter, hk]
    exact h.bounds i n hn
  · have hu : ∀ widths, op.kind ≠ .unpack widths := fun widths hk => hu ⟨widths, hk⟩
    have hw : ∀ l, op.kind ≠ .write l := fun l hk => hw ⟨l, hk⟩
    have hexact := hf.isExact hu
    rw [Op.hold_eq_act hu hw]
    have hgarbage := Op.garbage_knownAfter hexact hw src h.garbage
    exact ⟨hgarbage, Op.act_inRange hexact (fun l hl i hi => (hsrc l hl i hi).1) h.range,
      fun i n hn => encloses_infoAfter hgarbage hn (Op.encloses_boundsAfter hexact hf.int hf.limits
        hf.constants hsrc h.range h.bounds hn hw)⟩

end Contents

/-! ## 3. Lists of operations -/

/-- What lies between bounds, compared as fractions. -/
theorem Bounds.Encloses.le {b : Bounds} {n : Nat} (h : b.Encloses n) :
    b.low.isDefined = true ∧ b.high.isDefined = true ∧ b.low.le (Fraction.ofNat n) = true ∧
      (Fraction.ofNat n).le b.high = true := by
  obtain ⟨lo, hi, rfl, hlo, hhi⟩ := h
  refine ⟨rfl, rfl, Fraction.le_eq_true_iff.mpr ⟨rfl, rfl, ?_⟩,
    Fraction.le_eq_true_iff.mpr ⟨rfl, rfl, ?_⟩⟩
  · show (lo : Int) * 1 ≤ n * 1
    omega
  · show (n : Int) * 1 ≤ hi * 1
    omega

end PixelConv
