import PixelConv.Proofs.FastPath
import PixelConv.Proofs.Knowledge

/-!
# Narrower shapes

Simplification may load fewer planes than a program reads, and a single component needs no
interleaving. Either way a shape is exchanged for one that has the first components of it, each at
the very same place in memory (`Shape.Narrows`); what a view holds of the one it holds of the other.
`Shape.Supplies` says which elements a source may have: those of its shape, within the bit depths
that are given for its planes.
-/

namespace PixelConv

namespace Shape

/-! ## 1. Fewer components at the same places -/

/-- `s` has the first components of `t`, each where `t` has it. -/
structure Narrows (s t : Shape) : Prop where
  elem : s.elem = t.elem
  frac : s.layout.frac = t.layout.frac
  count_pos : 0 < s.layout.count
  count_le : s.layout.count ≤ t.layout.count
  interleaved : t.layout.packed = true → s.layout.count = t.layout.count
  packed : s.layout.packed = t.layout.packed ∨ s.layout.count = 1

namespace Narrows

variable {s t u : Shape}

theorem refl (h : 0 < t.layout.count) : t.Narrows t :=
  ⟨rfl, rfl, h, Nat.le_refl _, fun _ => rfl, .inl rfl⟩

theorem trans (h : s.Narrows t) (h' : t.Narrows u) : s.Narrows u := by
  have hpos := h.count_pos
  have hle := h.count_le
  refine ⟨h.elem.trans h'.elem, h.frac.trans h'.frac, hpos, Nat.le_trans hle h'.count_le,
    fun hu => ?_, ?_⟩
  · have hcount := h'.interleaved hu
    rcases h'.packed with hp | hone
    · rw [h.interleaved (hp.trans hu), hcount]
    · omega
  · rcases h'.packed with hp | hone
    · rw [← hp]
      exact h.packed
    · exact .inr (by omega)

/-- Elements per pixel in each plane. -/
theorem perPlane_eq (h : s.Narrows t) : s.layout.perPlane = t.layout.perPlane := by
  unfold Layout.perPlane
  have hcount := h.interleaved
  rcases h.packed with hp | hone
  · rw [hp]
    split
    · exact hcount ‹_›
    · rfl
  · rw [hone, ite_self]
    split
    · rw [← hcount ‹_›, hone]
    · rfl

theorem bytesPerPlane_eq (h : s.Narrows t) (n : Nat) : s.bytesPerPlane n = t.bytesPerPlane n := by
  rw [bytesPerPlane, bytesPerPlane, Layout.bytesPerPlane, Layout.bytesPerPlane, h.perPlane_eq,
    h.elem, h.frac]

theorem planes_le (h : s.Narrows t) : s.layout.planes ≤ t.layout.planes := by
  have hpos := h.count_pos
  have hle := h.count_le
  unfold Layout.planes
  rcases h.packed with hp | hone
  · rw [hp]
    split
    · exact Nat.le_refl _
    · exact hle
  · rw [hone, ite_self]
    split <;> omega

theorem values_eq (h : s.Narrows t) : s.values = t.values := by
  rw [values, values, h.elem, h.frac]

theorem wellFormed (h : s.Narrows t) (ht : t.layout.wellFormed = true) :
    s.layout.wellFormed = true := by
  have hpos := h.count_pos
  have hle := h.count_le
  have hfrac := h.frac
  rw [Layout.wellFormed_iff] at ht ⊢
  omega

theorem regular (h : s.Narrows t) (ht : t.Regular) : s.Regular := by
  refine ⟨h.wellFormed ht.wellFormed, ?_, fun hf => ?_⟩
  · rw [h.frac]
    exact ht.frac_le
  · rw [h.elem]
    exact ht.bytes (by rw [← h.frac]; exact hf)

/-! ### Places -/

variable {c : Fin 4}

theorem planeOf_eq (h : s.Narrows t) (hc : c.val < s.layout.count) : s.planeOf c = t.planeOf c := by
  unfold planeOf
  rcases h.packed with hp | hone
  · rw [hp]
  · have hzero : c = 0 := Fin.ext (by omega)
    rw [hzero, ite_self, ite_self]

theorem startOf_eq (h : s.Narrows t) (hc : c.val < s.layout.count) (x : Nat) :
    s.startOf x c = t.startOf x c := by
  have hcount := h.interleaved
  unfold startOf
  rw [h.elem]
  rcases h.packed with hp | hone
  · rw [hp]
    split
    · rw [hcount ‹_›]
    · rfl
  · have hzero : c.val = 0 := by omega
    rw [hone, hzero, Nat.zero_mul, Nat.add_zero, Nat.mul_one, ite_self]
    split
    · rw [← hcount ‹_›, hone, Nat.mul_one, Nat.add_zero]
    · rfl

/-- **The components that both have lie at the same places.** -/
theorem element_eq (h : s.Narrows t) (hc : c.val < s.layout.count) (planes : Quad Bytes)
    (x : Nat) : s.element planes x c = t.element planes x c := by
  unfold element
  rw [h.frac, h.planeOf_eq hc, h.startOf_eq hc, h.elem]

theorem pixel_eq (h : s.Narrows t) (hc : c.val < s.layout.count) (planes : Quad Bytes) (x : Nat) :
    (s.pixel planes x) c = (t.pixel planes x) c := by
  have hle := h.count_le
  rw [pixel, pixel, Quad.get_ofFn, Quad.get_ofFn, if_pos hc, if_pos (by omega),
    h.element_eq hc]

theorem holdsRow (h : s.Narrows t) {v : View} {width r : Nat} (hv : v.HoldsRow t width r) :
    v.HoldsRow s width r := by
  intro p hp
  rw [h.bytesPerPlane_eq]
  exact hv p (Nat.lt_of_lt_of_le hp h.planes_le)

end Narrows

/-! ## 2. Sources -/

/-- The elements use no more bits than the depths of their planes allow, where every component has a
plane of its own. -/
def WithinDepths (s : Shape) (depths : Option Depths) (src : Quad Nat) : Prop :=
  ∀ d, depths = some d → s.layout.planes = s.layout.count →
    ∀ i : Fin 4, i.val < s.layout.count → 0 < d i → src i < 2 ^ d i

/-- The numbers are elements of the shape, within the depths of its planes. -/
structure Supplies (s : Shape) (depths : Option Depths) (src : Quad Nat) : Prop where
  range : ∀ i : Fin 4, i.val < s.layout.count → src i < s.values
  within : s.WithinDepths depths src

theorem supplies_pixel {s : Shape} {depths : Option Depths} {planes : Quad Bytes} {x : Nat}
    (h : s.WithinDepths depths ((s.pixel planes x).map UInt32.toNat)) :
    s.Supplies depths ((s.pixel planes x).map UInt32.toNat) := by
  refine ⟨fun i hi => ?_, h⟩
  have hholds := s.holds_pixel planes x i
  rw [if_pos hi] at hholds
  rw [Quad.get_map]
  exact hholds

/-- Zero is an element of every shape and within every depth. -/
theorem supplies_zero (s : Shape) (depths : Option Depths) :
    s.Supplies depths (Quad.const 0) := by
  refine ⟨fun i _ => ?_, fun d _ _ i _ _ => ?_⟩
  · rw [Quad.get_const]
    exact s.values_pos
  · rw [Quad.get_const]
    exact Nat.two_pow_pos _

/-- The values of an element are those that its bits can have. -/
theorem Regular.values_eq {s : Shape} (h : s.Regular) :
    s.values = 2 ^ (s.elem.bits / 2 ^ s.layout.frac) := by
  unfold values
  split
  · rw [h.bytes ‹_›]
    rfl
  · have hf : s.layout.frac = 0 := by omega
    rw [hf, Nat.pow_zero, Nat.div_one, Elem.two_pow_bits]

/-- **What a narrower read loads of a source** fits what the analysis takes for granted. -/
theorem Supplies.sourceFits {s t : Shape} {depths : Option Depths} {src : Quad Nat}
    (h : t.Supplies depths src) (ht : t.Regular) (hn : s.Narrows t) (info : Info) :
    SourceFits src depths ⟨s.elem, .read s.layout, info⟩ := by
  intro l hl i hi
  cases hl
  have hcount := hn.count_le
  have hsrc := h.range i (by omega)
  rw [← hn.values_eq] at hsrc
  have hs := hn.regular ht
  refine ⟨Nat.lt_of_lt_of_le hsrc hs.values_le, ?_⟩
  rw [hs.values_eq] at hsrc
  unfold Layout.usedBits
  cases depths with
  | none => exact hsrc
  | some d =>
    show src i < 2 ^ (if 0 < d i && !s.layout.packed then d i else _)
    split
    · rename_i hd
      simp only [Bool.and_eq_true, decide_eq_true_eq, Bool.not_eq_true'] at hd
      refine h.within d rfl ?_ i (by omega) hd.1
      unfold Layout.planes
      split
      · rcases hn.packed with hp | hone
        · rw [hd.2, ‹t.layout.packed = true›] at hp
          cases hp
        · rw [← hn.interleaved ‹_›, hone]
      · rfl
    · exact hsrc

end Shape

end PixelConv
