import PixelConv.Proofs.Elements
import PixelConv.Shuffle

/-!
# Byte traces

The components that a shuffle follows: all of them have the same number of places, and every place
that stems from the input lies within the bytes of one pixel (`Shuffle.Tracks`). A trace has a value
once the components of the source pixel are given (`ByteTrace.word`).
-/

namespace PixelConv

/-! ## 1. Values -/

/-- The byte that a source stands for in a pixel of elements of `size` bytes. -/
def ByteSource.value (size : Nat) (q : Pixel) : ByteSource → UInt8
  | input offset => Bytes.ofWord (q (Fin.ofNat 4 (offset / size))) (offset % size)
  | zero => 0
  | ones => 0xff
  | undefined => 0

/-- The word that the first `n` places of a trace make up. -/
def ByteTrace.word (t : ByteTrace) (n size : Nat) (q : Pixel) : UInt32 :=
  Bytes.word #[t.places.c0.value size q, t.places.c1.value size q, t.places.c2.value size q,
    t.places.c3.value size q] n 0

theorem ByteTrace.getD_word (t : ByteTrace) (size : Nat) (q : Pixel) (k : Fin 4) :
    (#[t.places.c0.value size q, t.places.c1.value size q, t.places.c2.value size q,
      t.places.c3.value size q] : Bytes).getD k.val 0 = (t.places k).value size q := by
  match k with
  | 0 | 1 | 2 | 3 => rfl

namespace Shuffle

/-! ## 2. Following keeps the places in order -/

/-- All components have `len` places, and each place that stems from the input lies below
`limit`. -/
structure Tracks (comps : Quad ByteTrace) (len limit : Nat) : Prop where
  len : ∀ c, (comps c).len = len
  below : ∀ c k offset, (comps c).places k = .input offset → offset < limit

theorem tracks_loaded (s : Shape) :
    Tracks (loaded s) s.elem.size (s.layout.count * s.elem.size) := by
  refine ⟨fun c => by simp only [loaded, Quad.get_ofFn], fun c k offset h => ?_⟩
  simp only [loaded, Quad.get_ofFn] at h
  split at h
  · rename_i hin
    simp only [Bool.and_eq_true, decide_eq_true_eq] at hin
    cases h
    have : (c.val + 1) * s.elem.size ≤ s.layout.count * s.elem.size :=
      Nat.mul_le_mul_right _ hin.1
    rw [Nat.add_mul, Nat.one_mul] at this
    omega
  · cases h

theorem fill?_ne_input {e : Elem} {q : Fraction} {b : ByteSource} (h : fill? e q = some b) :
    b = .zero ∨ b = .ones := by
  unfold fill? at h
  split at h
  · exact .inl (Option.some.inj h).symm
  · split at h
    · exact .inr (Option.some.inj h).symm
    · cases h

/-- An operation that is followed keeps the places in order. -/
theorem Tracks.follow {op : Op} {comps comps' : Quad ByteTrace} {len limit : Nat}
    (ht : Tracks comps len limit) (h : follow? op comps = some comps') :
    ∃ len', Tracks comps' len' limit := by
  unfold follow? at h
  split at h
  · rename_i s _
    cases h
    refine ⟨len, fun c => ?_, fun c k offset hp => ?_⟩
    · rw [Swizzle.get_apply]
      exact ht.len _
    · rw [Swizzle.get_apply] at hp
      exact ht.below _ k offset hp
  · cases h
    refine ⟨len, fun c => ?_, fun c k offset hp => ?_⟩
    · rw [Quad.get_map]
      exact ht.len c
    · simp only [Quad.get_map, ByteTrace.reversed, Quad.get_ofFn] at hp
      split at hp
      · exact ht.below c _ offset hp
      · exact ht.below c k offset hp
  · rename_i values _
    unfold cleared? at h
    split at h
    · cases h
      refine ⟨len, fun c => ?_, fun c k offset hp => ?_⟩
      · simp only [Quad.get_zipWith]
        split
        · exact ht.len c
        · exact ht.len c
      · simp only [Quad.get_zipWith] at hp
        split at hp
        · rename_i b hb
          simp only [Quad.get_const] at hp
          obtain ⟨q, -, hq⟩ := Option.bind_eq_some_iff.mp hb
          rcases fill?_ne_input hq with rfl | rfl <;> cases hp
        · exact ht.below c k offset hp
    · cases h
  · rename_i target expand _
    split at h
    · cases h
      refine ⟨target.size, fun c => ?_, fun c k offset hp => ?_⟩
      · rw [Quad.get_map]
        rfl
      · simp only [Quad.get_map, ByteTrace.replicated, Quad.get_ofFn] at hp
        split at hp
        · exact ht.below c _ offset hp
        · exact ht.below c k offset hp
    · cases h
  · cases h

theorem Tracks.follow_all {ops : List Op} {comps comps' : Quad ByteTrace} {len limit : Nat}
    (ht : Tracks comps len limit)
    (h : ops.foldlM (fun comps op => follow? op comps) comps = some comps') :
    ∃ len', Tracks comps' len' limit := by
  induction ops generalizing comps len with
  | nil =>
    cases h
    exact ⟨len, ht⟩
  | cons op ops ih =>
    rw [List.foldlM_cons] at h
    obtain ⟨mid, hmid, hrest⟩ := Option.bind_eq_some_iff.mp h
    obtain ⟨len', ht'⟩ := ht.follow hmid
    exact ih ht' hrest

/-! ## 3. What the solver finds -/

/-- Transfers of whole bytes to or from a single plane. -/
theorem chunk?_eq_some {s : Shape} {n : Nat} (h : chunk? s = some n) :
    s.layout.frac = 0 ∧ n = s.layout.count * s.elem.size ∧ s.layout.planes = 1 ∧
      ∀ c : Fin 4, c.val < s.layout.count →
        s.planeOf c = 0 ∧ ∀ x, s.startOf x c = x * n + c.val * s.elem.size := by
  unfold chunk? at h
  split at h
  · rename_i hcond
    simp only [Bool.and_eq_true, decide_eq_true_eq, Bool.or_eq_true, beq_iff_eq] at hcond
    obtain ⟨hf, hone⟩ := hcond
    cases h
    refine ⟨hf, rfl, ?_, fun c hc => ?_⟩
    · unfold Layout.planes
      rcases hone with hp | hcount
      · rw [if_pos hp]
      · split
        · rfl
        · exact hcount
    · unfold Shape.planeOf Shape.startOf
      rcases hone with hp | hcount
      · rw [if_pos hp]
        refine ⟨rfl, fun x => ?_⟩
        rw [if_pos hp, Nat.mul_comm s.elem.size]
      · have hzero : c = 0 := Fin.ext (by show c.val = 0; omega)
        subst hzero
        refine ⟨by split <;> rfl, fun x => ?_⟩
        rw [hcount, Nat.mul_one, Nat.one_mul]
        split
        · rfl
        · rw [show ((0 : Fin 4).val) = 0 from rfl, Nat.zero_mul, Nat.add_zero]
  · cases h

/-- The bytes of an output pixel. -/
def outputBytes (comps : Quad ByteTrace) (count : Nat) : List ByteSource :=
  (comps.toList.take count).flatMap ByteTrace.toList

theorem mem_outputBytes {comps : Quad ByteTrace} {count : Nat} {b : ByteSource} :
    b ∈ outputBytes comps count ↔
      ∃ c k : Fin 4, c.val < count ∧ k.val < (comps c).len ∧ (comps c).places k = b := by
  rw [outputBytes, List.mem_flatMap]
  constructor
  · rintro ⟨t, ht, hb⟩
    obtain ⟨c, hc, rfl⟩ := Quad.mem_take.mp ht
    obtain ⟨k, hk, hplace⟩ := Quad.mem_take.mp hb
    exact ⟨c, k, hc, hk, hplace⟩
  · rintro ⟨c, k, hc, hk, hplace⟩
    exact ⟨comps c, Quad.mem_take.mpr ⟨c, hc, rfl⟩, Quad.mem_take.mpr ⟨k, hk, hplace⟩⟩

/-- A solution: where the bytes of the output pixel come from, and how many pixels a lane has. -/
structure Solved (p : Program) (s : Shuffle) (r w : Shape) (comps : Quad ByteTrace) : Prop where
  source : p.source? = some r
  destination : p.destination? = some w
  followed : p.inner.foldlM (fun comps op => follow? op comps) (loaded r) = some comps
  readChunk : chunk? r = some (r.layout.count * r.elem.size)
  writeChunk : chunk? w = some (w.layout.count * w.elem.size)
  len : comps.c0.len = w.elem.size
  defined : ∀ b ∈ outputBytes comps w.layout.count, b ≠ .undefined
  pixels_pos : 0 < s.pixels
  cells : s.cells = laneCells (outputBytes comps w.layout.count) s.pixels
    (r.layout.count * r.elem.size) (w.layout.count * w.elem.size)
  read : s.read = s.pixels * (r.layout.count * r.elem.size)
  write : s.write = s.pixels * (w.layout.count * w.elem.size)
  read_le : s.read ≤ laneBytes
  write_le : s.write ≤ laneBytes

/-- **What the solver promises**, for lanes of any size. -/
theorem solve_eq_some {p : Program} {lane : Nat} {s : Shuffle} (h : solve p lane = .ok (some s)) :
    ∃ r w comps, Solved p s r w comps := by
  unfold solve at h
  split at h
  · rename_i r w n hr hw hlen
    split at h
    · rename_i rc wc comps hrc hwc hcomps
      obtain ⟨-, rfl, -⟩ := chunk?_eq_some hrc
      obtain ⟨-, rfl, -⟩ := chunk?_eq_some hwc
      split at h
      · cases h
      rename_i hsize
      split at h
      · cases h
      rename_i hmax
      simp only at h
      split at h
      · cases h
      rename_i hok
      simp only [Bool.or_eq_true, decide_eq_true_eq, not_or] at hok
      cases h
      have hmul := Nat.le_trans (Nat.div_mul_le_self (min lane laneBytes)
        (max (r.layout.count * r.elem.size) (w.layout.count * w.elem.size))) (Nat.min_le_right _ _)
      refine ⟨r, w, comps, hr, hw, hcomps, hrc, hwc, (Decidable.not_not.mp hsize).symm, ?_,
        Nat.pos_of_ne_zero hok.1, rfl, rfl, rfl, ?_, ?_⟩
      · rintro b hb rfl
        exact hok.2 (List.contains_iff_mem.mpr hb)
      · exact Nat.le_trans (Nat.mul_le_mul_left _ (Nat.le_max_left _ _)) hmul
      · exact Nat.le_trans (Nat.mul_le_mul_left _ (Nat.le_max_right _ _)) hmul
    · cases h
  · cases h

end Shuffle

end PixelConv
