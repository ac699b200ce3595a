import PixelConv.Proofs.Fusion
import PixelConv.Proofs.Replacement

/-!
# Rules for operations on each component alone

Byte swaps, shifts, conversions, scales and clamps: what the rules for them put in place of these
operations is faithful, by the arithmetic of the numbers that the components hold.
-/

namespace PixelConv

namespace Place

variable {src : Quad Nat} {v : Content} {s : Site} {next : Op} {rest : List Op}

/-! ## 1. Byte order, shifts and conversions -/

theorem swapBytesNoop (h : Place s v) (hk : s.op.kind = .swapBytes) (hs : s.op.elem.size = 1) :
    Faithful src v (s.op :: s.after) s.after := by
  refine h.drop (by rw [Op.verb, hk]; rfl) fun i n _ _ hn => ?_
  rw [Op.onComponent, hk]
  exact Elem.reversed_of_size hs hn

theorem swapBytesPair (h : Place s v) (hk : s.op.kind = .swapBytes) (ha : s.after = next :: rest)
    (he : next.elem = s.op.target) (hn : next.kind = .swapBytes) :
    Faithful src v (s.op :: s.after) rest := by
  have htarget : s.op.target = s.op.elem := by rw [Op.target, hk]
  rw [ha]
  refine Faithful.of_numbers [s.op, next] [] rest (h.exact_rest ha) ?_
    (fun _ hop => absurd hop List.not_mem_nil) (fun i n _ hv => ?_) fun _ ht => ht
  · intro op hop
    rcases List.mem_cons.mp hop with rfl | hop
    · rw [Op.verb, hk]
      rfl
    · rw [List.mem_singleton.mp hop, Op.verb, hn]
      rfl
  · show n = next.onComponent i (s.op.onComponent i n)
    rw [Op.onComponent, hn, Op.onComponent, hk, he, htarget]
    exact (Elem.reversed_reversed (h.range i n hv)).symm

theorem shiftNoop (h : Place s v) (hk : s.op.kind = .shiftLeft 0 ∨ s.op.kind = .shiftRight 0) :
    Faithful src v (s.op :: s.after) s.after := by
  rcases hk with hk | hk
  · refine h.drop (by rw [Op.verb, hk]; rfl) fun i n _ _ hn => ?_
    rw [Op.onComponent, hk]
    show n * 2 ^ 0 % 2 ^ s.op.elem.bits = n
    rw [Nat.pow_zero, Nat.mul_one, Nat.mod_eq_of_lt hn]
  · refine h.drop (by rw [Op.verb, hk]; rfl) fun i n _ _ _ => ?_
    rw [Op.onComponent, hk]
    show n / 2 ^ 0 = n
    rw [Nat.pow_zero, Nat.div_one]

/-- The amounts of two shifts within the limits add up to less than the sum counts to. -/
theorem shift_sum (h : Place s v) {a c : Nat} (ha : s.after = next :: rest)
    (he : next.elem = s.op.target)
    (hk : s.op.kind = .shiftLeft a ∧ next.kind = .shiftLeft c ∨
      s.op.kind = .shiftRight a ∧ next.kind = .shiftRight c) :
    next.elem = s.op.elem ∧ min 255 (a + c) = a + c := by
  have hlim := h.limits s.op List.mem_cons_self
  have hlim' := h.limits_next ha
  have hbits := s.op.elem.bits_le
  rcases hk with ⟨hk, hn⟩ | ⟨hk, hn⟩
  · have htarget : s.op.target = s.op.elem := by rw [Op.target, hk]
    rw [htarget] at he
    rw [Op.InLimits, hk] at hlim
    rw [Op.InLimits, hn, he] at hlim'
    exact ⟨he, by omega⟩
  · have htarget : s.op.target = s.op.elem := by rw [Op.target, hk]
    rw [htarget] at he
    rw [Op.InLimits, hk] at hlim
    rw [Op.InLimits, hn, he] at hlim'
    exact ⟨he, by omega⟩

theorem shiftPairLeft (h : Place s v) {a c : Nat} (hk : s.op.kind = .shiftLeft a)
    (ha : s.after = next :: rest) (he : next.elem = s.op.target) (hn : next.kind = .shiftLeft c) :
    Faithful src v (s.op :: s.after) (s.become (.shiftLeft (min 255 (a + c))) rest) := by
  obtain ⟨he, hsum⟩ := h.shift_sum ha he (.inl ⟨hk, hn⟩)
  refine h.fuse ha (by rw [Op.verb, hk]; rfl) (by rw [Op.verb, hn]; rfl) rfl
    (fun i n _ _ _ => ?_) fun _ i n _ _ => Op.fitsAt_of_ne (fun f hf => Kind.noConfusion hf) n
  simp only [Op.onComponent, hk, hn, he, hsum]
  exact (shiftLeft_shiftLeft n a c _).symm

theorem shiftPairRight (h : Place s v) {a c : Nat} (hk : s.op.kind = .shiftRight a)
    (ha : s.after = next :: rest) (he : next.elem = s.op.target) (hn : next.kind = .shiftRight c) :
    Faithful src v (s.op :: s.after) (s.become (.shiftRight (min 255 (a + c))) rest) := by
  obtain ⟨-, hsum⟩ := h.shift_sum ha he (.inr ⟨hk, hn⟩)
  refine h.fuse ha (by rw [Op.verb, hk]; rfl) (by rw [Op.verb, hn]; rfl) rfl
    (fun i n _ _ _ => ?_) fun _ i n _ _ => Op.fitsAt_of_ne (fun f hf => Kind.noConfusion hf) n
  simp only [Op.onComponent, hk, hn, hsum]
  exact (shiftRight_shiftRight n a c).symm

theorem convertNoop (h : Place s v) {expand : Bool} (hk : s.op.kind = .convert s.op.elem expand) :
    Faithful src v (s.op :: s.after) s.after := by
  refine h.drop (by rw [Op.verb, hk]; rfl) fun i n _ _ hn => ?_
  rw [Op.onComponent, hk]
  show min (n * s.op.elem.spread s.op.elem expand) (2 ^ s.op.elem.bits - 1) = n
  rw [Elem.spread_self, Nat.mul_one]
  omega

/-- A conversion at a place is one between integers. -/
theorem isInt_of_convert {op : Op} (hop : op.isExact = true) {target : Elem} {expand : Bool}
    (hk : op.kind = .convert target expand) : op.elem.isInt = true ∧ target.isInt = true := by
  rw [Op.isExact, hk] at hop
  exact (Bool.and_eq_true _ _).mp hop

theorem convertPair (h : Place s v) {mid target : Elem} {expand : Bool}
    (hk : s.op.kind = .convert mid expand) (ha : s.after = next :: rest) (he : next.elem = mid)
    (hn : next.kind = .convert target expand)
    (hf : Elem.fusable expand s.op.elem mid target = true) :
    Faithful src v (s.op :: s.after) (s.become (.convert target expand) rest) := by
  obtain ⟨hs, hm⟩ := isInt_of_convert (h.exact s.op List.mem_cons_self) hk
  obtain ⟨-, ht⟩ := isInt_of_convert (h.exact_next ha) hn
  refine h.fuse ha (by rw [Op.verb, hk]; rfl) (by rw [Op.verb, hn]; rfl) rfl
    (fun i n _ _ hlt => ?_) fun _ i n _ _ => Op.fitsAt_of_ne (fun f hf => Kind.noConfusion hf) n
  simp only [Op.onComponent, hk, hn, he]
  exact (Elem.convert_convert hs hm ht hf hlt).symm

theorem convertExpand (h : Place s v) {target : Elem} (hk : s.op.kind = .convert target false)
    (ha : s.after = next :: rest) (he : next.elem = target)
    (hn : next.kind = .scale (s.op.elem.expansion target))
    (hf : s.op.elem.expansion target ≠ Fraction.one) :
    Faithful src v (s.op :: s.after) (s.become (.convert target true) rest) := by
  obtain ⟨hs, ht⟩ := isInt_of_convert (h.exact s.op List.mem_cons_self) hk
  have hlt := Elem.size_lt_of_expansion_ne_one hs ht hf
  refine h.fuse ha (by rw [Op.verb, hk]; rfl) (by rw [Op.verb, hn]; rfl) rfl
    (fun i n _ _ hlt => ?_) fun _ i n _ _ => Op.fitsAt_of_ne (fun f hf => Kind.noConfusion hf) n
  simp only [Op.onComponent, hk, hn, he]
  rw [Fraction.expansion_eq_ofNat hs ht]
  show _ = _ * s.op.elem.spread target true / 1 % 2 ^ target.bits
  rw [Nat.div_one]
  exact (Elem.convert_scale hs ht (by omega) hlt).symm

/-! ## 2. Scales and clamps -/

/-- A scale at a place is one of integers, by a factor that is not negative. -/
theorem of_scale {op : Op} (hop : op.isExact = true) (hlim : op.InLimits) {f : Fraction}
    (hk : op.kind = .scale f) : op.elem.isInt = true ∧ op.target = op.elem ∧ 0 ≤ f.num ∧ 0 < f.den := by
  rw [Op.isExact, hk] at hop
  rw [Op.InLimits, hk] at hlim
  exact ⟨hop, by rw [Op.target, hk], hlim.1, hlim.2.2.1⟩

theorem scaleNoop (h : Place s v) (hk : s.op.kind = .scale Fraction.one) :
    Faithful src v (s.op :: s.after) s.after := by
  refine h.drop (by rw [Op.verb, hk]; rfl) fun i n _ _ hn => ?_
  rw [Op.onComponent, hk]
  show n * 1 / 1 % 2 ^ s.op.elem.bits = n
  rw [Nat.mul_one, Nat.div_one, Nat.mod_eq_of_lt hn]

theorem scalePair (h : Place s v) {factor later : Fraction} (hk : s.op.kind = .scale factor)
    (ha : s.after = next :: rest) (he : next.elem = s.op.target) (hn : next.kind = .scale later)
    (hf : s.op.elem.isInt = false ∨ factor.isInteger = true ∧ later.isInteger = true ∧
      0 ≤ (factor * later).num ∧ (factor * later).num < 2 ^ (32 : Nat)) :
    Faithful src v (s.op :: s.after) (s.become (.scale (factor * later)) rest) := by
  obtain ⟨hint, htarget, hnum, -⟩ :=
    of_scale (h.exact s.op List.mem_cons_self) (h.limits s.op List.mem_cons_self) hk
  obtain ⟨-, -, hnum', -⟩ := of_scale (h.exact_next ha) (h.limits_next ha) hn
  rcases hf with hf | ⟨hf, hf', -, hlt⟩
  · rw [hint] at hf
    cases hf
  rw [htarget] at he
  rw [Fraction.eq_ofNat_of_isInteger hf hnum, Fraction.eq_ofNat_of_isInteger hf' hnum'] at hlt ⊢
  rw [Fraction.eq_ofNat_of_isInteger hf hnum] at hk
  rw [Fraction.eq_ofNat_of_isInteger hf' hnum'] at hn
  generalize factor.num.natAbs = a at hk hlt
  generalize later.num.natAbs = c at hn hlt
  rw [(Fraction.mul_eq_ofNat hlt).1]
  refine h.fuse ha (by rw [Op.verb, hk]; rfl) (by rw [Op.verb, hn]; rfl) rfl
    (fun i n _ _ _ => ?_) fun ht i n hi hv hu f hfk => ?_
  · simp only [Op.onComponent, hk, hn, he]
    show n * (a * c) / 1 % _ = n * a / 1 % _ * c / 1 % _
    rw [Nat.div_one, Nat.div_one, Nat.div_one, Nat.mod_mul_mod, Nat.mul_assoc]
  · -- neither of the two scales overflows, so the product does not
    cases hfk
    have hu : s.op.elem = .u32 := hu
    have hneeds : needed (next :: rest) i = true := by
      rw [needed_cons, Op.needs_componentwise (by rw [Op.verb, hn]; rfl)]
      exact hi
    have hfirst : n * a < 2 ^ 32 := ht.1 i n hneeds hv hu _ hk
    have hact : (s.op.act src v) i = some (n * a) := by
      rw [Op.act_componentwise (by rw [Op.verb, hk]; rfl), hv, Option.map_some]
      simp only [Op.onComponent, hk, hu]
      show some (n * a / 1 % 2 ^ 32) = _
      rw [Nat.div_one, Nat.mod_eq_of_lt hfirst]
    have hsecond : n * a * c < 2 ^ 32 := ht.2.1 i (n * a) hi hact (he.trans hu) _ hn
    show n * (a * c) < 2 ^ 32
    rw [← Nat.mul_assoc]
    exact hsecond

/-- What the range test of a scale says about a component that is read. -/
theorem mul_lt_of_staysInRange (h : Place s v) {a : Nat} (hk : s.op.kind = .scale (.ofNat a))
    (hint : s.op.elem.isInt = true) (hr : s.staysInRange (.ofNat a) = true) {i : Fin 4} {n : Nat}
    (hi : needed s.after i = true) (hv : v i = some n) : n * a < 2 ^ s.op.elem.bits := by
  have hcw : s.op.verb.isComponentwise = true := by
    rw [Op.verb, hk]
    rfl
  obtain ⟨lo, hi', hb, -, hhi⟩ := h.bounds (by rw [Op.verb, hk]; rfl) i n
    (by rw [needed_cons, Op.needs_componentwise hcw]; exact hi) hv
  unfold Site.staysInRange at hr
  rw [Elem.max?_of_isInt hint] at hr
  have hri := Quad.all_indices.mp hr i
  simp only [h.surveyed.used_of_needed hi, Bool.false_or, hb, Bool.and_eq_true] at hri
  obtain ⟨-, hle⟩ := hri
  rw [Fraction.ofNat_mul_ofNat] at hle
  obtain ⟨-, -, hle⟩ := Fraction.le_eq_true_iff.mp hle
  have hle : ((min (hi' * a) Fraction.limit : Nat) : Int) * (1 : Nat) ≤
      ((2 ^ s.op.elem.bits - 1 : Nat) : Int) * (1 : Nat) := hle
  have hlimit : 2 ^ s.op.elem.bits ≤ Fraction.limit :=
    Nat.le_trans s.op.elem.two_pow_bits_le (by decide)
  have hpos : 0 < 2 ^ s.op.elem.bits := Nat.two_pow_pos _
  have hmul : n * a ≤ hi' * a := Nat.mul_le_mul_right a hhi
  omega

theorem scaleAfterConvert (h : Place s v) {factor : Fraction} {target : Elem} {expand : Bool}
    (hk : s.op.kind = .scale factor) (ha : s.after = next :: rest) (he : next.elem = s.op.target)
    (hn : next.kind = .convert target expand) (ht : target.isInt = true)
    (hsize : s.op.elem.size ≤ target.size) (hf : factor.isInteger = true)
    (hr : s.staysInRange factor = true) :
    Faithful src v (s.op :: s.after) (next :: Op.ofKind target (.scale factor) :: rest) := by
  obtain ⟨hint, htarget, hnum, -⟩ :=
    of_scale (h.exact s.op List.mem_cons_self) (h.limits s.op List.mem_cons_self) hk
  rw [Fraction.eq_ofNat_of_isInteger hf hnum] at hk hr ⊢
  generalize factor.num.natAbs = a at hk hr
  rw [htarget] at he
  have hcw' : next.verb.isComponentwise = true := by
    rw [Op.verb, hn]
    rfl
  have hneeds : ∀ i, needed rest i = true → needed s.after i = true := fun i hi => by
    rw [ha, needed_cons, Op.needs_componentwise hcw']
    exact hi
  have hnum : ∀ i n, needed rest i = true → v i = some n →
      min (n * s.op.elem.spread target expand) (2 ^ target.bits - 1) * a < 2 ^ target.bits ∧
      min (n * s.op.elem.spread target expand) (2 ^ target.bits - 1) * a =
        min (n * a % 2 ^ s.op.elem.bits * s.op.elem.spread target expand) (2 ^ target.bits - 1) :=
    fun i n hi hv => Elem.scale_convert hint ht hsize (h.range i n hv)
      (h.mul_lt_of_staysInRange hk hint hr (hneeds i hi) hv)
  rw [ha]
  refine Faithful.of_numbers [s.op, next]
    [next, Op.ofKind target (.scale (.ofNat a))] rest (h.exact_rest ha) ?_ ?_
    (fun i n hi hv => ?_) fun _ hrest => ⟨?_, ?_, hrest⟩
  · intro op hop
    rcases List.mem_cons.mp hop with rfl | hop
    · rw [Op.verb, hk]
      rfl
    · rw [List.mem_singleton.mp hop]
      exact hcw'
  · intro op hop
    rcases List.mem_cons.mp hop with rfl | hop
    · exact hcw'
    · rw [List.mem_singleton.mp hop]
      rfl
  · obtain ⟨hlt, heq⟩ := hnum i n hi hv
    show (Op.ofKind target (.scale (.ofNat a))).onComponent i (next.onComponent i n) =
      next.onComponent i (s.op.onComponent i n)
    simp only [Op.onComponent, hk, hn, he]
    show min _ _ * a / 1 % 2 ^ target.bits = min (n * a / 1 % _ * _) _
    rw [Nat.div_one, Nat.div_one, Nat.mod_eq_of_lt hlt, heq]
  · exact fun i n _ _ => Op.fitsAt_of_ne (fun f hf => by rw [hn] at hf; cases hf) n
  · intro i n hi hact hu f hfk
    cases hfk
    have hu : target = .u32 := hu
    rw [Op.act_componentwise hcw'] at hact
    obtain ⟨m, hv, rfl⟩ := Option.map_eq_some_iff.mp hact
    have hlt := (hnum i m hi hv).1
    simp only [Op.onComponent, hn, he]
    rw [hu] at hlt ⊢
    exact hlt

theorem scaleShiftLeft (h : Place s v) {factor : Fraction} {k : Int}
    (hk : s.op.kind = .scale factor) (hp : factor.powerOfTwo? = some k) (hpos : 0 < k) :
    Faithful src v (s.op :: s.after) (s.become (.shiftLeft k.natAbs) s.after) := by
  refine h.become (by rw [Op.verb, hk]; rfl) rfl (fun f hf => Kind.noConfusion hf) fun i n _ _ => ?_
  rcases Fraction.powerOfTwo?_eq_some hp with ⟨-, hden, hnum⟩ | ⟨hneg, -⟩
  · have habs : factor.num.natAbs = 2 ^ k.natAbs := by
      rw [hnum, Int.natAbs_pow]
      rfl
    show n * 2 ^ k.natAbs % 2 ^ s.op.elem.bits = s.op.onComponent i n
    simp only [Op.onComponent, hk, hden, habs, Nat.max_self, Nat.div_one]
  · exact absurd hpos hneg

theorem scaleShiftRight (h : Place s v) {factor : Fraction} {k : Int}
    (hk : s.op.kind = .scale factor) (hp : factor.powerOfTwo? = some k) (hneg : ¬0 < k) :
    Faithful src v (s.op :: s.after) (s.become (.shiftRight k.natAbs) s.after) := by
  refine h.become (by rw [Op.verb, hk]; rfl) rfl (fun f hf => Kind.noConfusion hf) fun i n _ hn => ?_
  rcases Fraction.powerOfTwo?_eq_some hp with ⟨hpos, -⟩ | ⟨-, hnum, hden⟩
  · exact absurd hpos hneg
  · have hlt : n / 2 ^ k.natAbs < 2 ^ s.op.elem.bits :=
      Nat.lt_of_le_of_lt (Nat.div_le_self _ _) hn
    show n / 2 ^ k.natAbs = s.op.onComponent i n
    simp only [Op.onComponent, hk, hden, hnum, Int.natAbs_one, Nat.mul_one]
    rw [Nat.max_eq_left (Nat.two_pow_pos _), Nat.mod_eq_of_lt hlt]

/-- A component that is read and within the bound of a clamp. -/
theorem clampAbove (h : Place s v) {bounds : Constants} (hk : s.op.kind = .atMost bounds)
    (hb : ∀ i, s.withinBound true bounds i = true) :
    Faithful src v (s.op :: s.after) s.after := by
  have hcw : s.op.verb.isComponentwise = true := by
    rw [Op.verb, hk]
    rfl
  have hint := h.exact s.op List.mem_cons_self
  rw [Op.isExact, hk] at hint
  refine h.drop hcw fun i n hi hv hn => ?_
  obtain ⟨lo, top, hbounds, -, hle⟩ := h.bounds (by rw [Op.verb, hk]; rfl) i n
    (by rw [needed_cons, Op.needs_componentwise hcw]; exact hi) hv
  have hbi := hb i
  simp only [Site.withinBound, h.surveyed.used_of_needed hi, Bool.false_or, hbounds, if_true] at hbi
  simp only [Op.onComponent, hk]
  cases hbound : bounds i with
  | none => rfl
  | some b =>
    rw [hbound] at hbi
    exact Elem.min_effectiveBound hint hbi hle hn

theorem clampBelow (h : Place s v) {bounds : Constants} (hk : s.op.kind = .atLeast bounds)
    (hb : ∀ i, s.withinBound false bounds i = true) :
    Faithful src v (s.op :: s.after) s.after := by
  have hcw : s.op.verb.isComponentwise = true := by
    rw [Op.verb, hk]
    rfl
  have hint := h.exact s.op List.mem_cons_self
  rw [Op.isExact, hk] at hint
  refine h.drop hcw fun i n hi hv _ => ?_
  obtain ⟨lo, top, hbounds, hle, -⟩ := h.bounds (by rw [Op.verb, hk]; rfl) i n
    (by rw [needed_cons, Op.needs_componentwise hcw]; exact hi) hv
  have hbi := hb i
  simp only [Site.withinBound, h.surveyed.used_of_needed hi, Bool.false_or, hbounds, Bool.false_eq_true,
    if_false] at hbi
  simp only [Op.onComponent, hk]
  cases hbound : bounds i with
  | none => rfl
  | some b =>
    rw [hbound] at hbi
    exact Elem.max_effectiveBound hint hbi hle

end Place

end PixelConv
