import PixelConv.Proofs.DerivedBounds

/-!
# Runs on words and on numbers

A program may load floats and go on with integers. `Op.Runs` is one operation on one pixel: integers
are computed by the general kernels, floats as exact numbers. `Reflects` says that the analysis is
right about the registers, with bounds of which one end may be unknown. Main statement: every
operation whose bounds are derived soundly keeps it (`Reflects.step`), and so does a run
(`reflects_runAll`).
-/

namespace PixelConv

/-! ## 1. Runs -/

/-- The layout as the kernels know it: at most eight elements share a byte. -/
def Layout.loaded (l : Layout) : Layout := { l with frac := min l.frac 3 }

/-- **One operation of a run** for the pixel in column `x` and row `y`, on the numbers that its
registers stand for. Undefined numbers are floats that are none. Floats are exact numbers here: that
each operation rounds them to single precision is left out. -/
inductive Op.Runs (depths : Option Depths) (x y : Nat) (op : Op) : Value → Value → Prop
  /-- Integers within the depth of the source. -/
  | loadWords {l : Layout} {q q' : Pixel} (hk : op.kind = .read l) (hint : op.elem.isInt = true)
      (hloaded : ∀ c : Fin 4, c.val < l.count → (q' c).toNat < 2 ^ op.elem.bits ∧
        (q' c).toNat < 2 ^ l.loaded.usedBits op.elem depths c)
      (hkept : ∀ c : Fin 4, l.count ≤ c.val → q' c = q c) : Runs depths x y op q.values q'.values
  /-- Any floats. -/
  | loadNumbers {l : Layout} {v v' : Value} (hk : op.kind = .read l) (hfloat : op.elem.isInt = false)
      (hkept : ∀ c : Fin 4, l.count ≤ c.val → v' c = v c) : Runs depths x y op v v'
  | store {l : Layout} {v : Value} (hk : op.kind = .write l) : Runs depths x y op v v
  /-- Integers, by the general kernel. -/
  | words {setup : Setup} {g : RegOp} {q : Pixel} (hint : op.elem.isInt = true)
      (htarget : op.target.isInt = true) (hs : op.generic? = some setup)
      (hg : setup op = .ok (.compute g)) : Runs depths x y op q.values (g.apply x y q).values
  | numbers {v : Value} (hfloat : op.elem.isInt = false) (htarget : op.target.isInt = false)
      (hverb : op.verb.onFloats = true) : Runs depths x y op v (op.eval v)
  /-- The entry of the tile at the pixel. -/
  | dither {d : Dither} {t : Fraction} {v : Value} (hk : op.kind = .dither d)
      (hfloat : op.elem.isInt = false)
      (ht : d.entries[y % d.size * d.size + x % d.size]? = some t) :
      Runs depths x y op v (v.map (· + t))
  /-- Reversing the bytes of floats may give any others. -/
  | scramble {v v' : Value} (hk : op.kind = .swapBytes) (hfloat : op.elem.isInt = false) :
      Runs depths x y op v v'
  | toNumbers {q : Pixel} (hint : op.elem.isInt = true) (htarget : op.target.isInt = false) :
      Runs depths x y op q.values (op.eval q.values)
  /-- Floats that are none may become any integer. -/
  | toWords {v : Value} {q : Pixel} (hfloat : op.elem.isInt = false)
      (htarget : op.target.isInt = true)
      (hexact : ∀ c, ((op.eval v) c).isDefined = true → q.values c = (op.eval v) c)
      (hrange : ∀ c, (q c).toNat < 2 ^ op.target.bits) : Runs depths x y op v q.values

/-- Operations one after the other. -/
def RunsAll (depths : Option Depths) (x y : Nat) : List Op → Value → Value → Prop
  | [], v, v' => v = v'
  | op :: ops, v, v' => ∃ u, op.Runs depths x y v u ∧ RunsAll depths x y ops u v'

/-! ## 2. What the analysis says about the registers -/

/-- The analysis is right about the registers: defined integers are in the range of the element, and
all values lie within the ends that are known. -/
structure Reflects (e : Elem) (info : Info) (v : Value) : Prop where
  range : e.isInt = true → ∀ c, (info.known c).garbage = false →
    ∃ n, n < 2 ^ e.bits ∧ v c = Fraction.ofNat n
  bounds : ∀ c, (info.bounds c).Admits (v c)

/-- Before the first operation nothing is defined. -/
theorem reflects_start (e : Elem) (v : Value) : Reflects e Info.start v where
  range _ c h := by
    rw [Info.known_start] at h
    cases h
  bounds c := by
    rw [Info.bounds_start]
    exact .unknown _

/-- Defined words are those of the element. -/
theorem Reflects.word_lt {e : Elem} {info : Info} {q : Pixel} (h : Reflects e info q.values)
    (hint : e.isInt = true) {c : Fin 4} (hc : (info.known c).garbage = false) :
    (q c).toNat < 2 ^ e.bits := by
  obtain ⟨n, hn, hvalue⟩ := h.range hint c hc
  rw [q.get_values] at hvalue
  have hnat : ((q c).toNat : Int) = n := congrArg Fraction.num hvalue
  omega

/-- The registers after an operation: it is enough to look at the components that are defined. -/
theorem Reflects.of_defined {op : Op} {prev : Info} {depths : Option Depths} {v : Value}
    (h : ∀ c, ((op.knownAfter prev) c).garbage = false →
      (op.target.isInt = true → ∃ n, n < 2 ^ op.target.bits ∧ v c = Fraction.ofNat n) ∧
      ((op.boundsAfter depths prev) c).Admits (v c)) :
    Reflects op.target (op.infoAfter depths prev) v where
  range hint c hc := (h c hc).1 hint
  bounds c := by
    simp only [Op.infoAfter, Quad.get_ofFn]
    cases hc : ((op.knownAfter prev) c).garbage with
    | true => exact .unknown _
    | false => exact (h c hc).2

section Step

variable {depths : Option Depths} {x y : Nat} {op : Op} {prev : Info} {v v' : Value}
  {setup : Setup} {g : RegOp} {q : Pixel}

/-- Operations on each component alone leave the same components undefined. -/
theorem Op.garbage_componentwise (h : op.verb.isComponentwise = true) (c : Fin 4) :
    ((op.knownAfter prev) c).garbage = (prev.known c).garbage := by
  obtain ⟨elem, kind, info⟩ := op
  cases kind with
  | swapBytes | shiftLeft | shiftRight => rfl
  | convert target expand =>
    simp only [Op.knownAfter]
    split
    · rw [Quad.get_map]
      split <;> rfl
    · rfl
  | dither d =>
    simp only [Op.knownAfter, Quad.get_map]
    rfl
  | scale f =>
    simp only [Op.knownAfter]
    split
    · rfl
    · rw [Quad.get_map]
      rfl
  | atMost bounds | atLeast bounds =>
    simp only [Op.knownAfter, Quad.get_zipWith]
    exact Op.garbage_clamped _ _
  | read | write | unpack | pack | clear | swizzle | affine => cases h

/-- **The kernel of an operation on each component alone** carries bounds along. -/
theorem Op.admits_onComponent (hint : op.elem.isInt = true) (hexact : op.isExact = true)
    (hverb : op.verb.isComponentwise = true) (hs : op.generic? = some setup)
    (hg : setup op = .ok (.compute g)) (ht : op.Tracks prev) {c : Fin 4}
    (hq : (q c).toNat < 2 ^ op.elem.bits) (hv : ∀ j, (prev.bounds j).Admits (q.values j)) :
    ((op.boundsAfter depths prev) c).Admits (Fraction.ofNat (op.onComponent c (q c).toNat)) := by
  obtain ⟨elem, kind, info⟩ := op
  have hseen := ht.seen c hint
  have hvalue : q.values c = Fraction.ofNat (q c).toNat := q.get_values c
  have hvc := hv c
  rw [hvalue] at hvc
  cases kind with
  | swapBytes =>
    have hlt := elem.reversed_lt (q c).toNat
    cases elem with
    | u8 => cases hs
    | u16 =>
      simp only [Op.boundsAfter]
      show ((Quad.const (Bounds.mk Fraction.zero (Fraction.ofNat (2 ^ 16 - 1)))) c).Admits _
      rw [Quad.get_const]
      exact .of_encloses (Bounds.encloses_of_le (Nat.le_sub_one_of_lt hlt))
    | u32 =>
      simp only [Op.boundsAfter]
      show ((Quad.const (Bounds.mk Fraction.zero (Fraction.ofNat (2 ^ 32 - 1)))) c).Admits _
      rw [Quad.get_const]
      exact .of_encloses (Bounds.encloses_of_le (Nat.le_sub_one_of_lt hlt))
    | f32 => cases hint
  | shiftLeft k =>
    rw [Op.generic?_shift hexact (.inl rfl)] at hs
    cases hs
    have hbits := (Setup.shift_holds (.inl rfl) hg (rfl : (q c).toNat = _) 0 0).1
    exact Op.admits_shiftLeft rfl hexact hbits hq hseen hvc
  | scale f =>
    rw [Op.generic?_scale hexact rfl] at hs
    cases hs
    obtain ⟨-, -, hneg, hnum, hden, -⟩ := Setup.scaleInt_eq_ok rfl hg
    exact Op.admits_scale rfl hexact hneg hnum hden hq hseen (ht.exact c) hvc
  | shiftRight k =>
    rw [Op.generic?_shift hexact (.inr rfl)] at hs
    cases hs
    have hbits := (Setup.shift_holds (.inr rfl) hg (rfl : (q c).toNat = _) 0 0).1
    rw [← Op.eval_eq_onComponent hexact rfl hvalue hq hbits]
    exact Op.admits_eval (.inr rfl) Verb.noConfusion ht.weights Verb.noConfusion hv
  | convert | atMost | atLeast =>
    rw [← Op.eval_eq_onComponent hexact rfl hvalue hq True.intro]
    exact Op.admits_eval (.inl rfl) Verb.noConfusion ht.weights Verb.noConfusion hv
  | read | write | unpack | pack | clear | swizzle | affine => cases hverb
  | dither => cases hexact

/-- Integers are not dithered. -/
theorem Op.not_dither_of_generic? (hint : op.elem.isInt = true) (hs : op.generic? = some setup) :
    op.verb ≠ .dither := by
  intro hv
  simp only [Op.generic?, hv, hint, if_true] at hs
  cases hs

/-- Operations between integers on each component alone have an effect on natural numbers. -/
theorem Op.isExact_of_isInt (hint : op.elem.isInt = true) (htarget : op.target.isInt = true)
    (hverb : op.verb.isComponentwise = true) (hdither : op.verb ≠ .dither) :
    op.isExact = true := by
  obtain ⟨elem, kind, info⟩ := op
  cases kind with
  | swapBytes => rfl
  | convert => exact Bool.and_eq_true_iff.mpr ⟨hint, htarget⟩
  | shiftLeft | shiftRight | scale | atMost | atLeast => exact hint
  | dither => exact absurd rfl hdither
  | read | write | unpack | pack | clear | swizzle | affine => cases hverb

/-- A transfer has no kernel that computes. -/
theorem Op.transfer?_of_compute (hs : op.generic? = some setup)
    (hg : setup op = .ok (.compute g)) : op.transfer? = none := by
  obtain ⟨elem, kind, info⟩ := op
  cases kind with
  | read | write =>
    cases hs
    obtain ⟨l, -, hkern⟩ := exists_of_map_eq_ok hg
    cases hkern
  | _ => rfl

/-- A kernel splits no more bits than there are. -/
theorem Chosen.unpack_fits {widths : Quad Nat} {k : Kernel} {r w : Nat}
    (hk : op.kind = .unpack widths) (h : Chosen op k r w) :
    widths.toList.sum ≤ op.elem.bits := by
  have hkern := h.pattern_kernel (.inl (by rw [Op.verb, hk]; rfl))
  simp only [Setup.pattern, hk] at hkern
  obtain ⟨f, hf, -⟩ := exists_of_map_eq_ok hkern
  unfold Setup.fields at hf
  split at hf
  · cases hf
  · omega

/-- Words that a kernel sets are the constants, and the others stay. -/
theorem Reflects.word_clear {e : Elem} {values : Constants} {info : Info} {c : Fin 4}
    (h : Reflects e prev q.values) (hint : e.isInt = true)
    (hg : Setup.clear ⟨e, .clear values, info⟩ = .ok (.compute g))
    (hc : (((Op.mk e (.clear values) info).knownAfter prev) c).garbage = false) :
    ((g.apply x y q) c).toNat < 2 ^ e.bits ∧
      (((Op.mk e (.clear values) info).boundsAfter depths prev) c).Admits
        (Fraction.ofWord ((g.apply x y q) c)) := by
  obtain ⟨words, hwords, hkern⟩ := exists_of_map_eq_ok hg
  cases hkern
  have hi : Setup.clearWord e (values c) = .ok (words c) := Quad.ofFnM_eq_ok_iff.mp hwords c
  simp only [Op.knownAfter, Quad.get_zipWith] at hc
  simp only [Op.boundsAfter, Op.get_evalBounds, Op.evalRaw, Quad.get_zipWith, Quad.get_map,
    RegOp.apply, RegOp.onSome]
  cases hv : values c with
  | none =>
    rw [hv] at hc hi
    rw [← Except.ok.inj hi]
    have hbounds := h.bounds c
    rw [q.get_values] at hbounds
    exact ⟨h.word_lt hint hc, hbounds⟩
  | some value =>
    rw [hv, Setup.clearWord] at hi
    split at hi
    · rename_i w hw
      obtain ⟨rfl, hlt⟩ := (Elem.word?_eq_some_iff hint).mp hw
      rw [← Except.ok.inj hi]
      exact ⟨hlt, .exactly _⟩
    · cases hi

/-- A field that is split off has no more bits than its width says. -/
theorem Reflects.word_unpack {e : Elem} {widths : Quad Nat} {info : Info} {c : Fin 4}
    (hs : (Op.mk e (.unpack widths) info).generic? = some setup)
    (hg : setup ⟨e, .unpack widths, info⟩ = .ok (.compute g)) (hlead : BitField.Leading widths)
    (hc : (((Op.mk e (.unpack widths) info).knownAfter prev) c).garbage = false) :
    ((g.apply x y q) c).toNat < 2 ^ e.bits ∧
      (((Op.mk e (.unpack widths) info).boundsAfter depths prev) c).Admits
        (Fraction.ofWord ((g.apply x y q) c)) := by
  cases (Chosen.generic hs hg).unpack_kernel rfl
  simp only [Op.knownAfter, Quad.get_map] at hc
  simp only [Op.boundsAfter, Quad.get_map, RegOp.apply, Quad.get_zipWith]
  by_cases hpos : 0 < widths c
  · rw [if_pos hpos] at hc ⊢
    have hlen := hlead.len_eq e.bits c
    have hbits := e.bits_le
    have hfits : widths c ≤ e.bits := Nat.le_trans (BitField.width_le_sum widths c)
      ((Chosen.generic hs hg).unpack_fits rfl)
    have hlt : (((BitField.ofWidths widths e.bits) c).extract q.c0).toNat < 2 ^ widths c := by
      rw [← hlen]
      exact BitField.toNat_extract_lt (by omega) q.c0
    rw [if_neg (by omega)]
    exact ⟨Nat.lt_of_lt_of_le hlt (Nat.pow_le_pow_right (by decide) hfits),
      .of_encloses (Bounds.encloses_ofBits hlt)⟩
  · rw [if_neg hpos] at hc
    cases hc

/-- **The general kernel of an operation on integers** leaves registers about which the analysis is
right. -/
theorem Reflects.words (hint : op.elem.isInt = true) (htarget : op.target.isInt = true)
    (hs : op.generic? = some setup) (hg : setup op = .ok (.compute g)) (ht : op.Tracks prev)
    (hpack : op.verb ≠ .pack) (h : Reflects op.elem prev q.values) :
    Reflects op.target (op.infoAfter depths prev) (g.apply x y q).values := by
  refine .of_defined fun c hc => ?_
  rw [Pixel.get_values]
  suffices hword : ((g.apply x y q) c).toNat < 2 ^ op.target.bits ∧
      ((op.boundsAfter depths prev) c).Admits (Fraction.ofWord ((g.apply x y q) c)) from
    ⟨fun _ => ⟨_, hword.1, rfl⟩, hword.2⟩
  by_cases hverb : op.verb.isComponentwise = true
  · have hexact := Op.isExact_of_isInt hint htarget hverb (Op.not_dither_of_generic? hint hs)
    rw [Op.garbage_componentwise hverb] at hc
    have hlt := h.word_lt hint hc
    rw [Fraction.ofWord, (Chosen.generic hs hg).onComponent hexact hverb rfl hlt x y]
    exact ⟨Op.onComponent_lt hexact c hlt,
      Op.admits_onComponent hint hexact hverb hs hg ht hlt h.bounds⟩
  · obtain ⟨elem, kind, info⟩ := op
    cases kind with
    | clear values =>
      cases hs
      exact h.word_clear hint hg hc
    | swizzle s =>
      cases hs
      cases hg
      simp only [Op.knownAfter, Swizzle.get_apply] at hc
      simp only [Op.boundsAfter, Op.get_evalBounds, Op.evalRaw, Swizzle.get_apply, Quad.get_map,
        RegOp.apply, Quad.get_ofFn]
      have hbounds := h.bounds (s.source c)
      rw [q.get_values] at hbounds
      exact ⟨h.word_lt hint hc, hbounds⟩
    | unpack widths => exact word_unpack hs hg (ht.fields widths rfl) hc
    | pack => exact absurd rfl hpack
    | read | write => cases Op.transfer?_of_compute hs hg
    | affine =>
      simp only [Op.generic?, Op.verb, Kind.verb, hint, if_true] at hs
      cases hs
    | swapBytes | shiftLeft | shiftRight | convert | dither | scale | atMost | atLeast =>
      exact absurd rfl hverb

/-- Only a conversion leads from integers to floats or back. -/
theorem Op.verb_of_target (op : Op) (h : op.target.isInt ≠ op.elem.isInt) :
    op.verb = .convert := by
  obtain ⟨elem, kind, info⟩ := op
  cases kind with
  | convert => rfl
  | _ => exact absurd rfl h

/-- **One operation of a run** leaves registers about which the analysis is right. -/
theorem Reflects.step (hr : op.Runs depths x y v v') (ht : op.Tracks prev)
    (hpack : op.verb ≠ .pack) (hswap : op.verb = .swapBytes → op.elem.isInt = true)
    (hzero : op.verb = .affine → ∀ c, (prev.known c).zero = true → v c = Fraction.zero)
    (h : Reflects op.elem prev v) : Reflects op.target (op.infoAfter depths prev) v' := by
  have hfloats : ∀ {w : Value}, op.target.isInt = false →
      (∀ c, ((op.boundsAfter depths prev) c).Admits (w c)) →
      Reflects op.target (op.infoAfter depths prev) w := fun htarget hw =>
    .of_defined fun c _ => ⟨fun hint => absurd hint (Bool.eq_false_iff.mp htarget), hw c⟩
  cases hr with
  | @loadWords l q q' hk hint hloaded hkept =>
    refine .of_defined fun c hc => ?_
    have hfrac : l.loaded = l := by
      have hle := ht.fraction l hk hint
      simp only [Layout.loaded, Nat.min_eq_left hle]
    rw [show op.target = op.elem by simp only [Op.target, hk]]
    simp only [Op.knownAfter, hk, Quad.get_ofFn] at hc
    simp only [Op.boundsAfter, hk, Quad.get_ofFn, hint, if_true]
    by_cases hcount : c.val < l.count
    · obtain ⟨helem, hused⟩ := hloaded c hcount
      rw [hfrac] at hused
      rw [if_pos hcount, Pixel.get_values]
      exact ⟨fun _ => ⟨_, helem, rfl⟩, .of_encloses (Bounds.encloses_ofBits hused)⟩
    · rw [if_neg hcount] at hc ⊢
      rw [Pixel.get_values, hkept c (Nat.not_lt.mp hcount), ← Pixel.get_values]
      exact ⟨fun _ => h.range hint c hc, h.bounds c⟩
  | @loadNumbers l v v' hk hfloat hkept =>
    refine hfloats (by simp only [Op.target, hk, hfloat]) fun c => ?_
    simp only [Op.boundsAfter, hk, Quad.get_ofFn, hfloat, Bool.false_eq_true, if_false]
    split
    · exact .unknown _
    · rename_i hcount
      rw [hkept c (Nat.not_lt.mp hcount)]
      exact h.bounds c
  | store hk =>
    refine .of_defined fun c hc => ?_
    simp only [Op.knownAfter, hk] at hc
    rw [show op.target = op.elem by simp only [Op.target, hk]]
    simp only [Op.boundsAfter, hk]
    exact ⟨fun hint => h.range hint c hc, h.bounds c⟩
  | words hint htarget hs hg => exact h.words hint htarget hs hg ht hpack
  | numbers hfloat htarget hverb =>
    exact hfloats htarget fun c =>
      Op.admits_eval (.inl hverb) (fun _ => hfloat) ht.weights hzero h.bounds
  | @dither d t v hk hfloat hentry =>
    refine hfloats (by simp only [Op.target, hk, hfloat]) fun c => ?_
    simp only [Op.boundsAfter, hk, Quad.get_map]
    exact (h.bounds c).add (Dither.admits (ht.entries d hk) (Array.mem_of_getElem? hentry))
  | scramble hk hfloat =>
    have hint := hswap (by rw [Op.verb, hk]; rfl)
    rw [hfloat] at hint
    cases hint
  | toNumbers hint htarget =>
    have hverb := op.verb_of_target (by rw [hint, htarget]; exact Bool.noConfusion)
    exact hfloats htarget fun c => Op.admits_eval (.inl (by rw [hverb]; rfl))
      (fun hv => by rw [hverb] at hv; cases hv) ht.weights hzero h.bounds
  | @toWords v q hfloat htarget hexact hrange =>
    have hverb := op.verb_of_target (by rw [hfloat, htarget]; exact Bool.noConfusion)
    refine .of_defined fun c _ => ⟨fun _ => ⟨_, hrange c, q.get_values c⟩, ?_⟩
    have hadmits : ((op.boundsAfter depths prev) c).Admits ((op.eval v) c) :=
      Op.admits_eval (.inl (by rw [hverb]; rfl)) (fun hv => by rw [hverb] at hv; cases hv)
        ht.weights hzero h.bounds
    cases hd : ((op.eval v) c).isDefined with
    | true =>
      rw [hexact c hd]
      exact hadmits
    | false => exact hadmits.of_undefined hd _

/-! ## 3. Zeros -/

/-- What is known to be zero after an operation on each component alone was known to be before. -/
theorem Op.zero_componentwise (h : op.verb.isComponentwise = true) {c : Fin 4}
    (hc : ((op.knownAfter prev) c).zero = true) : (prev.known c).zero = true := by
  obtain ⟨elem, kind, info⟩ := op
  cases kind with
  | swapBytes | shiftLeft | shiftRight => exact hc
  | convert target expand =>
    simp only [Op.knownAfter] at hc
    split at hc
    · rw [Quad.get_map] at hc
      split at hc <;> exact hc
    · exact hc
  | dither d =>
    simp only [Op.knownAfter, Quad.get_map] at hc
    cases hc
  | scale f =>
    simp only [Op.knownAfter] at hc
    split at hc
    · exact hc
    · rw [Quad.get_map] at hc
      exact hc
  | atMost bounds | atLeast bounds =>
    simp only [Op.knownAfter, Quad.get_zipWith] at hc
    exact Op.zero_of_clamped hc
  | read | write | unpack | pack | clear | swizzle | affine => cases h

/-- **The kernel of an operation on each component alone** leaves zero where the evaluation does. -/
theorem Op.kernel_zero {c : Fin 4} (hint : op.elem.isInt = true) (htarget : op.target.isInt = true)
    (hverb : op.verb.isComponentwise = true) (hs : op.generic? = some setup)
    (hg : setup op = .ok (.compute g)) (hq : (q c).toNat = 0)
    (heval : (op.eval q.values) c = Fraction.zero) (x y : Nat) :
    Fraction.ofWord ((g.apply x y q) c) = Fraction.zero := by
  have hdither := Op.not_dither_of_generic? hint hs
  by_cases hbytes : op.verb = .swapBytes
  · have hexact := Op.isExact_of_isInt hint htarget hverb hdither
    have hreversed : op.onComponent c 0 = 0 := by
      cases hk : op.kind with
      | swapBytes =>
        simp only [Op.onComponent, hk]
        cases op.elem <;> rfl
      | _ =>
        rw [Op.verb, hk] at hbytes
        cases hbytes
    rw [Fraction.ofWord, (Chosen.generic hs hg).onComponent hexact hverb hq (Nat.two_pow_pos _) x y,
      hreversed]
    rfl
  · have hpass : op.verb.passesConstants = true := by
      simp only [Verb.passesConstants, Bool.and_eq_true, bne_iff_ne]
      exact ⟨⟨hverb, hbytes⟩, hdither⟩
    rw [← Op.eval_eq_apply_of_passes hint htarget hpass hs hg (by rw [hq]; exact Nat.two_pow_pos _)
      (by rw [heval]; rfl) ?_ x y, heval]
    intro _ f _
    rw [hq, Nat.zero_mul, Fraction.TermsFit, Nat.gcd_zero_left, Nat.zero_div]
    refine ⟨Nat.zero_le _, Nat.le_trans (Nat.div_le_of_le_mul ?_) (show 1 ≤ _ by decide)⟩
    exact Nat.le_of_eq (Nat.mul_one _).symm

/-- **One operation of a run** keeps at zero what is known to be zero after it. -/
theorem Op.Runs.zeros (hr : op.Runs depths x y v v') (hdef : op.DefiniteAt prev)
    (hfixes : op.FixesZeros prev) (hswap : op.verb = .swapBytes → op.elem.isInt = true)
    (hv : ∀ c, (prev.known c).zero = true → v c = Fraction.zero) (c : Fin 4)
    (hc : ((op.knownAfter prev) c).zero = true) : v' c = Fraction.zero := by
  have heval : (∀ l, op.kind ≠ .read l) → (op.eval v) c = Fraction.zero := by
    intro hread
    rw [← Op.evalFrom_of_ne_read hread v]
    exact Op.zero_evalFrom hdef hfixes hv v c hc
  cases hr with
  | @loadWords l q q' hk hint hloaded hkept =>
    simp only [Op.knownAfter, hk, Quad.get_ofFn, hint, if_true] at hc
    split at hc
    · cases hc
    · rename_i hcount
      rw [Pixel.get_values, hkept c (Nat.not_lt.mp hcount), ← Pixel.get_values]
      exact hv c hc
  | @loadNumbers l v v' hk hfloat hkept =>
    simp only [Op.knownAfter, hk, Quad.get_ofFn, hfloat, Bool.false_eq_true, if_false] at hc
    split at hc
    · cases hc
    · rename_i hcount
      rw [hkept c (Nat.not_lt.mp hcount)]
      exact hv c hc
  | store hk =>
    simp only [Op.knownAfter, hk] at hc
    exact hv c hc
  | @words setup g q hint htarget hs hg =>
    have hinner := Op.transfer?_of_compute hs hg
    have heval := heval fun l hl => by
      rw [Op.transfer?, hl] at hinner
      cases hinner
    rw [Pixel.get_values]
    by_cases hverb : op.verb.isComponentwise = true
    · have hvalue := hv c (Op.zero_componentwise hverb hc)
      rw [q.get_values] at hvalue
      have hnat : ((q c).toNat : Int) = 0 := congrArg Fraction.num hvalue
      exact Op.kernel_zero hint htarget hverb hs hg (by omega) heval x y
    · have hpass : ¬op.verb.passesConstants = true := by
        simp only [Verb.passesConstants, hverb, Bool.false_and, Bool.false_eq_true, not_false_iff]
      have hbytes : op.verb ≠ .swapBytes := fun hv => hverb (by rw [hv]; rfl)
      rw [← Op.eval_eq_apply_of_moves hint hinner hbytes hpass hs hg (by rw [heval]; rfl) x y, heval]
  | numbers hfloat htarget hverb =>
    refine heval fun l hl => ?_
    rw [Op.verb, hl] at hverb
    cases hverb
  | dither hk =>
    simp only [Op.knownAfter, hk, Quad.get_map] at hc
    cases hc
  | scramble hk hfloat =>
    have hint := hswap (by rw [Op.verb, hk]; rfl)
    rw [hfloat] at hint
    cases hint
  | toNumbers hint htarget =>
    have hverb := op.verb_of_target (by rw [hint, htarget]; exact Bool.noConfusion)
    refine heval fun l hl => ?_
    rw [Op.verb, hl] at hverb
    cases hverb
  | @toWords v q hfloat htarget hexact hrange =>
    have hverb := op.verb_of_target (by rw [hfloat, htarget]; exact Bool.noConfusion)
    have heval := heval fun l hl => by
      rw [Op.verb, hl] at hverb
      cases hverb
    rw [hexact c (by rw [heval]; rfl), heval]

end Step

/-! ## 4. Whole runs -/

/-- Bounds are derived soundly all along, and what is known to be zero stays zero as long as a
transform follows. -/
def Steady (depths : Option Depths) : Info → List Op → Prop
  | _, [] => True
  | prev, op :: ops => op.Tracks prev ∧
      (op.DefiniteAt prev ∧ op.FixesZeros prev ∨ ∀ o ∈ ops, o.verb ≠ .affine) ∧
      Steady depths (op.infoAfter depths prev) ops

/-- The operation neither gathers bit fields nor reverses the bytes of floats. -/
structure Op.Plain (op : Op) : Prop where
  pack : op.verb ≠ .pack
  swapBytes : op.verb = .swapBytes → op.elem.isInt = true

/-- **A run** leaves registers about which the analysis is right. -/
theorem reflects_runAll {depths : Option Depths} {x y : Nat} {op : Op} {rest : List Op} :
    ∀ {ops : List Op} {e : Elem} {prev : Info} {v v' : Value}, TypedFrom e (ops ++ op :: rest) →
      (∀ o ∈ ops, o.Plain) → Steady depths prev ops → RunsAll depths x y ops v v' →
      ((∀ c, (prev.known c).zero = true → v c = Fraction.zero) ∨ ∀ o ∈ ops, o.verb ≠ .affine) →
      Reflects e prev v → Reflects op.elem (infoOf depths prev ops) v'
  | [], e, prev, v, v', htyped, _, _, hrun, _, h => by
    cases hrun
    rw [htyped.1]
    exact h
  | o :: ops, e, prev, v, v', htyped, hplain, hsteady, hrun, hzero, h => by
    obtain ⟨u, hstep, hrun⟩ := hrun
    obtain ⟨htracks, hkeeps, hsteady⟩ := hsteady
    obtain ⟨hop, hplain⟩ := List.forall_mem_cons.mp hplain
    have hread : o.verb = .affine → ∀ c, (prev.known c).zero = true → v c = Fraction.zero := by
      intro haffine
      rcases hzero with hzero | hnone
      · exact hzero
      · exact absurd haffine (hnone o List.mem_cons_self)
    rw [← htyped.1] at h
    -- zeros are followed up to the last transform
    have hzero' : (∀ c, ((o.infoAfter depths prev).known c).zero = true → u c = Fraction.zero) ∨
        ∀ a ∈ ops, a.verb ≠ .affine := by
      rcases hzero with hzero | hnone
      · rcases hkeeps with ⟨hdef, hfixes⟩ | hlast
        · exact .inl (hstep.zeros hdef hfixes hop.swapBytes hzero)
        · exact .inr hlast
      · exact .inr fun a ha => hnone a (List.mem_cons_of_mem _ ha)
    rw [infoOf_cons]
    exact reflects_runAll htyped.2 hplain hsteady hrun hzero'
      (h.step hstep htracks hop.pack hop.swapBytes hread)

end PixelConv
