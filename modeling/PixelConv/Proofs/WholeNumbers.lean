import PixelConv.Proofs.Representable
import PixelConv.Proofs.Zeros
import PixelConv.Simplify.Bounded

/-!
# Components that are known to be whole

Follows exact values through a program next to the mark for whole numbers. Every operation gives
whole numbers where the analysis says so (`Op.whole_evalFrom`), with one exception: a conversion
that maps the range of an integer onto the unit interval keeps the mark. Without such a conversion,
a component that is marked before the first dither is a whole number, and a dither that is removed
because of the marks gets nothing else (`Program.known_exact_is_whole`).
-/

namespace PixelConv

/-! ## 1. Whole through one operation -/

/-- A conversion that maps the range of an integer onto the unit interval. -/
def Op.mapsToUnit (op : Op) : Bool :=
  match op.kind with
  | .convert target expand => op.elem.isInt && !target.isInt && expand
  | _ => false

namespace Fraction

variable {q : Fraction}

theorem whole_shiftRight (q : Fraction) (n : Nat) : (q.shiftRight n).Whole := by
  unfold shiftRight
  split
  · exact whole_ofInt _
  · exact fun h => absurd h ‹_›

/-- A conversion to integers gives whole numbers, and any other one that does not map onto the unit
interval keeps them. -/
theorem whole_convert {source target : Elem} {expand : Bool}
    (hunit : (source.isInt && !target.isInt && expand) = false)
    (hq : target.isInt = false → q.Whole) : (convert source target expand q).Whole := by
  unfold convert
  cases htarget : target.isInt with
  | true =>
    rw [Elem.max?_of_isInt htarget]
    simp only [if_true]
    refine Whole.saturate ?_ _
    split
    · exact (whole_trunc q).mul (whole_of_isInteger (isInteger_expansion source htarget))
    · exact whole_trunc q
  | false =>
    rw [Elem.max?_of_float htarget]
    simp only [Bool.false_eq_true, if_false]
    split
    · rename_i hexpand
      have hsource : source.isInt = false := by
        rw [htarget, hexpand] at hunit
        simpa using hunit
      have hone : source.expansion target = one := by
        rw [Elem.expansion, hsource]
      rw [hone]
      exact (hq htarget).mul (whole_ofInt 1)
    · exact hq htarget

/-- A clamp to a whole bound. -/
theorem Whole.clamp (hq : q.Whole) {bound : Option Fraction}
    (hbound : ∀ b, bound = some b → b.isInteger = true) (e : Elem) (upper : Bool) :
    (Fraction.clamp e upper bound q).Whole := by
  have heffective : ∀ b, e.effectiveBound? upper bound = some b → b.Whole := by
    intro b hb
    unfold Elem.effectiveBound? at hb
    split at hb
    · cases hb
    · rename_i b'
      have hwhole := whole_of_isInteger (hbound b' rfl)
      split at hb
      · cases hint : e.isInt with
        | true =>
          rw [Elem.max?_of_isInt hint] at hb
          cases hb
          refine Whole.saturate ?_ _
          split
          · exact whole_floor b'
          · exact whole_ceil b'
        | false =>
          rw [Elem.max?_of_float hint] at hb
          cases hb
          exact hwhole
      · cases hb
  unfold Fraction.clamp
  split
  · exact hq
  · rename_i b hb
    generalize (!q.isDefined || if upper then b.lt q else q.lt b) = moved
    cases moved with
    | false => exact hq
    | true => exact heffective b hb

end Fraction

theorem Op.exact_of_clamped {bound : Option Fraction} {k : Known}
    (h : (Op.knownAfter.clamped bound k).exact = true) :
    k.exact = true ∧ ∀ b, bound = some b → b.isInteger = true := by
  unfold Op.knownAfter.clamped at h
  split at h
  · exact ⟨h, fun b hb => by cases hb⟩
  · split at h
    · rename_i b hb
      exact ⟨h, fun b' hb' => by cases hb'; exact hb⟩
    · cases h

section Step

variable {op : Op} {prev : Info} {x : Value}

/-- The effect of an operation that loads nothing, before any wrap-around. -/
theorem Op.whole_evalRaw (hdef : op.Definite) (hread : ∀ l, op.kind ≠ .read l)
    (hdither : op.verb ≠ .dither) (hunit : op.mapsToUnit = false)
    (hzero : ∀ c, (prev.known c).zero = true → x c = Fraction.zero)
    (hx : ∀ c, (prev.known c).exact = true → (x c).Whole) (c : Fin 4)
    (hc : ((op.knownAfter prev) c).exact = true) : ((op.evalRaw x) c).Whole := by
  unfold Op.knownAfter at hc
  unfold Op.evalRaw
  cases hk : op.kind with
  | read l => exact absurd hk (hread l)
  | dither d => exact absurd (by rw [Op.verb, hk]; rfl) hdither
  | write | swapBytes =>
    simp only [hk] at hc ⊢
    exact hx c hc
  | swizzle s =>
    simp only [hk, Swizzle.get_apply] at hc ⊢
    exact hx _ hc
  | shiftLeft n =>
    simp only [hk, Quad.get_map] at hc ⊢
    exact (hx c hc).mul (Fraction.whole_shiftFactor n)
  | shiftRight n =>
    simp only [Quad.get_map]
    exact Fraction.whole_shiftRight _ n
  | convert target expand =>
    simp only [Op.mapsToUnit, hk] at hunit
    simp only [hk, Quad.get_map] at hc ⊢
    refine Fraction.whole_convert hunit fun htarget => hx c ?_
    rwa [htarget, if_neg Bool.false_ne_true] at hc
  | scale factor =>
    simp only [hk, Quad.get_map] at hc ⊢
    split
    · exact Fraction.whole_floor _
    · split at hc
      · rename_i hfactor
        exact (hx c hc).mul (Fraction.whole_of_isInteger hfactor)
      · rw [Quad.get_map] at hc
        cases hc
  | atMost bounds | atLeast bounds =>
    simp only [hk, Quad.get_zipWith] at hc ⊢
    obtain ⟨hexact, hbound⟩ := exact_of_clamped hc
    exact (hx c hexact).clamp hbound _ _
  | clear values =>
    simp only [Op.Definite, hk] at hdef
    simp only [hk, Quad.get_zipWith] at hc ⊢
    cases hq : values c with
    | none =>
      rw [hq] at hc
      exact hx c hc
    | some q =>
      rw [hq] at hc
      simp only at hc
      split at hc
      · rename_i hz
        rw [(hdef c q hq).eq_zero hz]
        exact Fraction.whole_ofInt 0
      · split at hc
        · rename_i hinteger
          exact Fraction.whole_of_isInteger hinteger
        · cases hc
  | unpack widths =>
    simp only [Value.unpack]
    split
    · rw [Quad.get_const]
      exact Fraction.whole_undefined
    · rw [Quad.get_map]
      split
      · exact Fraction.whole_undefined
      · exact Fraction.whole_ofInt _
  | pack widths =>
    simp only [Value.pack, Quad.get_first]
    split
    · split
      · exact Fraction.whole_ofInt _
      · exact Fraction.whole_undefined
    · exact Fraction.whole_undefined
  | affine t =>
    simp only [Op.Definite, hk] at hdef
    simp only [hk, Quad.get_map] at hc ⊢
    obtain ⟨hoffset, hmixes⟩ := AffineRow.exact_rowKnown.mp hc
    unfold AffineRow.eval
    refine List.foldlRecOn (motive := Fraction.Whole) _ _ (Fraction.whole_of_isInteger hoffset)
      fun sum hsum j _ => ?_
    split
    · exact hsum
    · rename_i hweight
      refine hsum.add ?_
      cases hz : (prev.known j).zero with
      | true =>
        rw [hzero j hz, Fraction.mul_zero ((hdef c).2 j)]
        exact Fraction.whole_ofInt 0
      | false =>
        have hmixed : (t.rows c).mixes prev.known j = true := by
          rw [AffineRow.mixes, hz, Bool.or_false, Bool.not_eq_true']
          exact Bool.eq_false_iff.mpr hweight
        obtain ⟨hexact, hinteger⟩ := hmixes j hmixed
        exact (Fraction.whole_of_isInteger hinteger).mul (hx j hexact)

/-- **One operation** gives whole numbers where they are marked as such. -/
theorem Op.whole_evalFrom {src : Value} (hdef : op.Definite) (hdither : op.verb ≠ .dither)
    (hunit : op.mapsToUnit = false)
    (hsrc : ∀ l, op.kind = .read l → op.elem.isInt = true → ∀ c : Fin 4, c.val < l.count →
      (src c).Whole)
    (hzero : ∀ c, (prev.known c).zero = true → x c = Fraction.zero)
    (hx : ∀ c, (prev.known c).exact = true → (x c).Whole) (c : Fin 4)
    (hc : ((op.knownAfter prev) c).exact = true) : ((op.evalFrom src x) c).Whole := by
  by_cases hread : ∃ l, op.kind = .read l
  · obtain ⟨l, hk⟩ := hread
    simp only [Op.knownAfter, Op.evalFrom, hk, Quad.get_ofFn] at hc ⊢
    split at hc
    · rename_i hcount
      rw [if_pos hcount]
      split at hc
      · rename_i hint
        exact hsrc l hk hint c hcount
      · cases hc
    · rename_i hcount
      rw [if_neg hcount]
      exact hx c hc
  · have hread : ∀ l, op.kind ≠ .read l := fun l hk => hread ⟨l, hk⟩
    have hraw := Op.whole_evalRaw hdef hread hdither hunit hzero hx c hc
    rw [Op.evalFrom_of_ne_read hread, Op.get_eval]
    split
    · exact hraw.wrap _
    · exact hraw

end Step

/-! ## 2. Programs -/

section Runs

variable {depths : Option Depths} {ops : List Op} {prev : Info} {src x : Value}

/-- **Any operations** give whole numbers where they are marked as such. -/
theorem whole_evalAll (hdef : ∀ op ∈ ops, op.Definite) (hkeeps : KeepsZeros depths prev ops)
    (hdither : ∀ op ∈ ops, op.verb ≠ .dither) (hunit : ∀ op ∈ ops, op.mapsToUnit = false)
    (hsrc : ∀ op ∈ ops, ∀ l, op.kind = .read l → op.elem.isInt = true → ∀ c : Fin 4,
      c.val < l.count → (src c).Whole)
    (hzero : ∀ c, (prev.known c).zero = true → x c = Fraction.zero)
    (hx : ∀ c, (prev.known c).exact = true → (x c).Whole) (c : Fin 4)
    (hc : ((infoOf depths prev ops).known c).exact = true) : ((evalAll src ops x) c).Whole := by
  induction ops generalizing prev x with
  | nil => exact hx c hc
  | cons op ops ih =>
    obtain ⟨hop, hdef⟩ := List.forall_mem_cons.mp hdef
    obtain ⟨hopdither, hdither⟩ := List.forall_mem_cons.mp hdither
    obtain ⟨hopunit, hunit⟩ := List.forall_mem_cons.mp hunit
    obtain ⟨hopsrc, hsrc⟩ := List.forall_mem_cons.mp hsrc
    rw [evalAll_cons]
    rw [infoOf_cons] at hc
    exact ih hdef hkeeps.2 hdither hunit hsrc (Op.zero_evalFrom (hop.definiteAt _) hkeeps.1 hzero src)
      (Op.whole_evalFrom hop hopdither hopunit hopsrc hzero hx) hc

end Runs

theorem Known.ne_undefined_of_exact {k : Known} (h : k.exact = true) : k ≠ undefined := by
  rintro rfl
  cases h

/-- The value is a whole number, or it is undefined and the result of one of the operations cannot be
represented in its type. -/
def WholeAfter (ops : List Op) (q : Fraction) : Prop :=
  q.isInteger = true ∨ q.isDefined = false ∧ ∃ op ∈ ops, ¬op.Representable

namespace Program

variable {p : Program} {pre rest : List Op}

/-- **What is known to be whole is a whole number.** The operations fit together, their constants have
a value, no clamp moves a component that is known to be zero, and the elements in memory are values of
their type. After any number of operations without a dither and without a conversion that maps an
integer onto the unit interval, a component that is marked as whole is a whole number in exact
arithmetic; it may be undefined only if the result of an operation cannot be represented in its type.
A dither that is removed because of the marks is one whose inputs that are read are of that kind. -/
theorem known_exact_is_whole (htyped : p.Typed) (hops : p.analyse.ops = pre ++ rest)
    (hdef : ∀ op ∈ pre, op.Definite) (hkeeps : KeepsZeros p.depths Info.start pre)
    (hdither : ∀ op ∈ pre, op.verb ≠ .dither) (hunit : ∀ op ∈ pre, op.mapsToUnit = false)
    {src : Value} (hsrc : ∀ op ∈ pre, ∀ l, op.kind = .read l → ∀ c : Fin 4, c.val < l.count →
      op.elem.Holds (src c)) (x : Value) :
    (∀ op, pre.getLast? = some op → ∀ c, (op.info.known c).exact = true →
      WholeAfter pre ((evalAll src pre x) c)) ∧
    ∀ d after, rest = d :: after → (Site.mk pre.getLast? d after).ditherExact.isSome = true →
      ∀ c, d.uses c = true → WholeAfter pre ((evalAll src pre x) c) := by
  obtain ⟨e, htyped⟩ := htyped
  have htyped : TypedFrom e pre := by
    have := typedFrom_congr (codes_analyse p).symm htyped
    rw [hops] at this
    exact this.init
  have hstart : ∀ c, (Info.start.known c) = Known.undefined := fun c => Quad.get_const _ c
  have hwhole : ∀ c, ((infoOf p.depths Info.start pre).known c).exact = true →
      WholeAfter pre ((evalAll src pre x) c) := by
    intro c hc
    have hvalue := whole_evalAll (x := x) hdef hkeeps hdither hunit
      (fun op hop l hl hint c hcount => (hsrc op hop l hl c hcount).whole hint)
      (fun c hz => by rw [hstart] at hz; cases hz) (fun c hx => by rw [hstart] at hx; cases hx) c hc
    by_cases hrep : ∀ op ∈ pre, op.Representable
    · have hgarbage := (coherent_infoOf Info.coherent_start c).garbage_of_exact hc
      obtain ⟨e', hholds⟩ := holds_evalAll (x := x) htyped hdef hrep hdither Info.coherent_start hsrc
        (fun c hx => by rw [hstart] at hx; cases hx) c hgarbage
      exact .inl (hvalue hholds.isDefined)
    · cases hdefined : ((evalAll src pre x) c).isDefined with
      | true => exact .inl (hvalue hdefined)
      | false =>
        refine .inr ⟨hdefined, ?_⟩
        obtain ⟨op, hop⟩ := Classical.not_forall.mp hrep
        obtain ⟨hmem, hop⟩ := Classical.not_imp.mp hop
        exact ⟨op, hmem, hop⟩
  have hmarked : ∀ op, pre.getLast? = some op → ∀ c, (op.info.known c).exact = true →
      WholeAfter pre ((evalAll src pre x) c) := by
    intro op hlast c hc
    refine hwhole c ?_
    rw [← known_getLast? hops hlast (Known.ne_undefined_of_exact hc)]
    exact hc
  refine ⟨hmarked, fun d after hrest hexact c hc => ?_⟩
  have hinput : ((Site.mk pre.getLast? d after).input.known c).exact = true := by
    unfold Site.ditherExact at hexact
    split at hexact
    · split at hexact
      · rename_i hall
        have hmark := Quad.all_indices.mp hall c
        rw [Op.uses, Bool.not_eq_true'] at hc
        rwa [show (Site.mk pre.getLast? d after).op.info.unused c = false from hc,
          Bool.false_or] at hmark
      · cases hexact
    · cases hexact
  obtain ⟨before, hlast, hknown⟩ := Site.known_input (Known.ne_undefined_of_exact hinput)
  rw [hknown] at hinput
  exact hmarked before hlast c hinput

/-- Bytes that are doubled as floats before a dither. -/
def doubledDither : Program :=
  .ofOps [.ofKind .u8 (.read ⟨1, false, 0⟩), .ofKind .u8 (.convert .f32 false),
    .ofKind .f32 (.scale ⟨2, 1⟩), .ofKind .f32 (.dither (.ordered 1)),
    .ofKind .f32 (.convert .u8 false), .ofKind .u8 (.write ⟨1, false, 0⟩)]

theorem doubledDither_is_whole : ∃ d after, doubledDither.analyse.ops.drop 3 = d :: after ∧
    (Site.mk (doubledDither.analyse.ops.take 3).getLast? d after).ditherExact.isSome = true ∧
    ∀ n : Nat, n < 256 → ∀ x, ((evalAll (Quad.const (Fraction.ofNat n))
      (doubledDither.analyse.ops.take 3) x) 0).isInteger = true := by
  obtain ⟨i0, i1, i2, hops⟩ : ∃ i0 i1 i2, doubledDither.analyse.ops.take 3 =
      [⟨.u8, .read ⟨1, false, 0⟩, i0⟩, ⟨.u8, .convert .f32 false, i1⟩, ⟨.f32, .scale ⟨2, 1⟩, i2⟩] :=
    ⟨_, _, _, rfl⟩
  obtain ⟨d, after, hrest, hexact, huses⟩ : ∃ d after,
      doubledDither.analyse.ops.drop 3 = d :: after ∧
      (Site.mk (doubledDither.analyse.ops.take 3).getLast? d after).ditherExact.isSome = true ∧
      d.uses 0 = true := ⟨_, _, rfl, by decide +kernel, by decide +kernel⟩
  have htyped : doubledDither.Typed := ⟨.u8, rfl, rfl, rfl, rfl, rfl, rfl, True.intro⟩
  have hmem : ∀ {P : Op → Prop}, P ⟨.u8, .read ⟨1, false, 0⟩, i0⟩ → P ⟨.u8, .convert .f32 false, i1⟩ →
      P ⟨.f32, .scale ⟨2, 1⟩, i2⟩ → ∀ op ∈ doubledDither.analyse.ops.take 3, P op := by
    intro P h0 h1 h2 op hop
    rw [hops] at hop
    simp only [List.mem_cons, List.not_mem_nil, or_false] at hop
    rcases hop with rfl | rfl | rfl
    · exact h0
    · exact h1
    · exact h2
  have hkeeps : KeepsZeros none Info.start (doubledDither.analyse.ops.take 3) := by
    rw [hops]
    refine ⟨fun h => ?_, fun h => ?_, fun h => ?_, True.intro⟩ <;> rcases h with h | h <;> cases h
  refine ⟨d, after, hrest, hexact, fun n hn x => ?_⟩
  have hsrc : ∀ op ∈ doubledDither.analyse.ops.take 3, ∀ l, op.kind = .read l → ∀ c : Fin 4,
      c.val < l.count → op.elem.Holds ((Quad.const (Fraction.ofNat n)) c) := by
    refine hmem (fun l _ c _ => ?_) (fun l hl => by cases hl) (fun l hl => by cases hl)
    rw [Quad.get_const]
    exact Elem.holds_ofNat rfl hn
  rcases (known_exact_is_whole htyped (List.take_append_drop 3 _).symm
    (hmem True.intro True.intro rfl) hkeeps (by decide +kernel) (by decide +kernel) hsrc x).2 d after
    hrest hexact 0 huses with h | ⟨-, op, hop, hrep⟩
  · exact h
  · have hall : ∀ op ∈ doubledDither.analyse.ops.take 3, op.Representable :=
      hmem True.intro True.intro True.intro
    exact absurd (hall op hop) hrep

/-- Bytes that are mapped onto the unit interval before a dither. -/
def unitDither : Program :=
  .ofOps [.ofKind .u8 (.read ⟨1, false, 0⟩), .ofKind .u8 (.convert .f32 true),
    .ofKind .f32 (.dither (.ordered 1)), .ofKind .f32 (.convert .u8 false),
    .ofKind .u8 (.write ⟨1, false, 0⟩)]

/-- **A dither of fractions is removed**: after the conversion onto the unit interval they are still
marked as whole. -/
theorem unitDither_marked_as_whole : ∃ d after, unitDither.analyse.ops.drop 2 = d :: after ∧
    (Site.mk (unitDither.analyse.ops.take 2).getLast? d after).ditherExact = some after ∧
    d.uses 0 = true ∧ ∀ x, (evalAll (Quad.const (Fraction.ofNat 128))
      (unitDither.analyse.ops.take 2) x) 0 = ⟨128, 255⟩ :=
  ⟨_, _, rfl, by decide +kernel, by decide +kernel, fun _ =>
    show Fraction.convert .u8 .f32 true (Fraction.ofNat 128) = ⟨128, 255⟩ by decide +kernel⟩

end Program

end PixelConv
