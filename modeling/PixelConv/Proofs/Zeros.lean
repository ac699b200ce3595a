import PixelConv.Proofs.AffineMask
import PixelConv.Proofs.Certainty
import PixelConv.Proofs.ExactRuns

/-!
# Components that are known to be zero

Follows exact values through a program next to what is known about them. Every operation keeps the
components that are known to be zero at zero (`Op.zero_evalFrom`), with one exception: a clamp may
move them, and the analysis still takes them for zero. Without such a clamp, zero is what they are
after any operation (`Program.known_zero_is_zero`).
-/

namespace PixelConv

/-! ## 1. Zero through one operation -/

/-- The constants that meet the components known to be zero have a value. Whatever else a transform
weighs does not matter. -/
def Op.DefiniteAt (prev : Info) (op : Op) : Prop :=
  match op.kind with
  | .affine t => ∀ i, (t.rows i).offset.Lowest ∧
      ∀ j, (prev.known j).zero = true → ((t.rows i).weight j).isDefined = true
  | _ => op.Definite

theorem Op.Definite.definiteAt {op : Op} (h : op.Definite) (prev : Info) : op.DefiniteAt prev := by
  obtain ⟨elem, kind, info⟩ := op
  cases kind with
  | affine t => exact fun i => ⟨(h i).1, fun j _ => (h i).2 j⟩
  | _ => exact h

/-- A clamp leaves zero where it is, in the components that are known to be zero. -/
def Op.FixesZeros (prev : Info) (op : Op) : Prop :=
  op.verb = .atMost ∨ op.verb = .atLeast → ∀ c, (prev.known c).zero = true →
    (op.eval (Quad.const Fraction.zero)) c = Fraction.zero

namespace Fraction

theorem wrap_zero (n : Nat) : zero.wrap n = zero := by
  show ofInt (0 % n) = zero
  rw [Int.zero_emod]
  rfl

theorem shiftRight_zero (n : Nat) : zero.shiftRight n = zero := by
  show ofInt (if n < 64 then 0 / 1 / 2 ^ n else 0) = zero
  split
  · rw [Int.zero_ediv, Int.zero_ediv]
    rfl
  · rfl

theorem convert_zero (source target : Elem) (expand : Bool) :
    convert source target expand zero = zero := by
  have hexpand : (if expand then zero * source.expansion target else zero) = zero := by
    split
    · exact zero_mul (isDefined_expansion source target)
    · rfl
  have htrunc : (if target.isInt then zero.trunc else zero) = zero := by
    split <;> rfl
  unfold convert
  rw [htrunc]
  simp only
  rw [hexpand]
  cases hint : target.isInt with
  | true =>
    rw [Elem.max?_of_isInt hint]
    show (ofInt 0).saturate (ofNat _) = zero
    rw [saturate_ofInt]
    show ofNat (min 0 _) = zero
    rw [Nat.zero_min]
    rfl
  | false => rw [Elem.max?_of_float hint]

end Fraction

/-- A row that adds up nothing but zeros. -/
theorem AffineRow.eval_zero {r : AffineRow} {x : Value} (hoffset : r.offset = Fraction.zero)
    (h : ∀ j, (r.weight j).isZero = false → r.weight j * x j = Fraction.zero) :
    r.eval x = Fraction.zero := by
  unfold AffineRow.eval
  rw [hoffset]
  refine List.foldlRecOn (motive := fun sum : Fraction => sum = Fraction.zero) _ _ rfl
    fun sum hsum j _ => ?_
  rw [hsum]
  split
  · rfl
  · rename_i hweight
    rw [h j (Bool.eq_false_iff.mpr hweight)]
    rfl

namespace Value

/-- Zeros are gathered into zero. -/
theorem packed?_zero {e : Elem} {widths : Quad Nat} {x : Value}
    (h : ∀ c : Fin 4, c.val < BitField.count widths → x c = Fraction.zero) :
    x.packed? e widths = some 0 := by
  have hgather : ∀ l : List (Fraction × BitField), (∀ qf ∈ l, qf.1 = Fraction.zero) →
      l.foldlM (fun w qf => (qf.1.word?).map (qf.2.insert w)) (0 : UInt32) = some 0 := by
    intro l hl
    induction l with
    | nil => rfl
    | cons qf l ih =>
      obtain ⟨hq, hl⟩ := List.forall_mem_cons.mp hl
      have hinsert : qf.2.insert 0 0 = 0 := by simp [BitField.insert]
      rw [List.foldlM_cons, hq]
      show (some (qf.2.insert 0 0)).bind _ = _
      rw [hinsert]
      exact ih hl
  refine hgather _ fun qf hqf => ?_
  obtain ⟨c, hc, hq⟩ := mem_gathered hqf
  rw [hq]
  exact h c hc

/-- Zero is split into zeros. -/
theorem unpack_zero {e : Elem} {widths : Quad Nat} {x : Value} {c : Fin 4} (h : x 0 = Fraction.zero)
    (hlen : ((BitField.ofWidths widths e.bits) c).len ≠ 0) : (x.unpack e widths) c = Fraction.zero := by
  have hword : x.c0.word? = some 0 := by
    rw [show x.c0 = Fraction.zero from h]
    rfl
  have hextract : ((BitField.ofWidths widths e.bits) c).extract 0 = 0 := by
    simp [BitField.extract]
  rw [unpack, hword]
  simp only [Quad.get_map, if_neg hlen, hextract]
  rfl

end Value

section Step

variable {op : Op} {prev : Info} {x : Value}

/-- A clamp at zero, by itself. -/
theorem Op.FixesZeros.clamp {bounds : Constants} (upper : Bool)
    (hk : op.kind = if upper then .atMost bounds else .atLeast bounds) (h : op.FixesZeros prev)
    {c : Fin 4} (hc : (prev.known c).zero = true) :
    Fraction.clamp op.elem upper (bounds c) Fraction.zero = Fraction.zero := by
  obtain ⟨elem, kind, info⟩ := op
  cases upper with
  | true =>
    cases hk
    have := h (.inl rfl) c hc
    rw [Op.get_eval_of_not_wraps rfl] at this
    simpa only [Op.evalRaw, Quad.get_zipWith, Quad.get_const] using this
  | false =>
    cases hk
    have := h (.inr rfl) c hc
    rw [Op.get_eval_of_not_wraps rfl] at this
    simpa only [Op.evalRaw, Quad.get_zipWith, Quad.get_const] using this

theorem Op.zero_of_clamped {bound : Option Fraction} {k : Known}
    (h : (Op.knownAfter.clamped bound k).zero = true) : k.zero = true := by
  unfold Op.knownAfter.clamped at h
  split at h
  · exact h
  · split at h <;> exact h

/-- The effect of an operation that loads nothing, before any wrap-around. -/
theorem Op.zero_evalRaw (hdef : op.DefiniteAt prev) (hfixes : op.FixesZeros prev)
    (hread : ∀ l, op.kind ≠ .read l) (hx : ∀ c, (prev.known c).zero = true → x c = Fraction.zero)
    (c : Fin 4) (hc : ((op.knownAfter prev) c).zero = true) : (op.evalRaw x) c = Fraction.zero := by
  unfold Op.knownAfter at hc
  unfold Op.evalRaw
  cases hk : op.kind with
  | read l => exact absurd hk (hread l)
  | write | swapBytes =>
    simp only [hk] at hc ⊢
    exact hx c hc
  | swizzle s =>
    simp only [hk, Swizzle.get_apply] at hc ⊢
    exact hx _ hc
  | dither =>
    simp only [hk, Quad.get_map] at hc
    cases hc
  | shiftLeft n =>
    simp only [Op.DefiniteAt, Op.Definite, hk] at hdef
    simp only [hk, Quad.get_map] at hc ⊢
    rw [hx c hc]
    exact Fraction.zero_mul (Fraction.isDefined_shiftFactor hdef)
  | shiftRight n =>
    simp only [hk, Quad.get_map] at hc ⊢
    rw [hx c hc]
    exact Fraction.shiftRight_zero n
  | convert target expand =>
    simp only [hk, Quad.get_map] at hc ⊢
    have hz : (prev.known c).zero = true := by
      split at hc
      · rw [Quad.get_map] at hc
        split at hc <;> exact hc
      · exact hc
    rw [hx c hz]
    exact Fraction.convert_zero op.elem target expand
  | scale factor =>
    simp only [Op.DefiniteAt, Op.Definite, hk] at hdef
    simp only [hk, Quad.get_map] at hc ⊢
    have hz : (prev.known c).zero = true := by
      split at hc
      · exact hc
      · rw [Quad.get_map] at hc
        exact hc
    rw [hx c hz, Fraction.zero_mul hdef]
    split <;> rfl
  | atMost bounds =>
    simp only [hk, Quad.get_zipWith] at hc ⊢
    rw [hx c (zero_of_clamped hc)]
    exact hfixes.clamp true hk (zero_of_clamped hc)
  | atLeast bounds =>
    simp only [hk, Quad.get_zipWith] at hc ⊢
    rw [hx c (zero_of_clamped hc)]
    exact hfixes.clamp false hk (zero_of_clamped hc)
  | clear values =>
    simp only [Op.DefiniteAt, Op.Definite, hk] at hdef
    simp only [hk, Quad.get_zipWith] at hc ⊢
    cases hq : values c with
    | none =>
      rw [hq] at hc
      exact hx c hc
    | some q =>
      rw [hq] at hc
      simp only at hc
      split at hc
      · rename_i hzero
        exact (hdef c q hq).eq_zero hzero
      · split at hc <;> cases hc
  | unpack widths =>
    simp only [Op.DefiniteAt, Op.Definite, hk] at hdef
    simp only [hk, Quad.get_map] at hc ⊢
    split at hc
    · rename_i hpos
      refine Value.unpack_zero (hx 0 hc) ?_
      rw [hdef.len_eq]
      omega
    · cases hc
  | pack widths =>
    simp only [hk] at hc ⊢
    match c with
    | 0 =>
      have hall : ∀ j : Fin 4, j.val < BitField.count widths → x j = Fraction.zero := by
        have hc : (List.foldl Known.merge Known.null
          (prev.known.toList.take (BitField.count widths))).zero = true := hc
        rw [Known.foldl_merge] at hc
        exact fun j hj => hx j (Quad.all_take.mp (show (List.take _ _).all _ = true from hc) j hj)
      show (x.pack op.elem widths).c0 = _
      rw [Value.pack, Value.packed?_zero hall]
      rfl
    | 1 | 2 | 3 => cases hc
  | affine t =>
    simp only [Op.DefiniteAt, hk] at hdef
    simp only [hk, Quad.get_map] at hc ⊢
    obtain ⟨hoffset, hmixes⟩ := AffineRow.zero_rowKnown.mp hc
    refine AffineRow.eval_zero ((hdef c).1.eq_zero hoffset) fun j hj => ?_
    have hz : (prev.known j).zero = true := by
      have := hmixes j
      rwa [AffineRow.mixes, hj, Bool.false_or, Bool.not_eq_false'] at this
    rw [hx j hz]
    exact Fraction.mul_zero ((hdef c).2 j hz)

/-- **One operation** keeps at zero what is known to be zero after it. -/
theorem Op.zero_evalFrom (hdef : op.DefiniteAt prev) (hfixes : op.FixesZeros prev)
    (hx : ∀ c, (prev.known c).zero = true → x c = Fraction.zero) (src : Value) (c : Fin 4)
    (hc : ((op.knownAfter prev) c).zero = true) : (op.evalFrom src x) c = Fraction.zero := by
  by_cases hread : ∃ l, op.kind = .read l
  · obtain ⟨l, hk⟩ := hread
    simp only [Op.knownAfter, Op.evalFrom, hk, Quad.get_ofFn] at hc ⊢
    split at hc
    · split at hc <;> cases hc
    · rename_i hcount
      rw [if_neg hcount]
      exact hx c hc
  · have hread : ∀ l, op.kind ≠ .read l := fun l hk => hread ⟨l, hk⟩
    rw [Op.evalFrom_of_ne_read hread, Op.get_eval, Op.zero_evalRaw hdef hfixes hread hx c hc]
    split
    · exact Fraction.wrap_zero _
    · rfl

end Step

/-! ## 2. Zero through a program -/

/-- No clamp moves a component that is known to be zero. -/
def KeepsZeros (depths : Option Depths) : Info → List Op → Prop
  | _, [] => True
  | prev, op :: ops => op.FixesZeros prev ∧ KeepsZeros depths (op.infoAfter depths prev) ops

/-- **Any operations** keep at zero what is known to be zero after them. -/
theorem zero_evalAll {depths : Option Depths} {ops : List Op} {prev : Info} {x : Value}
    (hdef : ∀ op ∈ ops, op.Definite) (hkeeps : KeepsZeros depths prev ops)
    (hx : ∀ c, (prev.known c).zero = true → x c = Fraction.zero) (src : Value) (c : Fin 4)
    (hc : ((infoOf depths prev ops).known c).zero = true) :
    (evalAll src ops x) c = Fraction.zero := by
  induction ops generalizing prev x with
  | nil => exact hx c hc
  | cons op ops ih =>
    obtain ⟨hop, hdef⟩ := List.forall_mem_cons.mp hdef
    rw [evalAll_cons]
    rw [infoOf_cons] at hc
    exact ih hdef hkeeps.2 (Op.zero_evalFrom (hop.definiteAt prev) hkeeps.1 hx src) hc

/-! ## 3. Columns of zeros -/

/-- The row without the inputs that are known to be zero. -/
def AffineRow.skipZeros (r : AffineRow) (known : Quad Known) : AffineRow :=
  { r with weight := Quad.ofFn fun j => if (known j).zero then Fraction.zero else r.weight j }

/-- The weights of inputs that are zero do not matter. -/
theorem AffineRow.eval_congr {r r' : AffineRow} {x : Value} (hoffset : r.offset.Lowest)
    (hsame : r'.offset = r.offset) (h : ∀ j, r'.weight j = r.weight j ∨ x j = Fraction.zero ∧
      (r'.weight j).isDefined = true ∧ (r.weight j).isDefined = true) : r'.eval x = r.eval x := by
  have hstay : ∀ {sum w : Fraction} {j : Fin 4}, sum.Lowest → x j = Fraction.zero →
      w.isDefined = true → (if w.isZero then sum else sum + w * x j) = sum := by
    intro sum w j hsum hj hw
    split
    · rfl
    · rw [hj, Fraction.mul_zero hw, hsum.add_zero]
  have hfold : ∀ (js : List (Fin 4)) (sum : Fraction), sum.Lowest →
      js.foldl (fun sum j => if (r'.weight j).isZero then sum else sum + r'.weight j * x j) sum =
      js.foldl (fun sum j => if (r.weight j).isZero then sum else sum + r.weight j * x j) sum := by
    intro js
    induction js with
    | nil => exact fun _ _ => rfl
    | cons j js ih =>
      intro sum hsum
      rw [List.foldl_cons, List.foldl_cons]
      rcases h j with hj | ⟨hj, hw', hw⟩
      · rw [hj]
        refine ih _ ?_
        split
        · exact hsum
        · exact Fraction.lowest_add _ _
      · rw [hstay hsum hj hw', hstay hsum hj hw]
        exact ih sum hsum
  unfold AffineRow.eval
  rw [hsame]
  exact hfold Quad.indices r.offset hoffset

/-! ## 4. Programs -/

theorem Known.ne_undefined_of_zero {k : Known} (h : k.zero = true) : k ≠ undefined := by
  rintro rfl
  cases h

/-- Before the first operation nothing is known. -/
theorem Site.known_input {s : Site} {c : Fin 4} (h : s.input.known c ≠ Known.undefined) :
    ∃ before, s.before = some before ∧ s.input.known c = before.info.known c := by
  obtain ⟨before, op, after⟩ := s
  cases before with
  | none => exact absurd (Quad.get_const _ c) h
  | some before => exact ⟨before, rfl, rfl⟩

namespace Program

variable {p : Program} {pre rest : List Op}

/-- What the last of some operations carries, unless it is forgotten. -/
theorem known_getLast? {op : Op} {c : Fin 4} (hops : p.analyse.ops = pre ++ rest)
    (hlast : pre.getLast? = some op) (hc : op.info.known c ≠ Known.undefined) :
    op.info.known c = (infoOf p.depths Info.start pre).known c := by
  obtain ⟨front, rfl⟩ := List.getLast?_eq_some_iff.mp hlast
  rw [List.append_assoc, List.singleton_append] at hops
  rw [info_analyse hops] at hc ⊢
  exact (Info.of_restrict hc).2.1

/-- **What is known to be zero is zero.** The constants of the operations have a value, and no clamp
moves a component that is known to be zero. After any number of operations, for any elements in
memory and any registers to begin with, a component that is marked as zero is zero in exact
arithmetic. A transform that comes next gives the same without the inputs that its analysis leaves out
because they are zero, and its outputs that are read are the same after the columns of those inputs
were reset. -/
theorem known_zero_is_zero (hops : p.analyse.ops = pre ++ rest) (hdef : ∀ op ∈ pre, op.Definite)
    (hkeeps : KeepsZeros p.depths Info.start pre) (src x : Value) :
    (∀ op, pre.getLast? = some op → ∀ c, (op.info.known c).zero = true →
      (evalAll src pre x) c = Fraction.zero) ∧
    ∀ op after t, rest = op :: after → op.kind = .affine t → op.Definite → ∀ i,
      ((t.rows i).skipZeros (infoOf p.depths Info.start pre).known).eval (evalAll src pre x) =
        (t.rows i).eval (evalAll src pre x) ∧
      (op.info.unused i = false →
        ((t.restricted (Site.mk pre.getLast? op after).nullInputs op.info.unused).rows i).eval
          (evalAll src pre x) = (t.rows i).eval (evalAll src pre x)) := by
  have hzero : ∀ c, ((infoOf p.depths Info.start pre).known c).zero = true →
      (evalAll src pre x) c = Fraction.zero := fun c hc => by
    refine zero_evalAll hdef hkeeps (fun c hc => ?_) src c hc
    rw [Info.start, Quad.get_const] at hc
    cases hc
  have hmarked : ∀ op, pre.getLast? = some op → ∀ c, (op.info.known c).zero = true →
      (evalAll src pre x) c = Fraction.zero := by
    intro op hlast c hc
    refine hzero c ?_
    rw [← known_getLast? hops hlast (Known.ne_undefined_of_zero hc)]
    exact hc
  refine ⟨hmarked, fun op after t hrest hk hop i => ?_⟩
  simp only [Op.Definite, hk] at hop
  obtain ⟨hoffset, hweight⟩ := hop i
  refine ⟨AffineRow.eval_congr hoffset rfl fun j => ?_, fun hi => ?_⟩
  · simp only [AffineRow.skipZeros, Quad.get_ofFn]
    split
    · rename_i hj
      exact .inr ⟨hzero j hj, rfl, hweight j⟩
    · exact .inl rfl
  · obtain ⟨hsame, hrow⟩ := t.restricted_row (Site.mk pre.getLast? op after).nullInputs
      op.info.unused hi
    refine AffineRow.eval_congr hoffset hsame fun j => ?_
    rcases hrow j with hj | ⟨hj, hdefined⟩
    · exact .inl hj
    · refine .inr ⟨?_, hdefined, hweight j⟩
      rw [Site.nullInputs, Quad.get_map] at hj
      obtain ⟨before, hlast, hknown⟩ := Site.known_input (Known.ne_undefined_of_zero hj)
      rw [hknown] at hj
      exact hmarked before hlast j hj

/-- A second component that is set to zero, limited to one and added to the first. -/
def paddedSum : Program :=
  .ofOps [.ofKind .f32 (.read ⟨1, false, 0⟩),
    .ofKind .f32 (.clear ⟨none, some Fraction.zero, none, none⟩),
    .ofKind .f32 (.atMost ⟨none, some Fraction.one, none, none⟩),
    .ofKind .f32 (.affine (.ofRows { Affine.identity.rows with
      c0 := ⟨⟨⟨1, 1⟩, ⟨1, 1⟩, ⟨0, 1⟩, ⟨0, 1⟩⟩, ⟨0, 1⟩⟩ })),
    .ofKind .f32 (.write ⟨1, false, 0⟩)]

theorem paddedSum_zero_is_zero : ∃ op, (paddedSum.analyse.ops.take 3).getLast? = some op ∧
    (op.info.known 1).zero = true ∧ KeepsZeros none Info.start (paddedSum.analyse.ops.take 3) ∧
    ∀ src x, (evalAll src (paddedSum.analyse.ops.take 3) x) 1 = Fraction.zero := by
  obtain ⟨i0, i1, i2, hops⟩ : ∃ i0 i1 i2, paddedSum.analyse.ops.take 3 =
      [⟨.f32, .read ⟨1, false, 0⟩, i0⟩, ⟨.f32, .clear ⟨none, some Fraction.zero, none, none⟩, i1⟩,
        ⟨.f32, .atMost ⟨none, some Fraction.one, none, none⟩, i2⟩] := ⟨_, _, _, rfl⟩
  have hdef : ∀ op ∈ paddedSum.analyse.ops.take 3, op.Definite := by
    intro op hop
    rw [hops] at hop
    simp only [List.mem_cons, List.not_mem_nil, or_false] at hop
    rcases hop with rfl | rfl | rfl
    · exact True.intro
    · intro c q hq
      match c with
      | 0 | 2 | 3 => cases hq
      | 1 =>
        cases hq
        decide +kernel
    · exact True.intro
  have hkeeps : KeepsZeros none Info.start (paddedSum.analyse.ops.take 3) := by
    rw [hops]
    refine ⟨fun h => ?_, fun h => ?_, fun _ c _ => ?_, True.intro⟩
    · rcases h with h | h <;> cases h
    · rcases h with h | h <;> cases h
    · match c with
      | 0 | 1 | 2 | 3 => rfl
  obtain ⟨op, hlast, hzero⟩ : ∃ op, (paddedSum.analyse.ops.take 3).getLast? = some op ∧
      (op.info.known 1).zero = true := ⟨_, rfl, by decide +kernel⟩
  exact ⟨op, hlast, hzero, hkeeps, fun src x => (known_zero_is_zero
    (List.take_append_drop 3 _).symm hdef hkeeps src x).1 op hlast 1 hzero⟩

/-- A zero that is lifted to one half. -/
def liftedZero : Program :=
  .ofOps [.ofKind .f32 (.read ⟨1, false, 0⟩),
    .ofKind .f32 (.clear ⟨none, some Fraction.zero, none, none⟩),
    .ofKind .f32 (.atLeast ⟨none, some Fraction.half, none, none⟩),
    .ofKind .f32 (.affine (.ofRows { Affine.identity.rows with
      c0 := ⟨⟨⟨1, 1⟩, ⟨1, 1⟩, ⟨0, 1⟩, ⟨0, 1⟩⟩, ⟨0, 1⟩⟩ })),
    .ofKind .f32 (.write ⟨1, false, 0⟩)]

/-- **A clamp that moves zero goes unnoticed**: the component is still marked as zero. -/
theorem liftedZero_marked_as_zero : ∃ op, (liftedZero.analyse.ops.take 3).getLast? = some op ∧
    (op.info.known 1).zero = true ∧
    ∀ src x, (evalAll src (liftedZero.analyse.ops.take 3) x) 1 = Fraction.half :=
  ⟨_, rfl, by decide +kernel, fun _ _ => rfl⟩

end Program

end PixelConv
