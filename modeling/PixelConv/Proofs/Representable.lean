import PixelConv.Proofs.Certainty
import PixelConv.Proofs.ExactRuns

/-!
# Exact values that a type can hold

An integer type holds words, floats hold anything that is defined. As long as the results of the
operations can be represented (`Op.Representable`), every component that the analysis does not take
for undefined holds a value of its type (`Op.holds_evalFrom`, `holds_evalAll`).
-/

namespace PixelConv

/-! ## 1. Values of a type -/

/-- A value that the type can stand for: a word for integers, anything defined for floats. -/
def Elem.Holds (e : Elem) (q : Fraction) : Prop :=
  if e.isInt then ∃ n : Nat, n < 2 ^ (32 : Nat) ∧ q = Fraction.ofNat n else q.isDefined = true

/-- The result of the operation can be represented in its type: constants that the type can hold, bit
fields of integers, and transforms of floats with defined offsets. -/
def Op.Representable (op : Op) : Prop :=
  match op.kind with
  | .clear values => ∀ c q, values c = some q → (op.elem.word? q).isSome = true
  | .unpack _ | .pack _ => op.elem.isInt = true
  | .affine t => op.elem.isInt = false ∧ ∀ i, (t.rows i).offset.isDefined = true
  | _ => True

namespace Elem

variable {e : Elem} {q : Fraction}

theorem holds_int (h : e.isInt = true) :
    e.Holds q ↔ ∃ n : Nat, n < 2 ^ (32 : Nat) ∧ q = Fraction.ofNat n := by
  rw [Holds, if_pos h]

theorem holds_float (h : e.isInt = false) : e.Holds q ↔ q.isDefined = true := by
  rw [Holds, h, if_neg Bool.false_ne_true]

theorem Holds.isDefined (h : e.Holds q) : q.isDefined = true := by
  cases hint : e.isInt with
  | true =>
    obtain ⟨n, -, rfl⟩ := (holds_int hint).mp h
    rfl
  | false => exact (holds_float hint).mp h

theorem Holds.whole (h : e.Holds q) (hint : e.isInt = true) : q.Whole := by
  obtain ⟨n, -, rfl⟩ := (holds_int hint).mp h
  exact Fraction.whole_ofInt _

/-- Integers hold words. -/
theorem Holds.word? (h : e.Holds q) (hint : e.isInt = true) : ∃ w, q.word? = some w := by
  obtain ⟨n, hn, rfl⟩ := (holds_int hint).mp h
  refine ⟨n.toUInt32, ?_⟩
  unfold Fraction.word?
  rw [if_pos]
  · rfl
  · show (true && decide (0 ≤ (n : Int) ∧ (n : Int) < 2 ^ 32)) = true
    rw [Bool.true_and, decide_eq_true_eq]
    omega

theorem holds_ofWord (he : e.isInt = true) (w : UInt32) : e.Holds (Fraction.ofWord w) :=
  (holds_int he).mpr ⟨w.toNat, w.toNat_lt, rfl⟩

theorem holds_ofNat (he : e.isInt = true) {n : Nat} (hn : n < 2 ^ e.bits) :
    e.Holds (Fraction.ofNat n) :=
  (holds_int he).mpr ⟨n, Nat.lt_of_lt_of_le hn e.two_pow_bits_le, rfl⟩

/-- A whole number is wrapped around into an integer. -/
theorem holds_wrap (he : e.isInt = true) (hq : q.isInteger = true) :
    e.Holds (q.wrap (2 ^ e.bits)) := by
  obtain ⟨m, hm, h⟩ := Fraction.wrap_of_isInteger hq (Nat.two_pow_pos e.bits)
  rw [h]
  exact holds_ofNat he hm

theorem holds_of_word? (h : (e.word? q).isSome = true) : e.Holds q := by
  obtain ⟨w, hw⟩ := Option.isSome_iff_exists.mp h
  cases hint : e.isInt with
  | true =>
    rw [((word?_eq_some_iff hint).mp hw).1]
    exact holds_ofWord hint w
  | false =>
    rw [Elem.word?, max?_of_float hint] at hw
    simp only at hw
    split at hw
    · rename_i hdefined
      exact (holds_float hint).mpr hdefined
    · cases hw

/-- A clamp gives a value of the type again. -/
theorem Holds.clamp (h : e.Holds q) (upper : Bool) (bound : Option Fraction) :
    e.Holds (Fraction.clamp e upper bound q) := by
  have hbound : ∀ b, e.effectiveBound? upper bound = some b → e.Holds b := by
    intro b hb
    cases hint : e.isInt with
    | true =>
      rw [effectiveBound?_of_isInt hint] at hb
      obtain ⟨b', -, rfl⟩ := Option.map_eq_some_iff.mp hb
      have hpos : 0 < 2 ^ e.bits := Nat.two_pow_pos _
      exact holds_ofNat hint (by omega)
    | false =>
      refine (holds_float hint).mpr ?_
      unfold effectiveBound? at hb
      split at hb
      · cases hb
      · split at hb
        · rename_i hdefined
          rw [Elem.max?_of_float hint] at hb
          cases hb
          exact hdefined
        · cases hb
  unfold Fraction.clamp
  split
  · exact h
  · rename_i b hb
    generalize (!q.isDefined || if upper then b.lt q else q.lt b) = moved
    cases moved with
    | false => exact h
    | true => exact hbound b hb

/-- A number that is shifted to the right does not grow. -/
theorem Holds.shiftRight (h : e.Holds q) (n : Nat) : e.Holds (q.shiftRight n) := by
  cases hint : e.isInt with
  | true =>
    obtain ⟨m, hm, rfl⟩ := (holds_int hint).mp h
    refine (holds_int hint).mpr ⟨if n < 64 then m / 2 ^ n else 0, ?_, ?_⟩
    · have := Nat.div_le_self m (2 ^ n)
      split <;> omega
    · show Fraction.ofInt (if n < 64 then (m : Int) / 1 / 2 ^ n else 0) = Fraction.ofInt _
      split
      · rw [Int.ediv_one, Int.natCast_ediv, Int.natCast_pow]
        rfl
      · rfl
  | false =>
    refine (holds_float hint).mpr ?_
    rw [Fraction.shiftRight, if_pos h.isDefined]
    rfl

/-- A conversion gives a value of its target. -/
theorem holds_convert (hq : q.isDefined = true) (source target : Elem) (expand : Bool) :
    target.Holds (Fraction.convert source target expand q) := by
  unfold Fraction.convert
  cases htarget : target.isInt with
  | true =>
    have htrunc : q.trunc.isInteger = true := by
      rw [Fraction.trunc, if_pos hq]
      rfl
    have hspread : (if expand then q.trunc * source.expansion target else q.trunc).isInteger =
        true := by
      split
      · exact Fraction.isInteger_mul htrunc (Fraction.isInteger_expansion source htarget)
      · exact htrunc
    rw [max?_of_isInt htarget]
    simp only [if_true]
    rw [Fraction.isInteger_iff.mp hspread, Fraction.saturate_ofInt]
    have hpos : 0 < 2 ^ target.bits := Nat.two_pow_pos _
    exact holds_ofNat htarget (by omega)
  | false =>
    rw [max?_of_float htarget]
    simp only [Bool.false_eq_true, if_false]
    refine (holds_float htarget).mpr ?_
    split
    · exact Fraction.isDefined_mul hq (Fraction.isDefined_expansion source target)
    · exact hq

end Elem

/-- Words are gathered into a word. -/
theorem Value.packed?_isSome {e : Elem} {widths : Quad Nat} {x : Value}
    (h : ∀ c : Fin 4, c.val < BitField.count widths → ∃ w, (x c).word? = some w) :
    ∃ w, x.packed? e widths = some w := by
  have hgather : ∀ (l : List (Fraction × BitField)) (start : UInt32),
      (∀ qf ∈ l, ∃ w, qf.1.word? = some w) →
      ∃ w, l.foldlM (fun w qf => (qf.1.word?).map (qf.2.insert w)) start = some w := by
    intro l
    induction l with
    | nil => exact fun start _ => ⟨start, rfl⟩
    | cons qf l ih =>
      intro start hl
      obtain ⟨⟨w, hw⟩, hl⟩ := List.forall_mem_cons.mp hl
      obtain ⟨result, hresult⟩ := ih (qf.2.insert start w) hl
      refine ⟨result, ?_⟩
      rw [List.foldlM_cons, hw]
      exact hresult
  refine hgather _ 0 fun qf hqf => ?_
  obtain ⟨c, hc, hq⟩ := mem_gathered hqf
  rw [hq]
  exact h c hc

/-- A row whose inputs are defined. -/
theorem AffineRow.isDefined_eval {r : AffineRow} {x : Value} (hoffset : r.offset.isDefined = true)
    (hweight : ∀ j, (r.weight j).isDefined = true)
    (hx : ∀ j, (r.weight j).isZero = false → (x j).isDefined = true) :
    (r.eval x).isDefined = true := by
  unfold AffineRow.eval
  refine List.foldlRecOn (motive := fun sum : Fraction => sum.isDefined = true) _ _ hoffset
    fun sum hsum j _ => ?_
  split
  · exact hsum
  · rename_i hj
    exact Fraction.isDefined_add hsum
      (Fraction.isDefined_mul (hweight j) (hx j (Bool.eq_false_iff.mpr hj)))

/-! ## 2. Through one operation -/

namespace Op

variable {op : Op} {prev : Info} {x : Value}

/-- The components that one component is computed from are defined if it is. -/
theorem inputs_defined (hwrite : ∀ l, op.kind ≠ .write l)
    (hcoherent : ∀ i, (prev.known i).Coherent) {c : Fin 4}
    (hc : ((op.knownAfter prev) c).garbage = false) (j : Fin 4)
    (hj : (op.needs (Quad.ofFn fun i => decide (i = c))) j = true) :
    (prev.known j).garbage = false := by
  refine needs_defined hwrite hcoherent (fun i hi => ?_) j hj
  rw [Quad.get_ofFn, decide_eq_true_eq] at hi
  rw [hi]
  exact hc

/-- An operation on each component alone gives values of its target. -/
theorem holds_componentwise (hdef : op.Definite) (hdither : op.verb ≠ .dither)
    (hverb : op.verb.isComponentwise = true) {c : Fin 4} (hx : op.elem.Holds (x c)) :
    op.target.Holds ((op.eval x) c) := by
  have hdefined := hx.isDefined
  obtain ⟨elem, kind, info⟩ := op
  cases kind with
  | dither => exact absurd rfl hdither
  | read | write | unpack | pack | clear | swizzle | affine => cases hverb
  | swapBytes =>
    rw [get_eval_of_not_wraps rfl]
    exact hx
  | atMost bounds | atLeast bounds =>
    rw [get_eval_of_not_wraps rfl]
    simp only [evalRaw, Quad.get_zipWith]
    exact hx.clamp _ _
  | convert target expand =>
    rw [get_eval_of_not_wraps rfl]
    simp only [evalRaw, Quad.get_map]
    exact Elem.holds_convert hdefined elem target expand
  | shiftRight n =>
    rw [get_eval_of_not_wraps rfl]
    simp only [evalRaw, Quad.get_map]
    exact hx.shiftRight n
  | shiftLeft n =>
    have hn : n < 64 := hdef
    rw [get_eval]
    simp only [evalRaw, Quad.get_map, Kind.wraps, Bool.and_true]
    cases hint : elem.isInt with
    | true =>
      rw [if_pos rfl]
      exact Elem.holds_wrap hint (Fraction.isInteger_mul (hx.whole hint hdefined)
        (Fraction.whole_shiftFactor n (Fraction.isDefined_shiftFactor hn)))
    | false =>
      rw [if_neg Bool.false_ne_true]
      exact (Elem.holds_float hint).mpr
        (Fraction.isDefined_mul hdefined (Fraction.isDefined_shiftFactor hn))
  | scale factor =>
    have hproduct : (x c * factor).isDefined = true :=
      Fraction.isDefined_mul hdefined (show factor.isDefined = true from hdef)
    rw [get_eval]
    simp only [evalRaw, Quad.get_map, Kind.wraps, Bool.and_true]
    cases hint : elem.isInt with
    | true =>
      simp only [if_true]
      refine Elem.holds_wrap hint ?_
      rw [Fraction.floor, if_pos hproduct]
      rfl
    | false =>
      simp only [Bool.false_eq_true, if_false]
      exact (Elem.holds_float hint).mpr hproduct

/-- **One operation** gives values of its target where something is defined. -/
theorem holds_evalFrom {src : Value} (hdef : op.Definite) (hrep : op.Representable)
    (hdither : op.verb ≠ .dither) (hcoherent : ∀ i, (prev.known i).Coherent)
    (hsrc : ∀ l, op.kind = .read l → ∀ c : Fin 4, c.val < l.count → op.elem.Holds (src c))
    (hx : ∀ c, (prev.known c).garbage = false → op.elem.Holds (x c)) (c : Fin 4)
    (hc : ((op.knownAfter prev) c).garbage = false) : op.target.Holds ((op.evalFrom src x) c) := by
  by_cases hread : ∃ l, op.kind = .read l
  · obtain ⟨l, hk⟩ := hread
    have htarget : op.target = op.elem := by rw [target, hk]
    simp only [knownAfter, hk, Quad.get_ofFn] at hc
    simp only [htarget, evalFrom, hk, Quad.get_ofFn]
    split
    · rename_i hcount
      exact hsrc l hk c hcount
    · rename_i hcount
      rw [if_neg hcount] at hc
      exact hx c hc
  rw [evalFrom_of_ne_read fun l hk => hread ⟨l, hk⟩]
  by_cases hwrite : ∃ l, op.kind = .write l
  · obtain ⟨l, hk⟩ := hwrite
    simp only [knownAfter, hk] at hc
    rw [target, hk, get_eval_of_not_wraps (by rw [hk]; rfl), evalRaw, hk]
    exact hx c hc
  -- everything that the component is computed from is defined
  have hinput : ∀ j, (op.needs (Quad.ofFn fun i => decide (i = c))) j = true → op.elem.Holds (x j) :=
    fun j hj => hx j (inputs_defined (fun l hk => hwrite ⟨l, hk⟩) hcoherent hc j hj)
  by_cases hverb : op.verb.isComponentwise = true
  · refine holds_componentwise hdef hdither hverb (hinput c ?_)
    rw [needs_componentwise hverb, Quad.get_ofFn]
    exact decide_eq_true rfl
  obtain ⟨elem, kind, info⟩ := op
  cases kind with
  | read l => exact absurd ⟨l, rfl⟩ hread
  | write l => exact absurd ⟨l, rfl⟩ hwrite
  | swapBytes | shiftLeft | shiftRight | convert | dither | scale | atMost | atLeast =>
    exact absurd rfl hverb
  | swizzle s =>
    rw [get_eval_of_not_wraps rfl]
    simp only [evalRaw, Swizzle.get_apply]
    simp only [knownAfter, Swizzle.get_apply] at hc
    exact hx _ hc
  | clear values =>
    rw [get_eval_of_not_wraps rfl]
    simp only [evalRaw, Quad.get_zipWith]
    simp only [knownAfter, Quad.get_zipWith] at hc
    cases hq : values c with
    | none =>
      rw [hq] at hc
      exact hx c hc
    | some q => exact Elem.holds_of_word? (hrep c q hq)
  | unpack widths =>
    have hint : elem.isInt = true := hrep
    have hlead : BitField.Leading widths := hdef
    rw [get_eval_of_not_wraps rfl]
    simp only [knownAfter, Quad.get_map] at hc
    split at hc
    · rename_i hpos
      obtain ⟨w, hw⟩ := (hx 0 hc).word? hint
      have hlen : ((BitField.ofWidths widths elem.bits) c).len ≠ 0 := by
        rw [hlead.len_eq]
        omega
      simp only [evalRaw, Value.unpack, show x.c0.word? = some w from hw, Quad.get_map, if_neg hlen]
      exact Elem.holds_ofWord hint _
    · cases hc
  | pack widths =>
    have hint : elem.isInt = true := hrep
    obtain rfl : c = 0 := by
      simp only [knownAfter, Quad.get_first] at hc
      split at hc
      · assumption
      · cases hc
    obtain ⟨w, hw⟩ : ∃ w, x.packed? elem widths = some w := by
      refine Value.packed?_isSome fun j hj => (hinput j ?_).word? hint
      simp only [needs, Quad.get_ofFn, decide_eq_true hj, Bool.true_and]
      rfl
    rw [get_eval_of_not_wraps rfl]
    show elem.Holds (x.pack elem widths).c0
    rw [Value.pack, hw]
    exact Elem.holds_ofWord hint w
  | affine t =>
    obtain ⟨hfloat, hoffset⟩ := hrep
    rw [get_eval_of_not_wraps rfl]
    simp only [evalRaw, Quad.get_map]
    refine (Elem.holds_float hfloat).mpr (AffineRow.isDefined_eval (hoffset c) (hdef c).2
      fun j hj => (hinput j ?_).isDefined)
    simp only [needs, Quad.get_ofFn]
    refine Quad.any_indices.mpr ⟨c, ?_⟩
    rw [hj, decide_eq_true rfl]
    rfl

end Op

/-! ## 3. Through a program -/

/-- **Any operations** whose results can be represented give defined values where the analysis says
so. -/
theorem holds_evalAll {depths : Option Depths} {ops : List Op} {prev : Info} {src x : Value}
    {e : Elem} (htyped : TypedFrom e ops) (hdef : ∀ op ∈ ops, op.Definite)
    (hrep : ∀ op ∈ ops, op.Representable) (hdither : ∀ op ∈ ops, op.verb ≠ .dither)
    (hcoherent : ∀ i, (prev.known i).Coherent)
    (hsrc : ∀ op ∈ ops, ∀ l, op.kind = .read l → ∀ c : Fin 4, c.val < l.count →
      op.elem.Holds (src c))
    (hx : ∀ c, (prev.known c).garbage = false → e.Holds (x c)) (c : Fin 4)
    (hc : ((infoOf depths prev ops).known c).garbage = false) :
    ∃ e' : Elem, e'.Holds ((evalAll src ops x) c) := by
  induction ops generalizing prev x e with
  | nil => exact ⟨e, hx c hc⟩
  | cons op ops ih =>
    obtain ⟨hop, hdef⟩ := List.forall_mem_cons.mp hdef
    obtain ⟨hoprep, hrep⟩ := List.forall_mem_cons.mp hrep
    obtain ⟨hopdither, hdither⟩ := List.forall_mem_cons.mp hdither
    obtain ⟨hopsrc, hsrc⟩ := List.forall_mem_cons.mp hsrc
    rw [evalAll_cons]
    rw [infoOf_cons] at hc
    rw [← htyped.1] at hx
    exact ih htyped.2 hdef hrep hdither (Op.coherent_knownAfter hcoherent) hsrc
      (Op.holds_evalFrom hop hoprep hopdither hcoherent hopsrc hx) hc

end PixelConv
