import PixelConv.Proofs.Analysis
import PixelConv.Proofs.Fractions

/-!
# What operations do to the contents of components

Kernels work on registers, shuffles on bytes; what both mean is said here on numbers. A component
holds the number in its register, or nothing while it is undefined (`Content`), and `Op.act` is the
effect of an operation on the contents of a pixel whose source elements are given. It describes the
operations that are exact on their element (`Op.isExact`). Main statements: the outcome of a list of
operations depends on the components it reads only (`actAll_congr`), and contents stay within their
element (`Op.act_inRange`).
-/

namespace PixelConv

/-! ## 1. Contents -/

/-- What the components of a pixel hold; an undefined component holds nothing. -/
abbrev Content := Quad (Option Nat)

/-- The number whose bytes are those of `n` in reverse order. -/
def Elem.reversed (e : Elem) (n : Nat) : Nat :=
  match e with
  | .u8 => n % 256
  | .u16 => n % 256 * 256 + n / 256 % 256
  | .u32 | .f32 =>
    ((n % 256 * 256 + n / 256 % 256) * 256 + n / 65536 % 256) * 256 + n / 16777216 % 256

/-- The register contents that a constant stands for. -/
def Elem.content (e : Elem) (q : Fraction) : Nat :=
  match e.word? q with
  | some w => w.toNat
  | none => 0

/-- The whole factor of a conversion. -/
def Elem.spread (source target : Elem) (expand : Bool) : Nat :=
  if expand then (source.expansion target).num.natAbs else 1

namespace Op

/-- The effect on component `i` alone, for operations that act on each component alone. -/
def onComponent (op : Op) (i : Fin 4) (n : Nat) : Nat :=
  match op.kind with
  | .swapBytes => op.elem.reversed n
  | .shiftLeft k => n * 2 ^ k % 2 ^ op.elem.bits
  | .shiftRight k => n / 2 ^ k
  | .convert target expand => min (n * op.elem.spread target expand) (2 ^ target.bits - 1)
  | .scale q => n * q.num.natAbs / max q.den 1 % 2 ^ op.elem.bits
  | .atMost bounds =>
    match op.elem.effectiveBound? true (bounds i) with
    | some b => min n b.num.toNat
    | none => n
  | .atLeast bounds =>
    match op.elem.effectiveBound? false (bounds i) with
    | some b => max n b.num.toNat
    | none => n
  | _ => n

/-- The effect on the contents of a pixel whose elements in memory are `src`. A write leaves the
components that it stores. -/
def act (src : Quad Nat) (op : Op) (v : Content) : Content :=
  match op.kind with
  | .read l => Quad.ofFn fun i => if i.val < l.count then some (src i) else v i
  | .write l => Quad.ofFn fun i => if i.val < l.count then v i else none
  | .clear values => Quad.ofFn fun i =>
    match values i with
    | some q => some (op.elem.content q)
    | none => v i
  | .swizzle s => s.apply v
  | _ => Quad.ofFn fun i => (v i).map (op.onComponent i)

/-- The operation is exact on its element, so that `act` describes it: it moves contents, or it
computes on integers. -/
def isExact (op : Op) : Bool :=
  match op.kind with
  | .read _ | .write _ | .swapBytes | .clear _ | .swizzle _ => true
  | .shiftLeft _ | .shiftRight _ | .scale _ | .atMost _ | .atLeast _ => op.elem.isInt
  | .convert target _ => op.elem.isInt && target.isInt
  | .unpack _ | .pack _ | .dither _ | .affine _ => false

end Op

/-- The effect of operations one after the other. -/
def actAll (src : Quad Nat) (ops : List Op) (v : Content) : Content :=
  ops.foldl (fun v op => op.act src v) v

@[simp] theorem actAll_nil (src : Quad Nat) (v : Content) : actAll src [] v = v := rfl

@[simp] theorem actAll_cons (src : Quad Nat) (op : Op) (ops : List Op) (v : Content) :
    actAll src (op :: ops) v = actAll src ops (op.act src v) := rfl

theorem actAll_append (src : Quad Nat) (l r : List Op) (v : Content) :
    actAll src (l ++ r) v = actAll src r (actAll src l v) := List.foldl_append

/-- The effect is that of the code of the operation. -/
theorem Op.act_congr_code {a b : Op} (h : a.code = b.code) (src : Quad Nat) (v : Content) :
    a.act src v = b.act src v := by
  obtain ⟨ea, ka, ia⟩ := a
  obtain ⟨eb, kb, ib⟩ := b
  simp only [Op.code, Prod.mk.injEq] at h
  obtain ⟨rfl, rfl⟩ := h
  rfl

theorem actAll_congr_codes (src : Quad Nat) :
    ∀ {l r : List Op}, codes l = codes r → ∀ v, actAll src l v = actAll src r v
  | [], [], _, _ => rfl
  | [], _ :: _, h, _ => by simp at h
  | _ :: _, [], h, _ => by simp at h
  | a :: l, b :: r, h, v => by
    simp only [codes_cons, List.cons.injEq] at h
    obtain ⟨hab, hlr⟩ := h
    rw [actAll_cons, actAll_cons, Op.act_congr_code hab, actAll_congr_codes src hlr]

/-- Only transfers look at the source. -/
theorem Op.act_inner {op : Op} (h : op.transfer? = none) (src src' : Quad Nat) (v : Content) :
    op.act src v = op.act src' v := by
  obtain ⟨elem, kind, info⟩ := op
  cases kind with
  | read | write => cases h
  | _ => rfl

theorem actAll_inner {ops : List Op} (h : ∀ op ∈ ops, op.transfer? = none) (src src' : Quad Nat)
    (v : Content) : actAll src ops v = actAll src' ops v := by
  induction ops generalizing v with
  | nil => rfl
  | cons op ops ih =>
    obtain ⟨hop, hops⟩ := List.forall_mem_cons.mp h
    rw [actAll_cons, actAll_cons, Op.act_inner hop src src']
    exact ih hops _

/-! ## 2. Only what is read matters -/

/-- The contents are the same in the components of `on`. -/
def AgreeOn (on : Quad Bool) (v v' : Content) : Prop := ∀ i, on i = true → v i = v' i

theorem Swizzle.reads_source {s : Swizzle} {out : Quad Bool} {i : Fin 4} (hi : out i = true) :
    (Quad.indices.any fun k => decide (s.source k = s.source i) && out k) = true := by
  refine Quad.any_indices.mpr ⟨i, ?_⟩
  rw [hi, decide_eq_true rfl]
  rfl

/-- **An operation turns contents that agree where it reads into contents that agree where it is
read.** -/
theorem Op.act_congr {op : Op} (hop : op.isExact = true) (src : Quad Nat) {out : Quad Bool}
    {v v' : Content} (h : AgreeOn (op.needs out) v v') :
    AgreeOn out (op.act src v) (op.act src v') := by
  intro i hi
  have hi' := h i
  unfold Op.needs at h hi'
  unfold Op.act
  unfold Op.isExact at hop
  cases hk : op.kind with
  | read l =>
    simp only [hk, Quad.get_ofFn] at hi' ⊢
    by_cases hl : i.val < l.count
    · rw [if_pos hl, if_pos hl]
    · rw [if_neg hl, if_neg hl]
      exact hi' (by rw [hi, decide_eq_true (Nat.not_lt.mp hl)]; rfl)
  | write l =>
    simp only [hk, Quad.get_ofFn] at hi' ⊢
    by_cases hl : i.val < l.count
    · rw [if_pos hl, if_pos hl]
      exact hi' (decide_eq_true hl)
    · rw [if_neg hl, if_neg hl]
  | clear values =>
    simp only [hk, Quad.get_ofFn] at hi' ⊢
    cases hv : values i with
    | some q => rfl
    | none => exact hi' (by rw [hi, hv]; rfl)
  | swizzle s =>
    simp only [hk] at h ⊢
    rw [Swizzle.get_apply, Swizzle.get_apply]
    exact h _ (by rw [Quad.get_ofFn]; exact Swizzle.reads_source hi)
  | unpack | pack | dither | affine =>
    simp only [hk] at hop
    cases hop
  | swapBytes | shiftLeft | shiftRight | convert | scale | atMost | atLeast =>
    simp only [hk, Quad.get_ofFn] at hi' ⊢
    rw [hi' hi]

/-- **The outcome depends on the components that are read only.** -/
theorem actAll_congr (src : Quad Nat) {ops : List Op} (hops : ∀ op ∈ ops, op.isExact = true)
    {v v' : Content} (h : AgreeOn (needed ops) v v') : actAll src ops v = actAll src ops v' := by
  induction ops generalizing v v' with
  | nil => exact Quad.ext_get fun i => h i (Quad.get_const true i)
  | cons op ops ih =>
    rw [actAll_cons, actAll_cons]
    refine ih (fun op' hop' => hops op' (List.mem_cons_of_mem _ hop')) ?_
    exact Op.act_congr (hops op List.mem_cons_self) src h

/-! ## 3. Contents stay within their element -/

/-- Every content is in the range of the element. -/
def InRange (e : Elem) (v : Content) : Prop := ∀ i n, v i = some n → n < 2 ^ e.bits

theorem Elem.content_lt (e : Elem) (q : Fraction) : e.content q < 2 ^ e.bits := by
  unfold content
  cases hw : e.word? q with
  | none => exact Nat.two_pow_pos _
  | some w =>
    by_cases he : e.isInt = true
    · exact ((word?_eq_some_iff he).mp hw).2
    · cases e with
      | f32 => exact w.toNat_lt
      | _ => exact absurd rfl he

theorem Elem.reversed_lt (e : Elem) (n : Nat) : e.reversed n < 2 ^ e.bits := by
  have h0 := Nat.mod_lt n (by decide : 0 < 256)
  have h1 := Nat.mod_lt (n / 256) (by decide : 0 < 256)
  have h2 := Nat.mod_lt (n / 65536) (by decide : 0 < 256)
  have h3 := Nat.mod_lt (n / 16777216) (by decide : 0 < 256)
  cases e with
  | u8 => exact h0
  | u16 =>
    show n % 256 * 256 + n / 256 % 256 < 65536
    omega
  | u32 | f32 =>
    show ((n % 256 * 256 + n / 256 % 256) * 256 + n / 65536 % 256) * 256 + n / 16777216 % 256 <
      4294967296
    omega

/-- An operation on each component alone stays within its target. -/
theorem Op.onComponent_lt {op : Op} (hop : op.isExact = true) (i : Fin 4) {n : Nat}
    (hn : n < 2 ^ op.elem.bits) : op.onComponent i n < 2 ^ op.target.bits := by
  have hpos : 0 < 2 ^ op.elem.bits := Nat.two_pow_pos _
  unfold onComponent target
  unfold isExact at hop
  cases hk : op.kind with
  | swapBytes => exact op.elem.reversed_lt n
  | shiftLeft k => exact Nat.mod_lt _ hpos
  | shiftRight k => exact Nat.lt_of_le_of_lt (Nat.div_le_self _ _) hn
  | convert target expand =>
    have : 0 < 2 ^ target.bits := Nat.two_pow_pos _
    show min _ (2 ^ target.bits - 1) < 2 ^ target.bits
    omega
  | scale q => exact Nat.mod_lt _ hpos
  | atMost bounds =>
    show (match op.elem.effectiveBound? true (bounds i) with
      | some b => min n b.num.toNat
      | none => n) < _
    split
    · exact Nat.lt_of_le_of_lt (Nat.min_le_left _ _) hn
    · exact hn
  | atLeast bounds =>
    simp only [hk] at hop
    show (match op.elem.effectiveBound? false (bounds i) with
      | some b => max n b.num.toNat
      | none => n) < _
    rw [Elem.effectiveBound?_of_isInt hop]
    cases (bounds i).filter Fraction.isDefined with
    | none => exact hn
    | some b =>
      show max n (min (Elem.wholeBound false b).toNat (2 ^ op.elem.bits - 1)) < 2 ^ op.elem.bits
      omega
  | read | write | clear | swizzle | unpack | pack | dither | affine => exact hn

/-- **Contents in the range of an operation's element leave it in the range of its target**, when
the elements of the source are in range. -/
theorem Op.act_inRange {op : Op} (hop : op.isExact = true) {src : Quad Nat} {v : Content}
    (hsrc : ∀ l, op.kind = .read l → ∀ i : Fin 4, i.val < l.count → src i < 2 ^ op.elem.bits)
    (hv : InRange op.elem v) : InRange op.target (op.act src v) := by
  intro i n hn
  have hlt := fun m (hm : v i = some m) => Op.onComponent_lt hop i (hv i m hm)
  unfold Op.target at hlt ⊢
  unfold Op.act at hn
  cases hk : op.kind with
  | read l =>
    simp only [hk, Quad.get_ofFn] at hn
    by_cases hc : i.val < l.count
    · rw [if_pos hc] at hn
      cases hn
      exact hsrc l hk i hc
    · rw [if_neg hc] at hn
      exact hv i n hn
  | write l =>
    simp only [hk, Quad.get_ofFn] at hn
    split at hn
    · exact hv i n hn
    · cases hn
  | clear values =>
    simp only [hk, Quad.get_ofFn] at hn
    split at hn
    · cases hn
      exact op.elem.content_lt _
    · exact hv i n hn
  | swizzle s =>
    simp only [hk] at hn
    rw [Swizzle.get_apply] at hn
    exact hv _ n hn
  | unpack | pack | dither | affine =>
    unfold Op.isExact at hop
    simp only [hk] at hop
    cases hop
  | swapBytes | shiftLeft | shiftRight | convert | scale | atMost | atLeast =>
    simp only [hk, Quad.get_ofFn] at hn hlt ⊢
    obtain ⟨m, hm, rfl⟩ := Option.map_eq_some_iff.mp hn
    exact hlt m hm

/-- The operations fit together: the first works on the element `e`, and each of the others on what
the one before it leaves. -/
def TypedFrom : Elem → List Op → Prop
  | _, [] => True
  | e, op :: ops => op.elem = e ∧ TypedFrom op.target ops

/-- Every operation works on the element that the one before it leaves. -/
def Program.Typed (p : Program) : Prop := ∃ e, TypedFrom e p.ops

theorem typedFrom_congr : ∀ {l r : List Op}, codes l = codes r → ∀ {e}, TypedFrom e l → TypedFrom e r
  | [], [], _, _, _ => True.intro
  | [], _ :: _, h, _, _ => by simp at h
  | _ :: _, [], h, _, _ => by simp at h
  | ⟨ea, ka, ia⟩ :: l, ⟨eb, kb, ib⟩ :: r, h, e, ht => by
    simp only [codes_cons, Op.code, List.cons.injEq, Prod.mk.injEq] at h
    obtain ⟨⟨rfl, rfl⟩, hlr⟩ := h
    exact ⟨ht.1, typedFrom_congr hlr ht.2⟩

theorem TypedFrom.init {rest : List Op} :
    ∀ {pre : List Op} {e : Elem}, TypedFrom e (pre ++ rest) → TypedFrom e pre
  | [], _, _ => True.intro
  | _ :: _, _, h => ⟨h.1, TypedFrom.init h.2⟩

/-- Contents stay in range up to any operation of a list that fits together. -/
theorem actAll_inRange {src : Quad Nat} {op : Op} {rest : List Op} :
    ∀ {ops : List Op} {e : Elem} {v : Content}, TypedFrom e (ops ++ op :: rest) →
      (∀ o ∈ ops, o.isExact = true) →
      (∀ o ∈ ops, ∀ l, o.kind = .read l → ∀ i : Fin 4, i.val < l.count →
        src i < 2 ^ o.elem.bits) → InRange e v → InRange op.elem (actAll src ops v)
  | [], _, _, ht, _, _, hv => by
    rw [ht.1]
    exact hv
  | o :: ops, _, v, ht, hexact, hsrc, hv => by
    rw [actAll_cons]
    refine actAll_inRange ht.2 (fun o' ho' => hexact o' (List.mem_cons_of_mem _ ho'))
      (fun o' ho' => hsrc o' (List.mem_cons_of_mem _ ho')) ?_
    refine Op.act_inRange (hexact o List.mem_cons_self) (hsrc o List.mem_cons_self) ?_
    rw [ht.1]
    exact hv

end PixelConv
