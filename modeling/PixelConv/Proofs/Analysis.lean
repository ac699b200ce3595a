import PixelConv.Program.Analysis

/-!
# What the analysis reads

Both passes of the analysis look at the element and the kind of every operation and never at the
information it carries. `Op.code` is that part of an operation. Main statements: two programs with
the same codes and the same source depths are analysed alike (`Program.analyse_congr`), so analysing
a second time changes nothing (`Program.analyse_analyse`). The analysis gives a result exactly if all
bounds can be computed (`Program.analysis_eq_ok_iff`), which the codes decide as well.
-/

namespace PixelConv

/-- The part of an operation that the analysis reads. -/
def Op.code (op : Op) : Elem × Kind := (op.elem, op.kind)

/-- The codes of a list of operations. -/
def codes (ops : List Op) : List (Elem × Kind) := ops.map Op.code

@[simp] theorem Op.code_with_info (op : Op) (info : Info) : ({ op with info := info } : Op).code = op.code :=
  rfl

theorem Op.with_info_congr {a b : Op} (h : a.code = b.code) (info : Info) :
    ({ a with info := info } : Op) = { b with info := info } := by
  obtain ⟨ea, ka, ia⟩ := a
  obtain ⟨eb, kb, ib⟩ := b
  simp only [Op.code, Prod.mk.injEq] at h
  obtain ⟨rfl, rfl⟩ := h
  rfl

/-- What holds of an operation whatever its information holds of all operations with its code. -/
theorem Op.of_code {P : Op → Prop} (hP : ∀ {op : Op} (info : Info), P op → P { op with info := info })
    {a b : Op} (h : a.code = b.code) (ha : P a) : P b := by
  rw [show b = { a with info := b.info } from (with_info_congr h b.info).symm]
  exact hP b.info ha

@[simp] theorem codes_nil : codes [] = [] := rfl

@[simp] theorem codes_cons (op : Op) (ops : List Op) : codes (op :: ops) = op.code :: codes ops := rfl

@[simp] theorem codes_append (l r : List Op) : codes (l ++ r) = codes l ++ codes r :=
  List.map_append

theorem length_codes (ops : List Op) : (codes ops).length = ops.length := List.length_map _

/-- What depends on the code of an operation only holds of all operations with the same codes. -/
theorem forall_of_codes {P : Op → Prop} (hP : ∀ {a b : Op}, a.code = b.code → P a → P b)
    {l r : List Op} (hc : codes l = codes r) (h : ∀ op ∈ l, P op) : ∀ op ∈ r, P op := by
  intro op hop
  have hcode : op.code ∈ codes l := by
    rw [hc]
    exact List.mem_map_of_mem hop
  obtain ⟨a, ha, hac⟩ := List.mem_map.mp hcode
  exact hP hac (h a ha)

theorem Op.transfer?_congr {a b : Op} (h : a.code = b.code) : a.transfer? = b.transfer? := by
  have hk : a.kind = b.kind := congrArg Prod.snd h
  rw [Op.transfer?, Op.transfer?, hk]

/-! ## 1. What one operation contributes -/

section Congruence

variable {a b : Op}

theorem Op.infoAfter_congr (h : a.code = b.code) (depths : Option Depths) (prev : Info) :
    a.infoAfter depths prev = b.infoAfter depths prev := by
  obtain ⟨ea, ka, ia⟩ := a
  obtain ⟨eb, kb, ib⟩ := b
  simp only [Op.code, Prod.mk.injEq] at h
  obtain ⟨rfl, rfl⟩ := h
  rfl

theorem Op.overflows_congr (h : a.code = b.code) (depths : Option Depths) :
    a.overflows depths = b.overflows depths := by
  obtain ⟨ea, ka, ia⟩ := a
  obtain ⟨eb, kb, ib⟩ := b
  simp only [Op.code, Prod.mk.injEq] at h
  obtain ⟨rfl, rfl⟩ := h
  rfl

theorem Op.needs_congr (h : a.code = b.code) (out : Quad Bool) : a.needs out = b.needs out := by
  obtain ⟨ea, ka, ia⟩ := a
  obtain ⟨eb, kb, ib⟩ := b
  simp only [Op.code, Prod.mk.injEq] at h
  obtain ⟨rfl, rfl⟩ := h
  rfl

end Congruence

/-- Operations on each component alone read exactly the components that are read of them. -/
theorem Op.needs_componentwise {op : Op} (h : op.verb.isComponentwise = true) (out : Quad Bool) :
    op.needs out = out := by
  obtain ⟨elem, kind, info⟩ := op
  cases kind <;> first | rfl | cases h

section Reads

variable {op : Op} {values : Constants} {w : Swizzle} {t : Affine}

theorem Op.needs_clear (hk : op.kind = .clear values) (out : Quad Bool) (i : Fin 4) :
    (op.needs out) i = true ↔ out i = true ∧ values i = none := by
  simp only [needs, hk, Quad.get_ofFn, Bool.and_eq_true, Option.isNone_iff_eq_none]

theorem Op.needs_swizzle (hk : op.kind = .swizzle w) (out : Quad Bool) (j : Fin 4) :
    (op.needs out) j = true ↔ ∃ i, w.source i = j ∧ out i = true := by
  simp only [needs, hk, Quad.get_ofFn, Quad.any_indices, Bool.and_eq_true, decide_eq_true_eq]

theorem Op.needs_affine (hk : op.kind = .affine t) (out : Quad Bool) (j : Fin 4) :
    (op.needs out) j = true ↔ ∃ i, out i = true ∧ ((t.rows i).weight j).isZero = false := by
  simp only [needs, hk, Quad.get_ofFn, Quad.any_indices, Bool.and_eq_true, Bool.not_eq_true']

end Reads

/-- What is read of an operation only grows with what is read afterwards. -/
theorem Op.needs_mono {op : Op} {out out' : Quad Bool} (h : ∀ i, out i = true → out' i = true)
    {i : Fin 4} (hi : (op.needs out) i = true) : (op.needs out') i = true := by
  obtain ⟨elem, kind, info⟩ := op
  cases kind with
  | read l =>
    simp only [Op.needs, Quad.get_ofFn, Bool.and_eq_true] at hi ⊢
    exact ⟨hi.1, h i hi.2⟩
  | write l => exact hi
  | unpack widths =>
    match i with
    | 0 =>
      obtain ⟨j, hj, ho⟩ := Quad.any_take.mp (show (List.take _ _).any id = true from hi)
      exact Quad.any_take.mpr ⟨j, hj, h j ho⟩
    | 1 | 2 | 3 => cases hi
  | pack widths =>
    simp only [Op.needs, Quad.get_ofFn, Bool.and_eq_true] at hi ⊢
    exact ⟨hi.1, h 0 hi.2⟩
  | clear values =>
    simp only [Op.needs, Quad.get_ofFn, Bool.and_eq_true] at hi ⊢
    exact ⟨h i hi.1, hi.2⟩
  | swizzle s =>
    simp only [Op.needs, Quad.get_ofFn, List.any_eq_true, Bool.and_eq_true] at hi ⊢
    obtain ⟨j, hj, hs, ho⟩ := hi
    exact ⟨j, hj, hs, h j ho⟩
  | affine t =>
    simp only [Op.needs, Quad.get_ofFn, List.any_eq_true, Bool.and_eq_true] at hi ⊢
    obtain ⟨j, hj, ho, hw⟩ := hi
    exact ⟨j, hj, h j ho, hw⟩
  | swapBytes | shiftLeft | shiftRight | convert | dither | scale | atMost | atLeast => exact h i hi

/-! ## 2. The two passes -/

/-- The components that a list of operations reads from what comes before it. -/
def needed (ops : List Op) : Quad Bool := (backward ops).2

@[simp] theorem needed_nil : needed [] = Quad.const true := rfl

@[simp] theorem needed_cons (op : Op) (ops : List Op) : needed (op :: ops) = op.needs (needed ops) :=
  rfl

@[simp] theorem backward_nil : (backward []).1 = [] := rfl

@[simp] theorem backward_cons (op : Op) (ops : List Op) :
    (backward (op :: ops)).1 = { op with info := op.info.restrict (needed ops) } :: (backward ops).1 :=
  rfl

theorem codes_forward (depths : Option Depths) (ops : List Op) (prev : Info) :
    codes (forward depths prev ops) = codes ops := by
  induction ops generalizing prev with
  | nil => rfl
  | cons op ops ih =>
    simp only [forward, codes_cons, Op.code_with_info]
    rw [ih]

theorem codes_backward (ops : List Op) : codes (backward ops).1 = codes ops := by
  induction ops with
  | nil => rfl
  | cons op ops ih =>
    rw [backward_cons, codes_cons, codes_cons, Op.code_with_info, ih]

theorem forward_congr {depths : Option Depths} :
    ∀ {l r : List Op}, codes l = codes r → ∀ prev, forward depths prev l = forward depths prev r
  | [], [], _, _ => rfl
  | [], _ :: _, h, _ => by simp at h
  | _ :: _, [], h, _ => by simp at h
  | a :: l, b :: r, h, prev => by
    simp only [codes_cons, List.cons.injEq] at h
    obtain ⟨hab, hlr⟩ := h
    simp only [forward]
    rw [Op.infoAfter_congr hab, Op.with_info_congr hab, forward_congr hlr]

theorem needed_congr : ∀ {l r : List Op}, codes l = codes r → needed l = needed r
  | [], [], _ => rfl
  | [], _ :: _, h => by simp at h
  | _ :: _, [], h => by simp at h
  | a :: l, b :: r, h => by
    simp only [codes_cons, List.cons.injEq] at h
    obtain ⟨hab, hlr⟩ := h
    rw [needed_cons, needed_cons, needed_congr hlr, Op.needs_congr hab]

theorem needed_componentwise {rest : List Op} : ∀ {ops : List Op},
    (∀ op ∈ ops, op.verb.isComponentwise = true) → needed (ops ++ rest) = needed rest
  | [], _ => rfl
  | op :: ops, hops => by
    rw [List.cons_append, needed_cons,
      needed_componentwise fun o ho => hops o (List.mem_cons_of_mem _ ho),
      Op.needs_componentwise (hops op List.mem_cons_self)]

/-- Operations that read no more leave no more to be read of those before them. -/
theorem needed_append_mono (pre : List Op) {new old : List Op}
    (h : ∀ i, needed new i = true → needed old i = true) :
    ∀ i, needed (pre ++ new) i = true → needed (pre ++ old) i = true := by
  induction pre with
  | nil => exact h
  | cons op pre ih =>
    intro i hi
    rw [List.cons_append, needed_cons] at hi ⊢
    exact Op.needs_mono ih hi

/-- What is known about a component after the backward pass is what was known before it, unless it is
forgotten. -/
theorem Info.of_restrict {info : Info} {on : Quad Bool} {i : Fin 4}
    (h : (info.restrict on).known i ≠ Known.undefined) :
    on i = true ∧ (info.restrict on).known i = info.known i ∧
      (info.restrict on).bounds i = info.bounds i := by
  simp only [restrict, Quad.get_ofFn] at h ⊢
  by_cases hi : on i = true
  · exact ⟨hi, if_pos hi, if_pos hi⟩
  · rw [if_neg hi] at h
    exact absurd rfl h

/-! ## 3. Programs -/

namespace Program

theorem codes_analyse (p : Program) : codes p.analyse.ops = codes p.ops := by
  show codes (backward (forward p.depths Info.start p.ops)).1 = codes p.ops
  rw [codes_backward, codes_forward]

@[simp] theorem depths_analyse (p : Program) : p.analyse.depths = p.depths := rfl

@[simp] theorem analysed_analyse (p : Program) : p.analyse.analysed = true := rfl

/-- **The information of a program is a function of its codes and its source depths.** -/
theorem analyse_congr {p q : Program} (hc : codes p.ops = codes q.ops) (hd : p.depths = q.depths) :
    p.analyse = q.analyse := by
  obtain ⟨opsp, dp, ap⟩ := p
  obtain ⟨opsq, dq, aq⟩ := q
  subst hd
  simp only [analyse]
  rw [forward_congr hc]

/-- Analysing again changes nothing. -/
theorem analyse_analyse (p : Program) : p.analyse.analyse = p.analyse :=
  analyse_congr (codes_analyse p) (depths_analyse p)

/-- The bounds of all operations can be computed. -/
def Measurable (p : Program) : Prop := ∀ op ∈ p.ops, op.overflows p.depths = false

theorem analysis_of_measurable {p : Program} (h : p.Measurable) : p.analysis = .ok p.analyse := by
  refine if_neg fun hany => ?_
  obtain ⟨op, hop, hover⟩ := List.any_eq_true.mp hany
  rw [h op hop] at hover
  cases hover

theorem analysis_of_not_measurable {p : Program} (h : ¬p.Measurable) :
    p.analysis = .error .overflow := by
  refine if_pos (List.any_eq_true.mpr (Classical.byContradiction fun hnone => h fun op hop => ?_))
  exact Bool.eq_false_iff.mpr fun hover => hnone ⟨op, hop, hover⟩

/-- **The analysis gives a result** exactly if all bounds can be computed. -/
theorem analysis_eq_ok_iff {p q : Program} : p.analysis = .ok q ↔ p.Measurable ∧ q = p.analyse := by
  by_cases h : p.Measurable
  · rw [analysis_of_measurable h]
    exact ⟨fun hq => ⟨h, (Except.ok.inj hq).symm⟩, fun hq => congrArg Except.ok hq.2.symm⟩
  · rw [analysis_of_not_measurable h]
    refine ⟨fun hq => ?_, fun hq => absurd hq.1 h⟩
    cases hq

theorem analysis_eq_error_iff {p : Program} {f : Fault} :
    p.analysis = .error f ↔ ¬p.Measurable ∧ f = .overflow := by
  by_cases h : p.Measurable
  · rw [analysis_of_measurable h]
    refine ⟨fun hf => ?_, fun hf => absurd h hf.1⟩
    cases hf
  · rw [analysis_of_not_measurable h]
    exact ⟨fun hf => ⟨h, (Except.error.inj hf).symm⟩, fun hf => by rw [hf.2]⟩

theorem Measurable.congr {p q : Program} (hc : codes p.ops = codes q.ops) (hd : p.depths = q.depths)
    (h : p.Measurable) : q.Measurable := by
  unfold Measurable
  rw [← hd]
  exact forall_of_codes (P := fun op => op.overflows p.depths = false)
    (fun hab ha => (Op.overflows_congr hab p.depths).symm.trans ha) hc h

theorem Measurable.analyse {p : Program} (h : p.Measurable) : p.analyse.Measurable :=
  h.congr (codes_analyse p).symm rfl

end Program

end PixelConv
