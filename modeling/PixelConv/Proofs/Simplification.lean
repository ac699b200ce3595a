import PixelConv.Proofs.Acceptance
import PixelConv.Proofs.Overflow

/-!
# Simplification keeps what is written

`Program.Stands` says that a program can stand for another one: it is framed by narrower shapes, can
be run as far as the other could, and writes the same contents for every source within the given
depths. Main statements: a step leads from a program that can stand for another to one that can, or
to a copy (`Program.Stands.step`), and so simplification ends in one or the other where no depth is
hidden (`Program.Stands.simplify`).
-/

namespace PixelConv

variable {src : Quad Nat} {v : Content}

/-! ## 1. Exchanging operations at a place -/

/-- Operations before a place stay tame when what follows is exchanged for something that reads no
more. -/
theorem Tame.exchange {l new old : List Op}
    (hneeds : ∀ i, needed new i = true → needed old i = true) :
    ∀ {v : Content}, Tame src (l ++ old) v → Tame src new (actAll src l v) →
      Tame src (l ++ new) v := by
  induction l with
  | nil => exact fun _ h => h
  | cons op l ih =>
    intro v hold hnew
    exact ⟨fun i n hi hn => hold.1 i n (needed_append_mono l hneeds i hi) hn, ih hold.2 hnew⟩

theorem Tame.congr_codes : ∀ {l r : List Op}, codes l = codes r → ∀ {v : Content},
    Tame src l v → Tame src r v
  | [], [], _, _, h => h
  | [], _ :: _, hc, _, _ => by simp at hc
  | _ :: _, [], hc, _, _ => by simp at hc
  | a :: l, b :: r, hc, v, h => by
    rw [codes_cons, codes_cons] at hc
    obtain ⟨hab, hlr⟩ := List.cons.inj hc
    refine ⟨fun i n hi hn hu f hf => ?_, ?_⟩
    · rw [← needed_congr hlr] at hi
      exact h.1 i n hi hn ((congrArg Prod.fst hab).trans hu) f ((congrArg Prod.snd hab).trans hf)
    · rw [← Op.act_congr_code hab]
      exact Tame.congr_codes hlr h.2

/-- Operations that compute with integers only have no fields and no transforms. -/
theorem Op.proper_of_isExact {op : Op} (h : op.isExact = true) : op.Proper := by
  obtain ⟨elem, kind, info⟩ := op
  cases kind with
  | unpack | pack | affine => cases h
  | _ => exact .of_verb rfl rfl

theorem filled_of_isExact {ops : List Op} (h : ∀ op ∈ ops, op.isExact = true) : Filled ops := by
  induction ops with
  | nil => exact True.intro
  | cons op ops ih =>
    obtain ⟨hop, hops⟩ := List.forall_mem_cons.mp h
    refine ⟨fun i _ => Op.fills_of_verb ?_ i, ih hops⟩
    obtain ⟨elem, kind, info⟩ := op
    cases kind with
    | unpack | pack => cases hop
    | _ => rfl

/-- A place can be exchanged in the middle of operations. -/
theorem Faithful.append {pre old new : List Op} (h : Faithful src (actAll src pre v) old new)
    (hneeds : ∀ i, needed new i = true → needed old i = true) (ht : Tame src (pre ++ old) v) :
    actAll src (pre ++ new) v = actAll src (pre ++ old) v ∧ Tame src (pre ++ new) v := by
  refine ⟨?_, ht.exchange hneeds (h.tame ht.drop)⟩
  rw [actAll_append, actAll_append, h.outcome]

/-! ## 2. What is defined -/

/-- If what is read of an operation is defined, so is what it reads. -/
theorem Op.defined_of_act {op : Op} (hop : op.isExact = true) (hw : ∀ l, op.kind ≠ .write l)
    {out : Quad Bool} (h : DefinedOn out (op.act src v)) : DefinedOn (op.needs out) v := by
  obtain ⟨elem, kind, info⟩ := op
  intro i hi
  cases kind with
  | read l =>
    simp only [Op.needs, Quad.get_ofFn, Bool.and_eq_true, decide_eq_true_eq] at hi
    obtain ⟨n, hn⟩ := h i hi.2
    simp only [Op.act, Quad.get_ofFn, if_neg (Nat.not_lt.mpr hi.1)] at hn
    exact ⟨n, hn⟩
  | write l => exact absurd rfl (hw l)
  | clear values =>
    simp only [Op.needs, Quad.get_ofFn, Bool.and_eq_true, Option.isNone_iff_eq_none] at hi
    obtain ⟨n, hn⟩ := h i hi.1
    simp only [Op.act, Quad.get_ofFn, hi.2] at hn
    exact ⟨n, hn⟩
  | swizzle s =>
    simp only [Op.needs, Quad.get_ofFn, List.any_eq_true, Bool.and_eq_true,
      decide_eq_true_eq] at hi
    obtain ⟨j, -, rfl, ho⟩ := hi
    obtain ⟨n, hn⟩ := h j ho
    rw [Op.act, Swizzle.get_apply] at hn
    exact ⟨n, hn⟩
  | unpack | pack | dither | affine => cases hop
  | swapBytes | shiftLeft | shiftRight | convert | scale | atMost | atLeast =>
    obtain ⟨n, hn⟩ := h i hi
    rw [Op.act, Quad.get_ofFn] at hn
    obtain ⟨m, hm, -⟩ := Option.map_eq_some_iff.mp hn
    exact ⟨m, hm⟩

/-- If everything that is written is defined, so is everything that is read. -/
theorem EndsIn.defined {w : Shape} {ops : List Op} (h : EndsIn w ops)
    (hexact : ∀ op ∈ ops, op.isExact = true)
    (hw : ∀ c : Fin 4, c.val < w.layout.count → ((actAll src ops v) c).isSome = true) :
    DefinedOn (needed ops) v := by
  obtain ⟨inner, wi, rfl, hinner⟩ := h
  induction inner generalizing v with
  | nil =>
    intro i hi
    have hi : i.val < w.layout.count := by
      simpa only [List.nil_append, needed_cons, Op.needs, Quad.get_ofFn, decide_eq_true_eq] using hi
    have hsome := hw i hi
    rw [List.nil_append, actAll_cons, actAll_nil, Op.act, Quad.get_ofFn, if_pos hi] at hsome
    exact Option.isSome_iff_exists.mp hsome
  | cons op inner ih =>
    obtain ⟨hop, hinner⟩ := List.forall_mem_cons.mp hinner
    obtain ⟨hopexact, hexact⟩ := List.forall_mem_cons.mp hexact
    rw [List.cons_append, needed_cons]
    refine Op.defined_of_act hopexact (fun l hl => ?_) (ih hinner hexact hw)
    rw [Op.transfer?, hl] at hop
    cases hop

theorem Program.Framed.defined {p : Program} {r w : Shape} {inner pre rest : List Op} {op : Op}
    (hp : p.Framed r w inner) (hops : p.ops = pre ++ op :: rest)
    (hexact : ∀ op ∈ p.ops, op.isExact = true)
    (hw : ∀ c : Fin 4, c.val < w.layout.count →
      ((actAll src p.ops (Quad.const none)) c).isSome = true) :
    DefinedOn (needed (op :: rest)) (actAll src pre (Quad.const none)) := by
  obtain ⟨ri, tail, htail, hends⟩ := hp.endsIn
  rw [hops] at htail hexact hw
  cases pre with
  | nil =>
    obtain ⟨rfl, rfl⟩ := List.cons.inj htail
    obtain ⟨hop, hexact⟩ := List.forall_mem_cons.mp hexact
    rw [needed_cons]
    exact Op.defined_of_act hop (fun l hl => Kind.noConfusion hl) (hends.defined hexact hw)
  | cons a pre =>
    obtain ⟨rfl, rfl⟩ := List.cons.inj htail
    rw [actAll_append] at hw
    exact hends.split.2.defined (fun o ho => hexact o (List.mem_append_right _ ho)) hw

/-! ## 3. Operations that can be run -/

/-- Either the kernels take all operations and there are not too many of them, or all of them move
bytes. -/
def Runnable (ops : List Op) : Prop :=
  (ops.length ≤ Chain.maxLength ∧ ∀ op ∈ ops, op.Linkable) ∨ ∀ op ∈ ops, op.MovesBytes

namespace Runnable

variable {ops l : List Op}

theorem exact (h : Runnable ops) : ∀ op ∈ ops, op.isExact = true := by
  intro op hop
  rcases h with ⟨-, hlink⟩ | hmoves
  · exact (hlink op hop).exact
  · exact (hmoves op hop).exact

theorem limits (h : Runnable ops) : ∀ op ∈ ops, op.InLimits := by
  intro op hop
  rcases h with ⟨-, hlink⟩ | hmoves
  · exact (hlink op hop).limits
  · exact (hmoves op hop).limits

theorem congr (hc : codes l = codes ops) (h : Runnable l) : Runnable ops := by
  rcases h with ⟨hlen, hlink⟩ | hmoves
  · refine .inl ⟨?_, forall_of_codes Op.Linkable.congr hc hlink⟩
    rw [← length_codes, ← hc, length_codes]
    exact hlen
  · exact .inr (forall_of_codes Op.MovesBytes.congr hc hmoves)

/-- The numbers of operations that can be run and measured have negatives. -/
theorem negatable (h : Runnable ops) {depths : Option Depths}
    (hm : ∀ op ∈ ops, op.overflows depths = false) : ∀ op ∈ ops, op.Negatable := by
  intro op hop
  have hexact := h.exact op hop
  have hleast := hm op hop
  have hconstants : ∀ values, op.kind = .clear values → ∀ i q, values i = some q →
      q.hasNegative = true := by
    intro values hk i q hq
    rcases h with ⟨-, hlink⟩ | hmoves
    · exact Elem.hasNegative_of_represents ((hlink op hop).constants values hk i q hq)
    · have hmove := hmoves op hop
      rw [Op.MovesBytes, hk] at hmove
      exact Shuffle.hasNegative_of_fill? (hmove i q hq)
  obtain ⟨elem, kind, info⟩ := op
  cases kind with
  | clear values => exact hconstants values rfl
  | atMost bounds =>
    intro hfloat
    rw [show elem.isInt = true from hexact] at hfloat
    cases hfloat
  | atLeast bounds =>
    intro i q hq
    have hany : (bounds.any fun b => b.any (!·.hasNegative)) = false :=
      (Bool.and_eq_false_iff.mp hleast).resolve_left fun hint =>
        Bool.false_ne_true (hint.symm.trans hexact)
    refine Bool.of_not_eq_false fun hneg => Bool.eq_false_iff.mp hany (Quad.any_iff.mpr ⟨i, ?_⟩)
    rw [hq, Option.any_some, hneg]
    rfl
  | affine => cases hexact
  | _ => trivial

/-- **What a rule makes of operations that can be run can be run.** -/
theorem rewrite {s : Site} {rule : Rule} {pre out : List Op}
    (h : Runnable (pre ++ s.op :: s.after)) (hrew : Rewrites s rule out)
    (ht : TypedFrom s.op.elem (s.op :: s.after))
    (hshift : rule = .shiftPair → s.shiftPairOverflow = none) : Runnable (pre ++ out) := by
  have hexact := h.exact s.op (List.mem_append_right _ List.mem_cons_self)
  have hlen := hrew.length_le (Op.not_affine_of_isExact hexact)
  rcases h with ⟨hmax, hlink⟩ | hmoves
  · obtain ⟨hpre, hops⟩ := List.forall_mem_append.mp hlink
    refine .inl ⟨?_, List.forall_mem_append.mpr ⟨hpre, hrew.linkable ht hops hshift⟩⟩
    rw [List.length_append] at hmax ⊢
    omega
  · obtain ⟨hpre, hops⟩ := List.forall_mem_append.mp hmoves
    exact .inr (List.forall_mem_append.mpr ⟨hpre, hrew.movesBytes ht hops⟩)

end Runnable

/-! ## 4. Programs that stand for others -/

namespace Program

/-- `q` can stand for `p`, a program from shape `r` to shape `w`. -/
structure Stands (p q : Program) (r w : Shape) : Prop where
  depths : q.depths = p.depths
  frame : ∃ r' w' inner, q.Framed r' w' inner ∧ r'.Narrows r ∧ w'.Narrows w ∧
    w'.layout.count = w.layout.count
  typed : TypedFrom r.elem q.ops
  runnable : Runnable q.ops
  tame : ∀ src, r.Supplies p.depths src → Tame src q.ops (Quad.const none)
  written : ∀ src, r.Supplies p.depths src →
    actAll src q.ops (Quad.const none) = actAll src p.ops (Quad.const none)
  defined : ∀ src, r.Supplies p.depths src → ∀ c : Fin 4, c.val < w.layout.count →
    ((actAll src q.ops (Quad.const none)) c).isSome = true

/-- `q` has no operations, and `p` writes the source elements as they are, to where a narrower shape
has them as well. -/
structure Copies (p q : Program) (r w : Shape) : Prop where
  ops : q.ops = []
  shape : ∃ s : Shape, s.Narrows r ∧ s.Narrows w ∧ s.layout.count = w.layout.count
  written : ∀ src, r.Supplies p.depths src → ∀ c : Fin 4, c.val < w.layout.count →
    (actAll src p.ops (Quad.const none)) c = some (src c)

variable {p q q' : Program} {r w : Shape}

theorem Stands.analyse (h : p.Stands q r w) : p.Stands q.analyse r w := by
  have hc := codes_analyse q
  obtain ⟨r', w', inner, hq, hr, hw, hcount⟩ := h.frame
  obtain ⟨inner', hq', -⟩ := hq.congr hc.symm
  refine ⟨h.depths, ⟨r', w', inner', hq', hr, hw, hcount⟩, typedFrom_congr hc.symm h.typed,
    h.runnable.congr hc.symm, fun src hsrc => Tame.congr_codes hc.symm (h.tame src hsrc),
    fun src hsrc => ?_, fun src hsrc => ?_⟩
  · rw [actAll_congr_codes src hc]
    exact h.written src hsrc
  · rw [actAll_congr_codes src hc]
    exact h.defined src hsrc

/-! ## 5. One step -/

theorem Stands.sourceFits (h : p.Stands q r w) (hr : r.Regular)
    (hsrc : r.Supplies p.depths src) : ∀ op ∈ q.ops, SourceFits src p.depths op := by
  obtain ⟨r', w', inner, hq, hr', -, -⟩ := h.frame
  intro op hop l hl
  obtain ⟨ri, rfl⟩ := hq.read_eq hop hl
  exact hsrc.sourceFits hr hr' ri l hl

/-- What holds at every place of a program that stands for another one, once it is analysed. -/
theorem Stands.place (h : p.Stands q r w) (hr : r.Regular) (hsrc : r.Supplies p.depths src)
    {pre rest : List Op} {op : Op} (hops : q.analyse.ops = pre ++ op :: rest) :
    Place ⟨pre.getLast?, op, rest⟩ (actAll src pre (Quad.const none)) := by
  have ha := h.analyse
  obtain ⟨r', w', inner, hq, hr', hw', hcount⟩ := ha.frame
  have hfits := ha.sourceFits hr hsrc
  have htyped := ha.typed
  have hrun := ha.runnable
  have hdefined := ha.defined src hsrc
  rw [← hcount] at hdefined
  have hfinal := hq.defined hops hrun.exact hdefined
  have hwrite := hq.not_write hops
  rw [hops] at htyped hrun hfits
  obtain ⟨hpre, hrest⟩ := List.forall_mem_append.mp hrun.exact
  obtain ⟨hprefits, -⟩ := List.forall_mem_append.mp hfits
  refine ⟨hrest, (List.forall_mem_append.mp hrun.limits).2, typedFrom_suffix htyped, ?_, hfinal,
    surveyed_analyse hops, fun hb i n hi hn => ?_⟩
  · refine actAll_inRange htyped hpre (fun o ho l hl i hi => (hprefits o ho l hl i hi).1) ?_
    intro i n hn
    rw [Quad.get_const] at hn
    cases hn
  · rcases hrun with ⟨-, hlink⟩ | hmoves
    · obtain ⟨hprelink, -⟩ := List.forall_mem_append.mp hlink
      refine input_encloses hops (fun o ho => ?_) htyped.init hi hn
      have hl := hprelink o ho
      refine ⟨hl.exact, hl.int, hl.limits, hl.constants, ?_, hwrite o ho⟩
      rw [h.depths]
      exact hprefits o ho
    · have hop := (hmoves op (List.mem_append_right _ List.mem_cons_self)).readsBounds
      rw [hop] at hb
      cases hb

/-- A program that was taken for a copy writes the source elements as they are. -/
theorem Framed.written_of_copy (hq : q.Framed r r []) (c : Fin 4) (hc : c.val < r.layout.count) :
    (actAll src q.ops (Quad.const none)) c = some (src c) := by
  obtain ⟨ri, wi, hops⟩ := hq.ops
  rw [hops, List.nil_append, actAll_cons, actAll_cons, actAll_nil, Op.act, Op.act, Quad.get_ofFn,
    if_pos hc, Quad.get_ofFn, if_pos hc]

/-- **A step leads to a program that can stand for the first one, or to a copy.** -/
theorem Stands.step (h : p.Stands q r w) (hr : r.Regular) {applied : Applied}
    (hstep : q.analyse.step = .ok (some (applied, q'))) :
    p.Stands q' r w ∨ p.Copies q' r w := by
  obtain ⟨pre, op, rest, out, before, after, hops, rfl, horder, hrule, hbefore⟩ := step_eq_some hstep
  have ha := h.analyse
  obtain ⟨r', w', inner, hq, hr', hw', hcount⟩ := ha.frame
  have hrew := Rule.rewrites hrule
  rcases hq.rewrite hops hrew (q := { q.analyse with ops := pre ++ out, analysed := false }) rfl with
    ⟨hcopy, r'', w'', inner', hq', hr'', hw'', hcount'⟩ | ⟨-, hnil, hrw, hinner⟩
  · have hrun := ha.runnable
    have htyped := ha.typed
    rw [hops] at hrun htyped
    have hsuffix := typedFrom_suffix htyped
    have hshift : applied.rule = .shiftPair → Site.shiftPairOverflow ⟨pre.getLast?, op, rest⟩ = none := by
      intro hpair
      rw [hpair] at horder
      exact Except.ok.inj (hbefore .shiftPairOverflow (Rule.mem_before (by decide) horder))
    have hexact := (List.forall_mem_append.mp hrun.exact).2
    have hneeds := (hrew.eases (surveyed_analyse hops)
      (fun o ho => Op.proper_of_isExact (hexact o ho)) hcopy (fun hscalar => by
        rw [hscalar] at horder
        exact Except.ok.inj (hbefore .affineConstantRows (Rule.mem_before (by decide) horder)))
      (filled_of_isExact hexact)).2
    have hkeep : ∀ src, r.Supplies p.depths src →
        actAll src (pre ++ out) (Quad.const none) =
          actAll src q.analyse.ops (Quad.const none) ∧
        Tame src (pre ++ out) (Quad.const none) := by
      intro src hsrc
      have htame := ha.tame src hsrc
      rw [hops] at htame ⊢
      exact (hrew.faithful (h.place hr hsrc hops) htame.drop hcopy).append hneeds htame
    refine .inl ⟨h.depths, ⟨r'', w'', inner', hq', hr''.trans hr', hw''.trans hw',
      hcount'.trans hcount⟩, ?_, ?_, fun src hsrc => (hkeep src hsrc).2, fun src hsrc => ?_,
      fun src hsrc => ?_⟩
    · exact TypedFrom.replace (hrew.typed hsuffix) htyped
    · exact hrun.rewrite (s := ⟨pre.getLast?, op, rest⟩) hrew hsuffix hshift
    · exact (hkeep src hsrc).1.trans (ha.written src hsrc)
    · have hdefined := ha.defined src hsrc
      rw [← (hkeep src hsrc).1] at hdefined
      exact hdefined
  · subst hrw
    subst hinner
    refine .inr ⟨hnil, ⟨r', hr', hw', hcount⟩, fun src hsrc c hc => ?_⟩
    rw [← ha.written src hsrc]
    exact hq.written_of_copy c (by omega)

/-! ## 6. All steps -/

/-- What is copied takes as much of a plane in the source as in the destination. -/
theorem Copies.bytesPerPlane_eq (h : p.Copies q r w) (n : Nat) :
    r.bytesPerPlane n = w.bytesPerPlane n := by
  obtain ⟨s, hr, hw, -⟩ := h.shape
  exact (hr.bytesPerPlane_eq n).symm.trans (hw.bytesPerPlane_eq n)

/-- **Simplification gives a program that can stand for the first one, or a copy.** -/
theorem Stands.simplify (h : p.Stands q r w) (hr : r.Regular) (hm : q.Measurable)
    (hdepth : ¬q.HidesDepth) :
    ∃ rules s, q.simplify = .ok (rules, s.analyse) ∧ (p.Stands s r w ∨ p.Copies s r w) := by
  obtain ⟨r', w', inner, hframed, -⟩ := h.frame
  rcases hframed.simplify_or hm with ⟨rules, t, hsimplify⟩ | ⟨-, hhides | ⟨op, hop, hnot⟩⟩
  · have hempty : ∀ q, p.Copies q r w → q.ops = [] := fun _ hq => hq.ops
    have hstep : ∀ q q' applied, p.Stands q r w → q.analyse.step = .ok (some (applied, q')) →
        p.Stands q' r w ∨ p.Copies q' r w := fun _ _ _ hq => hq.step hr
    obtain ⟨s, rfl, hs, -⟩ := keeps_of_simplify hempty hstep h hsimplify
    exact ⟨rules, s, hsimplify, hs⟩
  · exact absurd hhides hdepth
  · exact absurd (h.runnable.negatable hm op hop) hnot

end Program

end PixelConv
