import PixelConv.Proofs.Support
import PixelConv.Proofs.Validity

/-!
# Programs that are refused once they are simplified

The portable backend takes every program that it takes as it is also after simplification, with three
exceptions (`Compiler.simplify_refusals`). A transform that is split into two operations may make the
program longer than the longest chain. Constants of one element may be merged with those of another
one that has no words for them, where the elements do not fit together. And components may turn out
undefined where a transform or the fields of a pattern are not proper. Besides, simplification itself
may overflow. Each of them happens (`Compiler.simplify_refuses`).
-/

namespace PixelConv

/-! ## 1. What simplification keeps -/

/-- Supported operations. If `typed` holds, their elements fit together and they hold their constants.
If `plain` holds, there is no transform among them and there are at most `n`. -/
structure Ready (typed plain : Prop) (n : Nat) (ops : List Op) : Prop where
  supported : ∀ op ∈ ops, op.Supported
  constants : typed → (∃ e, TypedFrom e ops) ∧ ∀ op ∈ ops, op.HoldsConstants
  length : plain → (∀ op ∈ ops, op.verb ≠ .affine) ∧ ops.length ≤ n

namespace Ready

variable {typed plain : Prop} {n : Nat} {p q : Program}

theorem congr {l ops : List Op} (hc : codes l = codes ops) (h : Ready typed plain n l) :
    Ready typed plain n ops := by
  refine ⟨forall_of_codes Op.Supported.congr hc h.supported, fun ht => ?_, fun hp => ?_⟩
  · obtain ⟨⟨e, he⟩, hconstants⟩ := h.constants ht
    exact ⟨⟨e, typedFrom_congr hc he⟩, forall_of_codes Op.HoldsConstants.congr hc hconstants⟩
  · obtain ⟨hverb, hlength⟩ := h.length hp
    refine ⟨forall_of_codes (P := fun op => op.verb ≠ .affine) (fun hab ha => ?_) hc hverb, ?_⟩
    · exact fun hv => ha ((congrArg (fun code => code.2.verb) hab).trans hv)
    · rw [← length_codes, ← hc, length_codes]
      exact hlength

/-- A step keeps operations ready. -/
theorem step {applied : Applied} (h : Ready typed plain n p.ops)
    (hstep : p.analyse.step = .ok (some (applied, q))) : Ready typed plain n q.ops := by
  obtain ⟨pre, op, rest, out, before, after, hops, rfl, horder, hrule, hbefore⟩ :=
    Program.step_eq_some hstep
  have ha := h.congr (Program.codes_analyse p).symm
  have hrew := Rule.rewrites hrule
  have hsupported := ha.supported
  rw [hops] at hsupported
  obtain ⟨hpre, hplace⟩ := List.forall_mem_append.mp hsupported
  refine ⟨List.forall_mem_append.mpr ⟨hpre, hrew.supported hplace fun hpair => ?_⟩, fun ht => ?_,
    fun hp => ?_⟩
  · rw [hpair] at horder
    exact Except.ok.inj (hbefore .shiftPairOverflow (Rule.mem_before (by decide) horder))
  · obtain ⟨⟨e, htyped⟩, hconstants⟩ := ha.constants ht
    rw [hops] at htyped hconstants
    have hsuffix := typedFrom_suffix htyped
    obtain ⟨hpre', hplace'⟩ := List.forall_mem_append.mp hconstants
    refine ⟨⟨e, TypedFrom.replace (hrew.typed hsuffix) htyped⟩, List.forall_mem_append.mpr
      ⟨hpre', hrew.holdsConstants hsuffix (hplace op List.mem_cons_self) hplace'⟩⟩
  · obtain ⟨hverb, hlength⟩ := ha.length hp
    rw [hops] at hverb hlength
    obtain ⟨hpre', hplace'⟩ := List.forall_mem_append.mp hverb
    refine ⟨List.forall_mem_append.mpr ⟨hpre', hrew.not_affine hplace'⟩, ?_⟩
    have hle : out.length ≤ (op :: rest).length := hrew.length_le (hplace' op List.mem_cons_self)
    rw [List.length_append] at hlength ⊢
    omega

/-- Simplification keeps operations ready, and leaves no swaps of single bytes. -/
theorem of_simplify {r w : Shape} {inner : List Op} (h : Ready typed plain n p.ops)
    (hp : p.Framed r w inner) {rules : List Applied} {t : Program}
    (hs : p.simplify = .ok (rules, t)) :
    t.ops = [] ∨ (∃ r' w' inner', t.Framed r' w' inner') ∧ Ready typed plain n t.ops ∧
      ∀ op ∈ t.ops, op.kind = .swapBytes → op.elem ≠ .u8 := by
  have hstep : ∀ (q q' : Program) (applied : Applied),
      (∃ r' w' inner', q.Framed r' w' inner') ∧ Ready typed plain n q.ops →
      q.analyse.step = .ok (some (applied, q')) →
      ((∃ r' w' inner', q'.Framed r' w' inner') ∧ Ready typed plain n q'.ops) ∨ q'.ops = [] := by
    rintro q q' applied ⟨⟨r', w', inner', hq⟩, hready⟩ hs
    rcases hq.step hs with ⟨r'', w'', inner'', hq', -⟩ | hnil
    · exact .inl ⟨⟨r'', w'', inner'', hq'⟩, hready.step hs⟩
    · exact .inr hnil
  obtain ⟨q, rfl, hq, hend⟩ := Program.keeps_of_simplify (J := fun q => q.ops = [])
    (fun _ hq => hq) hstep ⟨⟨r, w, inner, hp⟩, h⟩ hs
  rcases hq with ⟨⟨r', w', inner', hq⟩, hready⟩ | hnil
  · have hc := (Program.codes_analyse q).symm
    obtain ⟨inner'', hqa, -⟩ := hq.congr hc
    refine .inr ⟨⟨r', w', inner'', hqa⟩, hready.congr hc, fun op hop hk he => ?_⟩
    -- such a swap would be removed
    obtain ⟨before, rest, hnone⟩ := Program.step_eq_none hend hop
    have hnoop : Rule.swapBytesNoop.apply ⟨before, op, rest⟩ = .ok none := hnone _ (by decide)
    simp only [Rule.apply, Site.swapBytesNoop, hk, he] at hnoop
    cases hnoop
  · exact .inl (Program.analyse_ops_of_nil hnil)

end Ready

/-! ## 2. What compiling comes to -/

namespace Compiler

variable {p : Program} {cpu : CpuSet}

/-- The check of a framed program finds undefined components or nothing. -/
theorem check_cases {r w : Shape} {inner : List Op} (hp : p.Framed r w inner) :
    p.check = .ok (.ok ()) ∨ p.check = .ok (.error .undefinedWrite) := by
  rw [hp.check_eq]
  by_cases ha : p.analysed = true
  · obtain ⟨ri, wi, hops⟩ := hp.ops
    have hcount : w.layout.count ≤ 4 := (Layout.wellFormed_iff.mp hp.write).2.1
    rw [← List.cons_append] at hops
    obtain ⟨front, before, hfront⟩ := (List.eq_nil_or_concat
      (Op.mk r.elem (.read r.layout) ri :: inner)).resolve_left (List.cons_ne_nil _ _)
    rw [List.concat_eq_append] at hfront
    have hinner : ∀ op ∈ front ++ [before], ∀ l, op.kind ≠ .write l := by
      rw [← hfront]
      exact List.forall_mem_cons.mpr ⟨nofun, fun op hop => Op.not_write (hp.inner op hop)⟩
    rw [hfront, List.append_assoc, List.singleton_append] at hops
    rw [if_pos ha, hops, Program.checkWritten_eq rfl hcount front hinner]
    split
    · exact .inr rfl
    · exact .inl rfl
  · rw [if_neg ha]
    exact .inl rfl

/-- **What compiling with simplification comes to** for ready operations that can be simplified. -/
theorem compile_of_ready {typed plain : Prop} {n : Nat} (h : Ready typed plain n p.ops)
    (hcheck : p.check = .ok (.ok ())) (hanalysed : p.analyse.check = .ok (.ok ()))
    {rules : List Applied} {q : Program} (hsimplify : p.simplify = .ok (rules, q)) (cpu : CpuSet) :
    ∃ report, (portable cpu true).compile p = .ok report ∧
      ((∃ fast, report.result = .ok fast) ∨
        report.result = .error (.unsupported .chainFull) ∧ Chain.maxLength < q.ops.length ∧
          ¬(plain ∧ n ≤ Chain.maxLength) ∨
        report.result = .error (.unsupported .clearOutOfRange) ∧ ¬typed ∨
        report.result = .error (.invalid .undefinedWrite) ∧ ∃ op ∈ p.ops, ¬op.Proper) := by
  obtain ⟨r, w, inner, hp, -⟩ := Program.check_eq_ok hcheck
  rcases h.of_simplify hp hsimplify with hnil | ⟨⟨r', w', inner', hq⟩, hready, hswap⟩
  · obtain ⟨report, hcompile, hresult⟩ : ∃ report, (portable cpu true).compile p = .ok report ∧
        report.result = .ok (Conversion.ofCopy r) := compile_of_copy hp hcheck hsimplify hnil
    exact ⟨report, hcompile, .inl ⟨_, hresult⟩⟩
  have hcompile : (portable cpu true).compile p = _ := compile_eq_finish hp hcheck rfl hsimplify
  have hops : q.ops ≠ [] := List.isEmpty_eq_false_iff.mp hq.isEmpty_ops
  rcases check_cases hq with hok | hundefined
  · rw [finish_of_check hops hok] at hcompile
    obtain ⟨matched, result, hbuild, hresult⟩ :=
      Backend.portable_outcome hq hready.supported hswap cpu
    rcases hresult with ⟨c, rfl⟩ | ⟨rfl, hlt⟩ | ⟨rfl, op, hop, hnot⟩
    · obtain ⟨report, htry, hresult⟩ := tryBackends_of_build hbuild
      exact ⟨report, hcompile.trans htry, .inl ⟨c, hresult⟩⟩
    · obtain ⟨report, htry, hresult⟩ := tryBackends_of_error hbuild
      refine ⟨report, hcompile.trans htry, .inr (.inl ⟨hresult, hlt, fun hplain => ?_⟩)⟩
      have hlength := (hready.length hplain.1).2
      omega
    · obtain ⟨report, htry, hresult⟩ := tryBackends_of_error hbuild
      refine ⟨report, hcompile.trans htry, .inr (.inr (.inl ⟨hresult, fun htyped => ?_⟩))⟩
      exact hnot ((hready.constants htyped).2 op hop)
  · rw [finish_of_malformed hops hundefined] at hcompile
    refine ⟨_, hcompile, .inr (.inr (.inr ⟨rfl, ?_⟩))⟩
    refine Classical.byContradiction fun hnone => ?_
    have hproper : ∀ op ∈ p.ops, op.Proper := fun op hop =>
      Classical.byContradiction fun hnot => hnone ⟨op, hop, hnot⟩
    obtain ⟨q', rfl, hq'⟩ := (Program.valid_of_check hanalysed hproper).of_simplify hsimplify
    rcases hq' with hvalid | hnil
    · rw [hvalid.check] at hundefined
      cases hundefined
    · exact hops (Program.analyse_ops_of_nil hnil)

/-- **What simplification may cost.** A program that compiles as it is also compiles with
simplification, unless simplification overflows, or except in three cases. It is refused for its
length if it simplifies to more operations than a chain has, which takes a transform, or more
operations than that to begin with of elements that do not fit together. It is refused for a constant
only if its elements do not fit together, and for undefined components only if some operation is not
proper. Simplification overflows always where a depth is hidden, and otherwise only where some number
has no negative. -/
theorem simplify_refusals {p : Program} {cpu : CpuSet} {report : Report} {plain : Conversion}
    (hplain : (portable cpu false).compile p = .ok report) (hresult : report.result = .ok plain) :
    ((∃ rules q report', p.simplify = .ok (rules, q) ∧ (portable cpu true).compile p = .ok report' ∧
      ((∃ fast, report'.result = .ok fast) ∨
        report'.result = .error (.unsupported .chainFull) ∧ Chain.maxLength < q.ops.length ∧
          ((∃ op ∈ p.ops, op.verb = .affine) ∨ Chain.maxLength < p.ops.length ∧ ¬p.Typed) ∨
        report'.result = .error (.unsupported .clearOutOfRange) ∧ ¬p.Typed ∨
        report'.result = .error (.invalid .undefinedWrite) ∧ ∃ op ∈ p.ops, ¬op.Proper)) ∨
      (portable cpu true).compile p = .error .overflow ∧
        (p.HidesDepth ∨ ∃ op ∈ p.ops, ¬op.Negatable)) ∧
    (p.HidesDepth → (portable cpu true).compile p = .error .overflow) := by
  have hcheck := check_of_compile hplain hresult
  obtain ⟨hm, hanalysed, matched, hbuild⟩ := of_compile_plain hplain hresult
  obtain ⟨r, w, inner, hp, -⟩ := Program.check_eq_ok hcheck
  refine ⟨?_, fun hdepth => compile_of_fault hp hcheck rfl (hdepth.simplify hp)⟩
  rcases (hp.simplify_or hm).symm with ⟨hsimplify, hwhy⟩ | ⟨rules, q, hsimplify⟩
  · exact .inr ⟨compile_of_fault hp hcheck rfl hsimplify, hwhy⟩
  have hc := Program.codes_analyse p
  obtain ⟨inner', hpa, -⟩ := hp.congr hc.symm
  -- without transforms and with few operations the length cannot be the reason
  have hlong : (Chain.maxLength < p.ops.length → ¬p.Typed) →
      ¬((∀ op ∈ p.ops, op.verb ≠ .affine) ∧ p.ops.length ≤ Chain.maxLength) →
      (∃ op ∈ p.ops, op.verb = .affine) ∨ Chain.maxLength < p.ops.length ∧ ¬p.Typed := by
    intro huntyped hnot
    by_cases haffine : ∃ op ∈ p.ops, op.verb = .affine
    · exact .inl haffine
    · have hlt : Chain.maxLength < p.ops.length := Nat.lt_of_not_le fun hle =>
        hnot ⟨fun op hop hv => haffine ⟨op, hop, hv⟩, hle⟩
      exact .inr ⟨hlt, huntyped hlt⟩
  rcases Backend.portable_build_eq_ok hpa hbuild with ⟨s, comps, hs, -⟩ | ⟨chain, hlinked, hlength, -⟩
  · have hmoves : ∀ op ∈ p.ops, op.MovesBytes :=
      forall_of_codes Op.MovesBytes.congr hc (Backend.movesBytes_of_solved hpa hs)
    by_cases htyped : p.Typed
    · obtain ⟨hstands, hr⟩ := hp.stands_of_movesBytes htyped hmoves hanalysed
      have hdepth : ¬p.HidesDepth := fun hdepth => by
        rw [hdepth.simplify hp] at hsimplify
        cases hsimplify
      obtain ⟨report', fast, hcompile, hfast⟩ := hstands.compiles hr hp hcheck hm hdepth cpu
      exact .inl ⟨rules, q, report', hsimplify, hcompile, .inl ⟨fast, hfast⟩⟩
    · have hready : Ready False (∀ op ∈ p.ops, op.verb ≠ .affine) p.ops.length p.ops :=
        ⟨fun op hop => (hmoves op hop).supported, False.elim, fun hnone => ⟨hnone, Nat.le_refl _⟩⟩
      obtain ⟨report', hcompile, hcases⟩ := compile_of_ready hready hcheck hanalysed hsimplify cpu
      refine .inl ⟨rules, q, report', hsimplify, hcompile, ?_⟩
      rcases hcases with hok | ⟨hfull, hlt, hnot⟩ | ⟨hclear, -⟩ | hundefined
      · exact .inl hok
      · exact .inr (.inl ⟨hfull, hlt, hlong (fun _ => htyped) hnot⟩)
      · exact .inr (.inr (.inl ⟨hclear, htyped⟩))
      · exact .inr (.inr (.inr hundefined))
  · rw [← length_codes, hc, length_codes] at hlength
    have hops : ∀ op ∈ p.ops, op.Supported ∧ op.HoldsConstants :=
      forall_of_codes (P := fun op => op.Supported ∧ op.HoldsConstants)
        (fun hab h => ⟨h.1.congr hab, h.2.congr hab⟩) hc hlinked.supported
    have hready : Ready p.Typed (∀ op ∈ p.ops, op.verb ≠ .affine) p.ops.length p.ops :=
      ⟨fun op hop => (hops op hop).1, fun htyped => ⟨htyped, fun op hop => (hops op hop).2⟩,
        fun hnone => ⟨hnone, Nat.le_refl _⟩⟩
    obtain ⟨report', hcompile, hcases⟩ := compile_of_ready hready hcheck hanalysed hsimplify cpu
    refine .inl ⟨rules, q, report', hsimplify, hcompile, ?_⟩
    rcases hcases with hok | ⟨hfull, hlt, hnot⟩ | hrest
    · exact .inl hok
    · exact .inr (.inl ⟨hfull, hlt, hlong (fun h => absurd hlength (Nat.not_le.mpr h)) hnot⟩)
    · exact .inr (.inr hrest)

/-- Limits the first of two components again and again before other operations on both. -/
def limited (ops : List Op) : Program :=
  .ofOps (.ofKind .f32 (.read ⟨2, false, 0⟩) ::
    (List.range 13).map (fun i =>
      .ofKind .f32 (.atMost ⟨some (.ofNat (20 - i)), none, none, none⟩)) ++
    ops ++ [.ofKind .f32 (.write ⟨2, false, 0⟩)])

/-- Multiplies two components, by different factors, and exchanges them: as many operations as a chain
has. -/
def longMix : Program :=
  limited [.ofKind .f32 (.affine (.ofRows { Affine.identity.rows with
    c0 := ⟨⟨⟨0, 1⟩, ⟨2, 1⟩, ⟨0, 1⟩, ⟨0, 1⟩⟩, ⟨0, 1⟩⟩
    c1 := ⟨⟨⟨3, 1⟩, ⟨0, 1⟩, ⟨0, 1⟩, ⟨0, 1⟩⟩, ⟨0, 1⟩⟩ }))]

/-- The same with the exchange split off: one operation more. -/
def longSplit : Program :=
  limited [.ofKind .f32 (.swizzle ⟨⟨1, 0, 2, 3⟩⟩),
    .ofKind .f32 (.affine (.ofRows { Affine.identity.rows with
      c0 := ⟨⟨⟨2, 1⟩, ⟨0, 1⟩, ⟨0, 1⟩, ⟨0, 1⟩⟩, ⟨0, 1⟩⟩
      c1 := ⟨⟨⟨0, 1⟩, ⟨3, 1⟩, ⟨0, 1⟩, ⟨0, 1⟩⟩, ⟨0, 1⟩⟩ }))]

theorem longMix_refused : ∃ report, (portable CpuSet.none true).compile longMix = .ok report ∧
    report.result = .error (.unsupported .chainFull) :=
  refused_of_codes (q := longSplit) rfl (by decide +kernel) rfl (by decide +kernel)

theorem longMix_refusals : ∃ report plain rules q report',
    (portable CpuSet.none false).compile longMix = .ok report ∧ report.result = .ok plain ∧
    longMix.simplify = .ok (rules, q) ∧
    (portable CpuSet.none true).compile longMix = .ok report' ∧
    report'.result = .error (.unsupported .chainFull) ∧ Chain.maxLength < q.ops.length := by
  obtain ⟨report, plain, hplain, hresult, -⟩ := exists_report (c := portable CpuSet.none false)
    (p := longMix) (g := fun _ => true) (a := true) (by decide +kernel)
  obtain ⟨refused, hcompile, hfull⟩ := longMix_refused
  rcases (simplify_refusals hplain hresult).1 with
    ⟨rules, q, report', hsimplify, hcompile', hcases⟩ | ⟨hoverflow, -⟩
  · obtain rfl := Except.ok.inj (hcompile.symm.trans hcompile')
    rw [hfull] at hcases
    rcases hcases with ⟨fast, hfast⟩ | ⟨-, hlt, -⟩ | ⟨hclear, -⟩ | ⟨hundefined, -⟩
    · cases hfast
    · exact ⟨report, plain, rules, q, refused, hplain, hresult, hsimplify, hcompile, hfull, hlt⟩
    · cases hclear
    · cases hundefined
  · rw [hoverflow] at hcompile
    cases hcompile

/-! ## 3. Programs that are refused -/

/-- Constants of two elements in a row. -/
def mixedConstants : Program :=
  .ofOps [.ofKind .u8 (.read ⟨1, false, 0⟩),
    .ofKind .u8 (.clear ⟨none, some (.ofNat 1), none, none⟩),
    .ofKind .u16 (.clear ⟨none, none, some (.ofNat 300), none⟩), .ofKind .u8 (.write ⟨3, false, 0⟩)]

/-- Copies the first component to the second one, with a mask that says that nothing happens. -/
def hiddenCopy : Program :=
  .ofOps [.ofKind .f32 (.read ⟨1, false, 0⟩),
    .ofKind .f32 (.affine ⟨{ Affine.identity.rows with
      c1 := ⟨⟨⟨1, 1⟩, ⟨0, 1⟩, ⟨0, 1⟩, ⟨0, 1⟩⟩, ⟨0, 1⟩⟩ }, 0#32⟩),
    .ofKind .f32 (.write ⟨2, false, 0⟩)]

/-- Reverses bytes as those of elements of two sizes in turn, before other operations. -/
def swapping (ops : List Op) : Program :=
  .ofOps (.ofKind .u16 (.read ⟨1, false, 0⟩) ::
    (List.range 16).map (fun i => .ofKind (if i % 2 = 0 then .u16 else .u32) .swapBytes) ++
    ops ++ [.ofKind .u16 (.write ⟨3, true, 0⟩)])

/-- Only moves bytes, in more operations than a chain has. -/
def mixedSwaps : Program :=
  swapping [.ofKind .u8 (.clear ⟨none, some (.ofNat 0), none, none⟩),
    .ofKind .u16 (.clear ⟨none, none, some (.ofNat 65535), none⟩)]

/-- The same with the constants merged into one that fills no byte alike. -/
def mergedSwaps : Program :=
  swapping [.ofKind .u8 (.clear ⟨none, some (.ofNat 0), some (.ofNat 65535), none⟩)]

/-- The program compiles as it is. -/
def CompilesPlain (p : Program) : Prop :=
  ∃ report plain, (portable CpuSet.none false).compile p = .ok report ∧ report.result = .ok plain

theorem compilesPlain_of {p : Program} (h : (((portable CpuSet.none false).compile p).toOption.bind
    fun report => report.result.toOption.map fun _ => true) = some true) : CompilesPlain p := by
  obtain ⟨report, plain, hcompile, hresult, -⟩ := exists_report h
  exact ⟨report, plain, hcompile, hresult⟩

/-- The program is refused with `e` once it is simplified. -/
def RefusedSimplified (p : Program) (e : CompileError) : Prop :=
  ∃ report, (portable CpuSet.none true).compile p = .ok report ∧ report.result = .error e

/-- No chain is built for the program once it is to be simplified: that overflows. -/
def OverflowsSimplified (p : Program) : Prop := (portable CpuSet.none true).compile p = .error .overflow

theorem overflowsSimplified_of {p : Program} (hcheck : p.check = .ok (.ok ()))
    (h : p.simplify.toOption.isNone = true) : OverflowsSimplified p := by
  obtain ⟨r, w, inner, hp, -⟩ := Program.check_eq_ok hcheck
  exact compile_of_fault hp hcheck rfl (Program.simplify_eq_overflow hcheck h)

/-- **Simplification may cost a conversion**, for each of the reasons. -/
theorem simplify_refuses :
    (CompilesPlain longMix ∧ RefusedSimplified longMix (.unsupported .chainFull)) ∧
    (CompilesPlain mixedSwaps ∧ RefusedSimplified mixedSwaps (.unsupported .chainFull)) ∧
    (CompilesPlain mixedConstants ∧
      RefusedSimplified mixedConstants (.unsupported .clearOutOfRange)) ∧
    (CompilesPlain hiddenCopy ∧ RefusedSimplified hiddenCopy (.invalid .undefinedWrite)) ∧
    (CompilesPlain Program.deepByte ∧ OverflowsSimplified Program.deepByte) ∧
    (CompilesPlain Program.leastBound ∧ OverflowsSimplified Program.leastBound) := by
  have hswaps : RefusedSimplified mixedSwaps (.unsupported .chainFull) :=
    refused_of_codes (q := mergedSwaps) rfl (by decide +kernel) rfl (by decide +kernel)
  exact ⟨⟨compilesPlain_of (by decide +kernel), longMix_refused⟩,
    ⟨compilesPlain_of (by decide +kernel), hswaps⟩,
    ⟨compilesPlain_of (by decide +kernel), exists_refusal (by decide +kernel)⟩,
    ⟨compilesPlain_of (by decide +kernel), exists_refusal (by decide +kernel)⟩,
    ⟨compilesPlain_of (by decide +kernel), overflowsSimplified_of rfl (by decide +kernel)⟩,
    compilesPlain_of (by decide +kernel), overflowsSimplified_of rfl (by decide +kernel)⟩

end Compiler

end PixelConv
