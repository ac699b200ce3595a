import PixelConv.Proofs.Compilation
import PixelConv.Proofs.Demand
import PixelConv.Proofs.Isolation

/-!
# Simplification keeps valid programs valid

Whether a program writes undefined components can be told from what its operations read alone: the
check accepts an analysed program exactly if nothing is read of what comes before its operations and
every component that is read after an operation is one that this operation can define
(`Program.Framed.check_iff`). Rules of the simplifier keep that (`Rewrites.eases`), so what a checked
program simplifies to is a copy or passes the check again (`Program.simplify_keeps_valid`).
-/

namespace PixelConv

/-! ## 1. One operation -/

/-- The fields that an operation splits its first component into come without gaps. -/
def Op.Gapless (op : Op) : Prop := ∀ widths, op.kind = .unpack widths → BitField.Leading widths

theorem Op.Proper.gapless {op : Op} (h : op.Proper) : op.Gapless := fun widths hk =>
  (h.fields widths (.inl hk)).2

namespace Op

variable {op : Op} {prev : Info} {out : Quad Bool} {i : Fin 4}

/-- What is defined after an operation is one of its outputs. -/
theorem fills_of_defined (hgapless : op.Gapless)
    (h : ((op.knownAfter prev) i).garbage = false) : op.Fills i := by
  obtain ⟨elem, kind, info⟩ := op
  cases kind with
  | unpack widths =>
    refine BitField.lt_count_of_pos (hgapless widths rfl) (Nat.pos_of_ne_zero fun hzero => ?_)
    simp only [knownAfter, Quad.get_map, hzero, Nat.lt_irrefl, if_false] at h
    cases h
  | pack widths =>
    refine Classical.byContradiction fun hne => ?_
    have hne : ¬i = 0 := hne
    rw [knownAfter, Quad.get_first, if_neg hne] at h
    cases h
  | _ => exact True.intro

/-- **An operation whose inputs are defined defines its outputs.** The converse of
`Op.needs_defined`. -/
theorem defined_of_needs (hwrite : ∀ l, op.kind ≠ .write l)
    (h : ∀ j, (op.needs out) j = true → (prev.known j).garbage = false) (hi : out i = true)
    (hfills : op.Fills i) : ((op.knownAfter prev) i).garbage = false := by
  obtain ⟨elem, kind, info⟩ := op
  cases kind with
  | write l => exact absurd rfl (hwrite l)
  | read l =>
    simp only [knownAfter, Quad.get_ofFn]
    split
    · split <;> rfl
    · rename_i hge
      refine h i ?_
      simp only [needs, Quad.get_ofFn, hi, decide_eq_true (Nat.not_lt.mp hge), Bool.and_self]
  | swapBytes | shiftLeft | shiftRight => exact h i hi
  | atMost bounds | atLeast bounds =>
    simp only [knownAfter, Quad.get_zipWith, garbage_clamped]
    exact h i hi
  | dither d =>
    simp only [knownAfter, Quad.get_map]
    exact h i hi
  | scale factor =>
    simp only [knownAfter]
    split
    · exact h i hi
    · rw [Quad.get_map]
      exact h i hi
  | convert target expand =>
    simp only [knownAfter]
    split
    · rw [Quad.get_map]
      split <;> exact h i hi
    · exact h i hi
  | clear values =>
    simp only [knownAfter, Quad.get_zipWith]
    split
    · rename_i hnone
      refine h i ?_
      simp only [needs, Quad.get_ofFn, hi, hnone, Option.isNone_none, Bool.and_self]
    · split
      · rfl
      · split <;> rfl
  | swizzle s =>
    simp only [knownAfter, Swizzle.get_apply]
    refine h _ ?_
    simp only [needs, Quad.get_ofFn, Quad.any_indices]
    exact ⟨i, by rw [decide_eq_true rfl, hi]; rfl⟩
  | unpack widths =>
    simp only [knownAfter, Quad.get_map, if_pos (BitField.pos_of_lt_count hfills)]
    exact h 0 (Quad.any_take.mpr ⟨i, hfills, hi⟩)
  | pack widths =>
    obtain rfl : i = 0 := hfills
    rw [show (knownAfter _ prev) 0 = List.foldl Known.merge Known.null _ from rfl,
      Known.foldl_merge]
    refine Bool.eq_false_iff.mpr fun hg => ?_
    obtain ⟨j, hj, hg⟩ := Quad.any_take.mp (show (List.take _ _).any _ = true from hg)
    have hneeds : (needs ⟨elem, .pack widths, info⟩ out) j = true := by
      simp only [needs, Quad.get_ofFn, decide_eq_true hj, Bool.true_and]
      exact hi
    rw [h j hneeds] at hg
    cases hg
  | affine t =>
    simp only [knownAfter, Quad.get_map]
    refine Bool.eq_false_iff.mpr fun hg => ?_
    obtain ⟨j, hmixes, hg⟩ := AffineRow.garbage_rowKnown.mp hg
    have hweight : ((t.rows i).weight j).isZero = false := by
      rw [AffineRow.mixes, Bool.not_eq_true', Bool.or_eq_false_iff] at hmixes
      exact hmixes.1
    have hneeds : (needs ⟨elem, .affine t, info⟩ out) j = true := by
      simp only [needs, Quad.get_ofFn, Quad.any_indices]
      exact ⟨i, by rw [hi, hweight]; rfl⟩
    rw [h j hneeds] at hg
    cases hg

end Op

/-! ## 2. Lists of operations -/

/-- Operations that read nothing of what comes before them, and nothing that is never defined. -/
structure Closed (ops : List Op) : Prop where
  filled : Filled ops
  needs : ∀ i, needed ops i = false

theorem Closed.congr {l r : List Op} (hc : codes l = codes r) (h : Closed l) : Closed r :=
  ⟨h.filled.congr hc, fun i => by rw [← needed_congr hc]; exact h.needs i⟩

theorem Eases.closed {old new : List Op} (h : Eases old new) (hold : Closed old) : Closed new := by
  obtain ⟨hfilled, hneeds⟩ := h hold.filled
  refine ⟨hfilled, fun i => Bool.eq_false_iff.mpr fun hi => ?_⟩
  have hold := hold.needs i
  rw [hneeds i hi] at hold
  cases hold

section Written

variable {depths : Option Depths} {last : Op} {l : Layout} {front : List Op} {prev : Info}

/-- If everything that is written is defined, what is read after an operation is one of its
outputs. -/
theorem filled_of_defined (hlast : last.kind = .write l)
    (hfront : ∀ op ∈ front, ∀ l, op.kind ≠ .write l) (hgapless : ∀ op ∈ front, op.Gapless)
    (hcoherent : ∀ i, (prev.known i).Coherent)
    (hend : ∀ c : Fin 4, c.val < l.count → ((infoOf depths prev front).known c).garbage = false) :
    Filled (front ++ [last]) := by
  induction front generalizing prev with
  | nil =>
    refine ⟨fun i _ => Op.fills_of_verb ?_ i, True.intro⟩
    rw [Op.verb, hlast]
    rfl
  | cons op front ih =>
    obtain ⟨-, hfront⟩ := List.forall_mem_cons.mp hfront
    obtain ⟨hop, hgapless⟩ := List.forall_mem_cons.mp hgapless
    rw [infoOf_cons] at hend
    have hcoherent' : ∀ i, ((op.infoAfter depths prev).known i).Coherent :=
      Op.coherent_knownAfter hcoherent
    exact ⟨fun i hi => Op.fills_of_defined hop
        (needed_defined hlast hfront hcoherent' hend i hi),
      ih hfront hgapless hcoherent' hend⟩

/-- From defined components, operations of which only outputs are read lead to a write of defined
components. -/
theorem defined_of_filled (hlast : last.kind = .write l)
    (hfront : ∀ op ∈ front, ∀ l, op.kind ≠ .write l) (hfilled : Filled (front ++ [last]))
    (hstart : ∀ c, needed (front ++ [last]) c = true → (prev.known c).garbage = false) (c : Fin 4)
    (hc : c.val < l.count) : ((infoOf depths prev front).known c).garbage = false := by
  induction front generalizing prev with
  | nil =>
    refine hstart c ?_
    rw [List.nil_append, needed_cons, Op.needs, hlast, Quad.get_ofFn]
    exact decide_eq_true hc
  | cons op front ih =>
    obtain ⟨hop, hfront⟩ := List.forall_mem_cons.mp hfront
    rw [infoOf_cons]
    exact ih hfront hfilled.2 fun i hi => Op.defined_of_needs hop hstart hi (hfilled.1 i hi)

end Written

/-! ## 3. Rules -/

/-- **What a rule makes of proper operations is proper.** -/
theorem Rewrites.proper {s : Site} {rule : Rule} {ops : List Op} (h : Rewrites s rule ops)
    (hops : ∀ op ∈ s.op :: s.after, op.Proper) :
    ∀ op ∈ ops, op.Proper := by
  obtain ⟨hop, hafter⟩ := List.forall_mem_cons.mp hops
  have hrest := Site.forall_next hafter
  cases h with
  | swapBytesNoop | shiftNoop | clearNoop | swizzleIdentity | convertNoop | ditherExact
  | affineIdentity | scaleNoop | clampAbove | clampBelow => exact hafter
  | plainCopy _ ha | swapBytesPair _ ha | unpackPack _ ha => exact (hrest ha).2
  | readSingleElement | readUnusedPlanes | writeSingleElement | clearUnused | affineScalar
  | scaleShiftLeft | scaleShiftRight =>
    exact List.forall_mem_cons.mpr ⟨.of_verb rfl rfl, hafter⟩
  | shiftPairOverflow ha | shiftPairLeft _ ha | shiftPairRight _ ha | clearPair _ ha
  | swizzlePair _ ha | convertPair _ ha | convertExpand _ ha | scalePair _ ha =>
    exact List.forall_mem_cons.mpr ⟨.of_verb rfl rfl, (hrest ha).2⟩
  | clearSwizzle _ ha | clearFold _ ha | scaleAfterConvert _ ha =>
    exact List.forall_mem_cons.mpr ⟨(hrest ha).1,
      List.forall_mem_cons.mpr ⟨.of_verb rfl rfl, (hrest ha).2⟩⟩
  | swizzleCommute _ ha hn hm =>
    obtain ⟨hverb, -⟩ := Site.movedBefore?_verb hm
    refine List.forall_mem_cons.mpr ⟨.of_componentwise ?_,
      List.forall_mem_cons.mpr ⟨.of_verb rfl rfl, (hrest ha).2⟩⟩
    rw [hverb]
    exact hn
  | affinePair hk ha _ hn =>
    obtain ⟨hnext, hrest⟩ := hrest ha
    exact List.forall_mem_cons.mpr
      ⟨.of_affine rfl ((hop.transform _ hk).andThen (hnext.transform _ hn)), hrest⟩
  | affineResetUnused hk =>
    exact List.forall_mem_cons.mpr ⟨.of_affine rfl ((hop.transform _ hk).restricted _ _), hafter⟩
  | affineConstantRows hk hc =>
    refine List.forall_mem_cons.mpr ⟨.of_affine rfl ?_,
      List.forall_mem_cons.mpr ⟨.of_verb rfl rfl, hafter⟩⟩
    exact (Affine.constantRows?_eq_some hc).1 (hop.transform _ hk)
  | affineSwizzle hk hw =>
    refine List.forall_mem_cons.mpr ⟨.of_verb rfl rfl,
      List.forall_mem_cons.mpr ⟨.of_affine rfl ?_, hafter⟩⟩
    exact (Affine.swizzle?_eq_some hw).1 (hop.transform _ hk)

/-! ## 4. Programs -/

namespace Program

variable {p : Program}

/-- A program that writes only defined components passes the check for that. -/
theorem checkWritten_of_defined {pre : List Op} {last : Op} {l : Layout}
    (hops : p.analyse.ops = pre ++ [last]) (hlast : last.kind = .write l) (hcount : l.count ≤ 4)
    (hpre : pre ≠ []) (hinner : ∀ op ∈ pre, ∀ l, op.kind ≠ .write l)
    (h : ∀ c : Fin 4, c.val < l.count →
      ((infoOf p.depths Info.start pre).known c).garbage = false) :
    checkWritten p.analyse.ops = .ok (.ok ()) := by
  obtain ⟨front, before, rfl⟩ := (List.eq_nil_or_concat pre).resolve_left hpre
  rw [List.concat_eq_append] at hops hinner h
  rw [List.append_assoc, List.singleton_append] at hops
  rw [hops, checkWritten_eq hlast hcount front hinner, if_neg]
  intro hany
  obtain ⟨c, hc, hgarbage⟩ := Quad.any_take.mp hany
  have hread : needed [last] c = true := by
    rw [needed_cons, Op.needs, hlast, Quad.get_ofFn]
    exact decide_eq_true hc
  rw [info_analyse hops] at hgarbage
  simp only [Info.restrict, Quad.get_ofFn, if_pos hread] at hgarbage
  rw [h c hc] at hgarbage
  cases hgarbage

/-- **The check accepts an analysed program exactly if its operations are closed.** -/
theorem Framed.check_iff {r w : Shape} {inner : List Op} (hp : p.analyse.Framed r w inner)
    (hgapless : ∀ op ∈ inner, op.Gapless) :
    p.analyse.check = .ok (.ok ()) ↔ Closed p.analyse.ops := by
  obtain ⟨ri, wi, hops⟩ := hp.ops
  rw [← List.cons_append] at hops
  have hcount : w.layout.count ≤ 4 := (Layout.wellFormed_iff.mp hp.write).2.1
  have hfront : ∀ op ∈ Op.mk r.elem (.read r.layout) ri :: inner, ∀ l, op.kind ≠ .write l :=
    List.forall_mem_cons.mpr
      ⟨fun _ hk => Kind.noConfusion hk, fun op hop => Op.not_write (hp.inner op hop)⟩
  have hstart : ∀ c, (Info.start.known c).garbage = true := fun c => by
    rw [Info.known_start]
    rfl
  constructor
  · intro hcheck
    obtain ⟨-, -, -, -, hwritten⟩ := check_eq_ok hcheck
    have hend := written_defined hops rfl hcount (List.cons_ne_nil _ _) hfront (hwritten rfl)
    rw [hops]
    have hread : (Op.mk r.elem (.read r.layout) ri).Gapless := fun _ hk => Kind.noConfusion hk
    refine ⟨filled_of_defined rfl hfront (List.forall_mem_cons.mpr ⟨hread, hgapless⟩)
      Info.coherent_start hend, fun c => Bool.eq_false_iff.mpr fun hc => ?_⟩
    have hdefined := needed_defined rfl hfront Info.coherent_start hend c hc
    rw [hstart c] at hdefined
    cases hdefined
  · intro hclosed
    refine hp.check fun _ => ?_
    refine checkWritten_of_defined hops rfl hcount (List.cons_ne_nil _ _) hfront ?_
    rw [hops] at hclosed
    refine defined_of_filled rfl hfront hclosed.filled fun c hc => ?_
    rw [hclosed.needs c] at hc
    cases hc

/-- A program that passes the check once it is analysed, with proper operations. -/
structure Valid (p : Program) : Prop where
  frame : ∃ r w inner, p.Framed r w inner
  proper : ∀ op ∈ p.ops, op.Proper
  closed : Closed p.ops

theorem Valid.congr {p q : Program} (hc : codes p.ops = codes q.ops) (h : p.Valid) : q.Valid := by
  obtain ⟨r, w, inner, hp⟩ := h.frame
  obtain ⟨inner', hq, -⟩ := hp.congr hc
  exact ⟨⟨r, w, inner', hq⟩, forall_of_codes Op.Proper.congr hc h.proper, h.closed.congr hc⟩

theorem Valid.analyse (h : p.Valid) : p.analyse.Valid := h.congr (codes_analyse p).symm

theorem Framed.gapless {r w : Shape} {inner : List Op} (h : p.Framed r w inner)
    (hproper : ∀ op ∈ p.ops, op.Proper) : ∀ op ∈ inner, op.Gapless := by
  obtain ⟨ri, wi, hops⟩ := h.ops
  intro op hop
  refine (hproper op ?_).gapless
  rw [hops]
  exact List.mem_cons_of_mem _ (List.mem_append_left _ hop)

theorem Valid.check (h : p.Valid) : p.analyse.check = .ok (.ok ()) := by
  obtain ⟨r, w, inner, hp⟩ := h.analyse.frame
  exact (hp.check_iff (hp.gapless h.analyse.proper)).mpr h.analyse.closed

theorem valid_of_check (hcheck : p.analyse.check = .ok (.ok ())) (hproper : ∀ op ∈ p.ops, op.Proper) :
    p.Valid := by
  obtain ⟨r, w, inner, hp, -⟩ := check_eq_ok hcheck
  have hproper' := forall_of_codes Op.Proper.congr (codes_analyse p).symm hproper
  have hclosed := (hp.check_iff (hp.gapless hproper')).mp hcheck
  exact Valid.congr (codes_analyse p) ⟨⟨r, w, inner, hp⟩, hproper', hclosed⟩

/-- **A step leads from a valid program to a valid one, or to nothing.** -/
theorem Valid.step {q : Program} {applied : Applied} (h : p.Valid)
    (hstep : p.analyse.step = .ok (some (applied, q))) : q.Valid ∨ q.ops = [] := by
  obtain ⟨pre, op, rest, out, before, after, hops, rfl, horder, hrule, hbefore⟩ := step_eq_some hstep
  have ha := h.analyse
  have hproper := ha.proper
  have hclosed := ha.closed
  rw [hops] at hproper hclosed
  obtain ⟨hpre, hplace⟩ := List.forall_mem_append.mp hproper
  obtain ⟨r, w, inner, hp⟩ := ha.frame
  have hrew := Rule.rewrites hrule
  rcases hp.rewrite hops hrew (q := { p.analyse with ops := pre ++ out, analysed := false }) rfl with
    ⟨hcopy, r', w', inner', hq, -⟩ | ⟨-, hnil, -⟩
  · have heases := hrew.eases (surveyed_analyse hops) hplace hcopy fun hscalar => by
      rw [hscalar] at horder
      exact Except.ok.inj (hbefore .affineConstantRows (Rule.mem_before (by decide) horder))
    exact .inl ⟨⟨r', w', inner', hq⟩, List.forall_mem_append.mpr ⟨hpre, hrew.proper hplace⟩,
      (heases.append pre).closed hclosed⟩
  · exact .inr hnil

/-- **Simplification leads from a valid program to a valid one, or to nothing.** -/
theorem Valid.of_simplify (h : p.Valid) {rules : List Applied} {t : Program}
    (hs : p.simplify = .ok (rules, t)) : ∃ q : Program, t = q.analyse ∧ (q.Valid ∨ q.ops = []) := by
  have hstep : ∀ (q q' : Program) (applied : Applied), q.Valid →
      q.analyse.step = .ok (some (applied, q')) → q'.Valid ∨ q'.ops = [] := fun _ _ _ hq => hq.step
  obtain ⟨q, rfl, hq, -⟩ := keeps_of_simplify (J := fun q => q.ops = []) (fun _ hq => hq) hstep h hs
  exact ⟨q, rfl, hq⟩

/-- **Simplification keeps valid programs valid.** Of a program with proper operations that passes
the check once it is analysed, simplification leaves nothing or an analysed program that passes the
check again, and a compiler that simplifies goes on to the copy or to the backends. Or simplification
overflows, and so does the compiler. It always does where a depth is hidden, and otherwise only where
some number has no negative. -/
theorem simplify_keeps_valid {p analysed : Program} (hanalysis : p.analysis = .ok analysed)
    (hcheck : analysed.check = .ok (.ok ())) (hproper : ∀ op ∈ p.ops, op.Proper) :
    ∃ r w, p.ends = .ok (r, w) ∧
      ((∃ rules q, p.simplify = .ok (rules, q) ∧ q.analysed = true ∧
        (q.ops = [] ∨ q.check = .ok (.ok ())) ∧
        ∀ c : Compiler, c.simplify = true → p.check = .ok (.ok ()) → ∃ log, c.compile p =
          if q.ops = [] then .ok ⟨.ok (Conversion.ofCopy r), log⟩
          else Compiler.tryBackends c.cpu q log (.unsupported .noBackend) none c.backends) ∨
      p.simplify = .error .overflow ∧ (p.HidesDepth ∨ ∃ op ∈ p.ops, ¬op.Negatable) ∧
        ∀ c : Compiler, c.simplify = true → p.check = .ok (.ok ()) → c.compile p = .error .overflow) ∧
      (p.HidesDepth → p.simplify = .error .overflow) := by
  obtain ⟨hm, rfl⟩ := analysis_eq_ok_iff.mp hanalysis
  have hvalid := valid_of_check hcheck hproper
  obtain ⟨r, w, inner, hp⟩ := hvalid.frame
  refine ⟨r, w, hp.ends, ?_, fun hdepth => hdepth.simplify hp⟩
  rcases hp.simplify_or hm with ⟨rules, t, hsimplify⟩ | ⟨hsimplify, hwhy⟩
  · obtain ⟨q, rfl, hq⟩ := hvalid.of_simplify hsimplify
    have hend : q.analyse.ops = [] ∨ q.analyse.check = .ok (.ok ()) :=
      hq.symm.imp analyse_ops_of_nil Valid.check
    refine .inl ⟨rules, q.analyse, hsimplify, rfl, hend, fun c hc hfirst =>
      ⟨⟨rules, [], [], [], [], some q.analyse.text⟩, ?_⟩⟩
    rw [Compiler.compile_eq_finish hp hfirst hc hsimplify]
    by_cases hnil : q.analyse.ops = []
    · rw [if_pos hnil, Compiler.finish_of_nil hnil]
    · rw [if_neg hnil, Compiler.finish_of_check hnil (hend.resolve_left hnil)]
  · exact .inr ⟨hsimplify, hwhy, fun c hc hfirst => Compiler.compile_of_fault hp hfirst hc hsimplify⟩

/-- Mixes the first two components, moves the third one and sets another one in its place. -/
def paletteRows : Quad AffineRow where
  c0 := ⟨⟨⟨1, 2⟩, ⟨1, 2⟩, ⟨0, 1⟩, ⟨0, 1⟩⟩, ⟨0, 1⟩⟩
  c1 := ⟨⟨⟨0, 1⟩, ⟨0, 1⟩, ⟨3, 1⟩, ⟨0, 1⟩⟩, ⟨0, 1⟩⟩
  c2 := ⟨⟨⟨0, 1⟩, ⟨0, 1⟩, ⟨0, 1⟩, ⟨0, 1⟩⟩, ⟨7, 1⟩⟩
  c3 := ⟨⟨⟨0, 1⟩, ⟨0, 1⟩, ⟨0, 1⟩, ⟨1, 1⟩⟩, ⟨0, 1⟩⟩

/-- Splits a byte into fields of three, three and two bits and makes three components of them. -/
def palette : Program :=
  .ofOps [.ofKind .u8 (.read ⟨1, false, 0⟩), .ofKind .u8 (.unpack ⟨3, 3, 2, 0⟩),
    .ofKind .u8 (.convert .f32 false), .ofKind .f32 (.affine (.ofRows paletteRows)),
    .ofKind .f32 (.convert .u8 false), .ofKind .u8 (.write ⟨3, true, 0⟩)]

theorem palette_keeps_valid : palette.analysis = .ok palette.analyse ∧
    palette.analyse.check = .ok (.ok ()) ∧ (∀ op ∈ palette.ops, op.Proper) ∧
    ∃ rules q log, palette.simplify = .ok (rules, q) ∧ q.ops ≠ [] ∧ q.check = .ok (.ok ()) ∧
      (Compiler.portable CpuSet.none true).compile palette =
        Compiler.tryBackends CpuSet.none q log (.unsupported .noBackend) none [Backend.portable] := by
  have hanalysis : palette.analysis = .ok palette.analyse := rfl
  have hcheck : palette.analyse.check = .ok (.ok ()) := rfl
  have hrows : ∀ i j, ((paletteRows i).entry j).Reduced := by decide
  have hproper : ∀ op ∈ palette.ops, op.Proper := by
    have hunpack : (Op.ofKind .u8 (.unpack ⟨3, 3, 2, 0⟩)).Proper :=
      .of_unpack rfl (by decide) (by decide)
    have haffine : (Op.ofKind .f32 (.affine (.ofRows paletteRows))).Proper :=
      .of_affine rfl (Affine.regular_ofRows hrows)
    exact List.forall_mem_cons.mpr ⟨.of_verb rfl rfl, List.forall_mem_cons.mpr ⟨hunpack,
      List.forall_mem_cons.mpr ⟨.of_verb rfl rfl, List.forall_mem_cons.mpr ⟨haffine,
        List.forall_mem_cons.mpr ⟨.of_verb rfl rfl, List.forall_mem_singleton.mpr
          (.of_verb rfl rfl)⟩⟩⟩⟩⟩
  have hlength : palette.simplify.toOption.map (fun answer => answer.2.ops.length) = some 7 := by
    decide +kernel
  obtain ⟨r, w, -, ⟨rules, q, hsimplify, -, hend, hcompile⟩ | ⟨hsimplify, -⟩, -⟩ :=
    simplify_keeps_valid hanalysis hcheck hproper
  · obtain ⟨log, hcompile⟩ := hcompile (Compiler.portable CpuSet.none true) rfl rfl
    have hops : q.ops ≠ [] := by
      intro hnil
      rw [hsimplify, Except.toOption, Option.map_some, hnil] at hlength
      cases hlength
    rw [if_neg hops] at hcompile
    exact ⟨hanalysis, hcheck, hproper, rules, q, log, hsimplify, hops, hend.resolve_left hops,
      hcompile⟩
  · rw [hsimplify] at hlength
    cases hlength

/-- Where simplification gives nothing it overflows, told by computation. -/
theorem simplify_eq_overflow (hcheck : p.check = .ok (.ok ()))
    (h : p.simplify.toOption.isNone = true) : p.simplify = .error .overflow := by
  obtain ⟨r, w, inner, hp, -⟩ := check_eq_ok hcheck
  refine hp.simplify_cases.resolve_left fun ⟨rules, q, hs⟩ => ?_
  rw [hs] at h
  cases h

/-- Limits bytes whose depth is said to be 64. -/
def deepByte : Program :=
  (Program.ofOps [.ofKind .u8 (.read ⟨1, true, 0⟩),
    .ofKind .u8 (.atMost ⟨some (.ofNat 100), none, none, none⟩),
    .ofKind .u8 (.write ⟨1, false, 0⟩)]).withDepths (Quad.const 64)

/-- Limits a constant from above by the one number that has no negative. -/
def leastBound : Program :=
  .ofOps [.ofKind .f32 (.read ⟨1, false, 0⟩), .ofKind .f32 (.clear ⟨none, some .zero, none, none⟩),
    .ofKind .f32 (.atMost ⟨none, some (.ofInt (-2 ^ (63 : Nat))), none, none⟩),
    .ofKind .f32 (.write ⟨2, false, 0⟩)]

/-- The program passes the check once it is analysed, and cannot be simplified. -/
def OverflowsSimplified (p : Program) : Prop :=
  (∃ analysed, p.analysis = .ok analysed ∧ analysed.check = .ok (.ok ())) ∧
    (∀ op ∈ p.ops, op.Proper) ∧ p.simplify = .error .overflow

/-- **Simplification may overflow**, for each of the reasons. -/
theorem simplify_overflows : deepByte.OverflowsSimplified ∧ leastBound.OverflowsSimplified := by
  have hdeep : deepByte.simplify = .error .overflow :=
    simplify_eq_overflow rfl (by decide +kernel)
  have hleast : leastBound.simplify = .error .overflow :=
    simplify_eq_overflow rfl (by decide +kernel)
  refine ⟨⟨⟨_, rfl, rfl⟩, ?_, hdeep⟩, ⟨⟨_, rfl, rfl⟩, ?_, hleast⟩⟩
  · exact List.forall_mem_cons.mpr ⟨.of_verb rfl rfl, List.forall_mem_cons.mpr ⟨.of_verb rfl rfl,
      List.forall_mem_singleton.mpr (.of_verb rfl rfl)⟩⟩
  · exact List.forall_mem_cons.mpr ⟨.of_verb rfl rfl, List.forall_mem_cons.mpr ⟨.of_verb rfl rfl,
      List.forall_mem_cons.mpr ⟨.of_verb rfl rfl, List.forall_mem_singleton.mpr
        (.of_verb rfl rfl)⟩⟩⟩

end Program

end PixelConv
