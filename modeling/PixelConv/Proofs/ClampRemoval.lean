import PixelConv.Proofs.Acceptance
import PixelConv.Proofs.Coherence
import PixelConv.Proofs.Fusion
import PixelConv.Proofs.MixedRuns

/-!
# Clamps that are removed

A clamp goes away where the bounds say that its input is within its own already. Main statement: a
clamp of integers that some step of a simplification removes leaves every component that is read as
it is, whatever pixel the program runs on (`Program.removed_clamp_idle`), as long as the bounds before
it were derived soundly. Where they were not, the clamp may matter (`Program.blindShift_clamp_matters`).
-/

namespace PixelConv

/-! ## 1. The programs of a simplification -/

theorem Op.Plain.congr {a b : Op} (h : a.code = b.code) (ha : a.Plain) : b.Plain :=
  of_code (fun _ h => ⟨h.pack, h.swapBytes⟩) h ha

/-- **No rule gathers bit fields or reverses bytes** that were not before. -/
theorem Rewrites.plain {s : Site} {rule : Rule} {ops : List Op} (h : Rewrites s rule ops)
    (hafter : ∀ op ∈ s.after, op.Plain) : ∀ op ∈ ops, op.Plain := by
  have hnext := Site.forall_next hafter
  have hnew : ∀ {e : Elem} {k : Kind} {info : Info} {rest : List Op},
      k.verb ≠ .pack ∧ k.verb ≠ .swapBytes → (∀ op ∈ rest, op.Plain) →
      ∀ op ∈ Op.mk e k info :: rest, op.Plain := fun hk hrest =>
    List.forall_mem_cons.mpr ⟨⟨hk.1, fun hswap => absurd hswap hk.2⟩, hrest⟩
  cases h with
  | plainCopy _ ha | swapBytesPair _ ha | unpackPack _ ha => exact (hnext ha).2
  | swapBytesNoop | shiftNoop | clearNoop | swizzleIdentity | convertNoop | ditherExact
  | affineIdentity | scaleNoop | clampAbove | clampBelow => exact hafter
  | readSingleElement | readUnusedPlanes | writeSingleElement | clearUnused | affineResetUnused
  | affineScalar | scaleShiftLeft | scaleShiftRight =>
    exact hnew ⟨Verb.noConfusion, Verb.noConfusion⟩ hafter
  | affineConstantRows | affineSwizzle =>
    exact hnew ⟨Verb.noConfusion, Verb.noConfusion⟩
      (hnew ⟨Verb.noConfusion, Verb.noConfusion⟩ hafter)
  | shiftPairOverflow ha | shiftPairLeft _ ha | shiftPairRight _ ha | clearPair _ ha
  | swizzlePair _ ha | convertPair _ ha | convertExpand _ ha | affinePair _ ha | scalePair _ ha =>
    exact hnew ⟨Verb.noConfusion, Verb.noConfusion⟩ (hnext ha).2
  | clearSwizzle _ ha | clearFold _ ha | scaleAfterConvert _ ha =>
    exact List.forall_mem_cons.mpr
      ⟨(hnext ha).1, hnew ⟨Verb.noConfusion, Verb.noConfusion⟩ (hnext ha).2⟩
  | swizzleCommute _ ha hn hm =>
    obtain ⟨helem, hverb, -⟩ := Place.movedBefore?_eq_some hn hm
    obtain ⟨⟨hpack, hswap⟩, hrest⟩ := hnext ha
    rw [← hverb] at hpack hswap
    rw [← helem] at hswap
    exact List.forall_mem_cons.mpr
      ⟨⟨hpack, hswap⟩, hnew ⟨Verb.noConfusion, Verb.noConfusion⟩ hrest⟩

namespace Program

variable {p q r : Program} {applied : Applied} {rules : List Applied}

/-- One step of a simplification keeps the elements fitting together, and the operations plain. -/
theorem plain_step (hstep : p.analyse.step = .ok (some (applied, q)))
    (h : p.Typed ∧ ∀ op ∈ p.ops, op.Plain) : q.Typed ∧ ∀ op ∈ q.ops, op.Plain := by
  obtain ⟨⟨e, htyped⟩, hplain⟩ := h
  obtain ⟨pre, op, rest, out, -, -, hops, rfl, -, hrule, -⟩ := step_eq_some hstep
  have hrewrites := Rule.rewrites hrule
  have hcodes : codes p.ops = codes (pre ++ op :: rest) := by rw [← hops, codes_analyse]
  have htyped := typedFrom_congr hcodes htyped
  have hplain := forall_of_codes Op.Plain.congr hcodes hplain
  obtain ⟨hpre, hplace⟩ := List.forall_mem_append.mp hplain
  exact ⟨⟨e, (hrewrites.typed (typedFrom_suffix htyped)).replace htyped⟩,
    List.forall_mem_append.mpr ⟨hpre, hrewrites.plain (List.forall_mem_cons.mp hplace).2⟩⟩

/-- **So does a run** of it. -/
theorem Reduces.plain (hrun : p.Reduces rules r) (h : p.Typed ∧ ∀ op ∈ p.ops, op.Plain) :
    r.Typed ∧ ∀ op ∈ r.ops, op.Plain := by
  induction hrun with
  | refl => exact h
  | step first _ ih => exact ih (plain_step first h)

end Program

/-! ## 2. The place of the clamp -/

/-- What the operations before a place leave is coherent. -/
theorem Info.Coherent.afterAll {depths : Option Depths} {ops : List Op} {prev : Info}
    (h : prev.Coherent) (hknown : ∀ i, (prev.known i).Coherent) :
    (infoOf depths prev ops).Coherent := by
  induction ops generalizing prev with
  | nil => exact h
  | cons op ops ih =>
    exact ih (Op.coherent_infoAfter hknown) fun i => Op.coherent_knownAfter hknown i

theorem Info.Coherent.start : Info.start.Coherent where
  known i := (Info.coherent_start i).certainties
  unused i _ := by rw [Info.known_start]; rfl
  bounds i _ := by
    rw [Info.bounds_start]
    exact Bounds.isDefined_unknown

/-- An end of a bound that a rule finds before a place is the one that the operations there give, and
it belongs to a component that they define. -/
theorem Program.input_bounds {p : Program} {pre rest : List Op} {op : Op} {c : Fin 4}
    (h : p.analyse.ops = pre ++ op :: rest)
    (hd : ((Site.mk pre.getLast? op rest).input.bounds c).low.isDefined = true ∨
      ((Site.mk pre.getLast? op rest).input.bounds c).high.isDefined = true) :
    (Site.mk pre.getLast? op rest).input.bounds c = (infoOf p.depths Info.start pre).bounds c ∧
      ((infoOf p.depths Info.start pre).known c).garbage = false := by
  have hunknown : (Site.mk pre.getLast? op rest).input.bounds c ≠ Bounds.unknown := by
    intro hb
    rw [hb] at hd
    rcases hd with hd | hd
    · cases hd
    · cases hd
  have hsame : (Site.mk pre.getLast? op rest).input.bounds c =
      (infoOf p.depths Info.start pre).bounds c := by
    rcases input_analyse h with ⟨hinput, -⟩ | hinput
    · rw [hinput] at hunknown
      exact absurd (Info.bounds_start c) hunknown
    · rw [hinput] at hunknown ⊢
      cases hn : needed (op :: rest) c with
      | false => exact absurd (Info.restrict_of_not_needed hn).2 hunknown
      | true => exact (Info.restrict_of_needed hn).2
  refine ⟨hsame, ?_⟩
  rw [hsame] at hd
  cases hg : ((infoOf p.depths Info.start pre).known c).garbage with
  | false => rfl
  | true =>
    obtain ⟨hlow, hhigh⟩ := (Info.Coherent.start.afterAll Info.coherent_start).bounds c hg
    rw [hlow, hhigh] at hd
    rcases hd with hd | hd
    · cases hd
    · cases hd

/-- **A clamp of integers does nothing** to a word that is within its bound, if it has one. -/
theorem Op.onComponent_clamp {op : Op} {bounds : Constants} {c : Fin 4} {n : Nat}
    (hint : op.elem.isInt = true)
    (h : op.kind = .atMost bounds ∧ (∀ b, bounds c = some b →
        n < 2 ^ op.elem.bits ∧ (Fraction.ofNat n).le b = true) ∨
      op.kind = .atLeast bounds ∧ ∀ b, bounds c = some b → b.le (Fraction.ofNat n) = true) :
    op.onComponent c n = n := by
  rcases h with ⟨hk, hb⟩ | ⟨hk, hb⟩
  · simp only [Op.onComponent, hk]
    cases hc : bounds c with
    | none => rfl
    | some b =>
      obtain ⟨hn, hb⟩ := hb b hc
      exact Elem.min_effectiveBound hint hb (Nat.le_refl n) hn
  · simp only [Op.onComponent, hk]
    cases hc : bounds c with
    | none => rfl
    | some b => exact Elem.max_effectiveBound hint (hb b hc) (Nat.le_refl n)

/-- **Where the analysis is right about the registers**, a clamp that is removed does nothing to the
components that are read. -/
theorem Program.onComponent_of_clampNoop {p : Program} {pre rest out : List Op} {op : Op} {m : Pixel}
    (h : p.analyse.ops = pre ++ op :: rest) (hint : op.elem.isInt = true)
    (hrule : Rewrites ⟨pre.getLast?, op, rest⟩ .clampNoop out)
    (hm : Reflects op.elem (infoOf p.depths Info.start pre) m.values) {c : Fin 4}
    (hused : op.info.unused c = false) : op.onComponent c (m c).toNat = (m c).toNat := by
  have hvalue : m.values c = Fraction.ofNat (m c).toNat := m.get_values c
  cases hrule with
  | @clampAbove bounds hk hb =>
    refine Op.onComponent_clamp hint (.inl ⟨hk, fun b hbc => ?_⟩)
    have hbc' := hb c
    simp only [Site.withinBound, hbc, hused, Bool.false_or, if_true] at hbc'
    have hdefined := Fraction.isDefined_left hbc'
    obtain ⟨hsame, hg⟩ := p.input_bounds h (.inr hdefined)
    have hbelow := (hm.bounds c).2
    rw [← hsame, hvalue] at hbelow
    exact ⟨hm.word_lt hint hg, Fraction.le_trans (hbelow hdefined) hbc'⟩
  | @clampBelow bounds hk hb =>
    refine Op.onComponent_clamp hint (.inr ⟨hk, fun b hbc => ?_⟩)
    have hbc' := hb c
    simp only [Site.withinBound, hbc, hused, Bool.false_or, Bool.false_eq_true, if_false] at hbc'
    have hdefined := Fraction.isDefined_right hbc'
    obtain ⟨hsame, -⟩ := p.input_bounds h (.inl hdefined)
    have habove := (hm.bounds c).1
    rw [← hsame, hvalue] at habove
    exact Fraction.le_trans hbc' (habove hdefined)

/-! ## 3. Every clamp that is removed -/

namespace Program

/-- **A removed clamp never mattered.** Let a program whose elements fit together neither gather bit
fields nor reverse the bytes of floats. A clamp that some step of its simplification removes stands at
the place that the step reports. If it is a clamp of integers and the bounds of the operations before
it are derived soundly, its kernel leaves every component that is read as it is, on all registers that
these operations can leave for any pixel, wherever it is and whatever the registers held at first.
Floats before it are taken for exact numbers (`Op.Runs`). Where they are rounded to single precision,
one may come to lie beyond its bounds, and then a clamp that was removed behind it can matter. -/
theorem removed_clamp_idle {p q r : Program} {applied : Applied} {rules : List Applied}
    (htyped : p.Typed) (hplain : ∀ op ∈ p.ops, op.Plain) (hrun : p.Reduces rules r)
    (hstep : r.analyse.step = .ok (some (applied, q))) (hrule : applied.rule = .clampNoop) :
    ∃ pre op rest, r.analyse.ops = pre ++ op :: rest ∧ pre.length = applied.index ∧
      q.ops = pre ++ rest ∧ (op.verb = .atMost ∨ op.verb = .atLeast) ∧
      (op.elem.isInt = true → Steady r.depths Info.start pre →
        ∃ setup g, op.generic? = some setup ∧ setup op = .ok (.compute g) ∧
          ∀ x y v m, RunsAll r.depths x y pre v (Pixel.values m) →
            ∀ c, op.info.unused c = false → (g.apply x y m) c = m c) := by
  obtain ⟨⟨e, htyped⟩, hplain⟩ := hrun.plain ⟨htyped, hplain⟩
  obtain ⟨pre, op, rest, out, -, -, hops, hindex, rfl, -, happly, -⟩ := step_at hstep
  have hrewrites := Rule.rewrites happly
  rw [hrule] at hrewrites
  have hclamp : out = rest ∧ ∃ bounds, op.kind = .atMost bounds ∨ op.kind = .atLeast bounds := by
    cases hrewrites with
    | clampAbove hk => exact ⟨rfl, _, .inl hk⟩
    | clampBelow hk => exact ⟨rfl, _, .inr hk⟩
  obtain ⟨rfl, bounds, hk⟩ := hclamp
  have hverb : op.verb = .atMost ∨ op.verb = .atLeast :=
    hk.imp (congrArg Kind.verb) (congrArg Kind.verb)
  refine ⟨pre, op, out, hops, hindex, rfl, hverb, fun hint hsteady => ?_⟩
  have hg : ∃ g, Setup.clampInt op = .ok (.compute g) := by
    unfold Setup.clampInt
    rcases hk with hk | hk
    · rw [hk]
      exact ⟨_, rfl⟩
    · rw [hk]
      exact ⟨_, rfl⟩
  obtain ⟨g, hg⟩ := hg
  refine ⟨Setup.clampInt, g, Op.generic?_clamp hint hverb, hg, fun x y v m hpre c hused => ?_⟩
  -- the analysis is right about the registers before the clamp
  have hcodes : codes r.ops = codes (pre ++ op :: out) := by rw [← hops, codes_analyse]
  have hplain := (List.forall_mem_append.mp (forall_of_codes Op.Plain.congr hcodes hplain)).1
  have hright := reflects_runAll (typedFrom_congr hcodes htyped) hplain hsteady hpre
    (.inl fun i hi => by
      rw [show Info.start.known i = Known.undefined from Quad.get_const _ i] at hi
      cases hi)
    (reflects_start e v)
  have hidle := r.onComponent_of_clampNoop hops hint hrewrites hright hused
  refine UInt32.toNat_inj.mp ?_
  rw [Setup.clampInt_holds hk hint hg rfl x y, hidle]

/-- Floats that are at least 100, as bytes and halved. Nothing is known about how large they may
be. -/
def halvedFloats : Program :=
  .ofOps [.ofKind .f32 (.read ⟨1, false, 0⟩),
    .ofKind .f32 (.atLeast ⟨some ⟨100, 1⟩, none, none, none⟩),
    .ofKind .f32 (.convert .u8 false),
    .ofKind .u8 (.shiftRight 1),
    .ofKind .u8 (.atLeast ⟨some ⟨50, 1⟩, none, none, none⟩),
    .ofKind .u8 (.write ⟨1, false, 0⟩)]

theorem halvedFloats_clamp_idle :
    ∃ pre op rest, halvedFloats.analyse.ops = pre ++ op :: rest ∧ pre.length = 4 ∧
      ((infoOf none Info.start pre).bounds 0).high.isDefined = false ∧
      Steady none Info.start pre ∧
      ∃ setup g, op.generic? = some setup ∧ setup op = .ok (.compute g) ∧
        ∃ v m, RunsAll none 0 0 pre v (Pixel.values m) ∧ m 0 = 100 ∧ op.info.unused 0 = false ∧
          (g.apply 0 0 m) 0 = m 0 := by
  have htyped : halvedFloats.Typed := ⟨.f32, rfl, rfl, rfl, rfl, rfl, rfl, True.intro⟩
  have hplain : ∀ op ∈ halvedFloats.ops, op.Plain := by
    have hverbs : halvedFloats.ops.all fun op => op.verb != .pack && op.verb != .swapBytes := rfl
    intro op hop
    have hverb := List.all_eq_true.mp hverbs op hop
    simp only [Bool.and_eq_true, bne_iff_ne] at hverb
    exact ⟨hverb.1, fun hswap => absurd hswap hverb.2⟩
  obtain ⟨q, hstep⟩ : ∃ q, halvedFloats.analyse.step = .ok (some (⟨.clampNoop, 4⟩, q)) := ⟨_, rfl⟩
  obtain ⟨pre, op, rest, hops, hindex, -, -, hidle⟩ :=
    removed_clamp_idle htyped hplain (.refl halvedFloats) hstep rfl
  have hpre : pre = halvedFloats.analyse.ops.take 4 := by rw [hops, List.take_left' hindex]
  have hop : some op = halvedFloats.analyse.ops[4]? := by
    rw [hops, List.getElem?_append_right (Nat.le_of_eq hindex), hindex]
    rfl
  cases hop
  have hsteady : Steady none Info.start pre := by
    rw [hpre]
    exact ⟨Op.tracks_of_float rfl Verb.noConfusion Verb.noConfusion Verb.noConfusion,
      .inr (by decide), Op.tracks_of_ordered (.inl rfl) Verb.noConfusion Verb.noConfusion,
      .inr (by decide), Op.tracks_of_ordered (.inl rfl) Verb.noConfusion Verb.noConfusion,
      .inr (by decide), Op.tracks_of_ordered (.inr rfl) Verb.noConfusion Verb.noConfusion,
      .inr (by decide), True.intro⟩
  have hrun : RunsAll none 0 0 pre (Quad.const ⟨200, 1⟩) (Pixel.values (Quad.const 100)) := by
    rw [hpre]
    exact ⟨_, .loadNumbers rfl rfl fun _ _ => rfl, _, .numbers rfl rfl rfl, _,
      .toWords (q := Quad.const 200) rfl rfl (by decide) (by decide), _, .words rfl rfl rfl rfl,
      rfl⟩
  obtain ⟨setup, g, hs, hg, hidle⟩ := hidle rfl hsteady
  exact ⟨pre, _, rest, hops, hindex, by rw [hpre]; rfl, hsteady, setup, g, hs, hg, _, _, hrun, rfl,
    rfl, hidle 0 0 _ _ hrun 0 rfl⟩

/-- Floats as bytes that are at least 100, doubled. Their lower bound is 200 then, but a byte from 128
on wraps around. -/
def blindShift : Program :=
  .ofOps [.ofKind .f32 (.read ⟨1, false, 0⟩),
    .ofKind .f32 (.convert .u8 false),
    .ofKind .u8 (.atLeast ⟨some ⟨100, 1⟩, none, none, none⟩),
    .ofKind .u8 (.shiftLeft 1),
    .ofKind .u8 (.atLeast ⟨some ⟨150, 1⟩, none, none, none⟩),
    .ofKind .u8 (.write ⟨1, false, 0⟩)]

/-- **Bounds that do not see a wrap-around**: the clamp is removed although it changes a component
that is read. -/
theorem blindShift_clamp_matters :
    ∃ q pre op rest, blindShift.analyse.step = .ok (some (⟨.clampNoop, 4⟩, q)) ∧
      blindShift.analyse.ops = pre ++ op :: rest ∧ pre.length = 4 ∧ q.ops = pre ++ rest ∧
      ∃ setup g, op.generic? = some setup ∧ setup op = .ok (.compute g) ∧
        ∃ v m, RunsAll none 0 0 pre v (Pixel.values m) ∧ op.info.unused 0 = false ∧
          m 0 = 144 ∧ (g.apply 0 0 m) 0 = 150 := by
  refine ⟨_, blindShift.analyse.ops.take 4, _, blindShift.analyse.ops.drop 5, rfl, rfl, rfl, rfl,
    _, _, rfl, rfl, Quad.const ⟨200, 1⟩, Quad.const 144, ?_, rfl, rfl, rfl⟩
  exact ⟨_, .loadNumbers rfl rfl fun _ _ => rfl, _,
    .toWords (q := Quad.const 200) rfl rfl (by decide) (by decide), _, .words rfl rfl rfl rfl, _,
    .words rfl rfl rfl rfl, rfl⟩

end Program

end PixelConv
