import PixelConv.Proofs.Building

/-!
# Which programs are shuffles

Two analyses look for undefined output: the solver follows where every byte comes from, and the
check of a program asks what is known of the components that it writes. Both are exact on operations
that rearrange bytes, for both agree with the contents that such operations leave. Main statement:
the solver finds a shuffle for such a program exactly if the program passes the check, once it could
be analysed, and every shuffle that it finds, for a lane of any size, stays within the lane
(`Shuffle.solves_checked`).
-/

namespace PixelConv

/-! ## 1. Programs that rearrange bytes -/

/-- Whole elements of one plane. -/
structure Layout.Contiguous (l : Layout) : Prop where
  frac : l.frac = 0
  count_pos : 0 < l.count
  count_le : l.count ≤ 4
  plane : l.packed = true ∨ l.count = 1

/-- Operations whose output bytes are input bytes, zeros or ones. -/
inductive Op.Rearranges : Op → Prop
  | swizzle {elem : Elem} {s : Swizzle} {info : Info} : Rearranges ⟨elem, .swizzle s, info⟩
  | swapBytes {elem : Elem} {info : Info} : Rearranges ⟨elem, .swapBytes, info⟩
  | clear {elem : Elem} {values : Constants} {info : Info}
      (fill : ∀ i q, values i = some q → q.isZero = true ∨ elem.max? = some q) :
      Rearranges ⟨elem, .clear values, info⟩
  | widen {elem target : Elem} {info : Info} (source : elem.isInt = true)
      (result : target.isInt = true) (size : elem.size ≤ target.size) :
      Rearranges ⟨elem, .convert target true, info⟩

/-- A read, operations that rearrange bytes, and a write, where each operation works on the elements
that the one before it leaves. -/
structure Program.ByteMoving (p : Program) (r w : Shape) (inner : List Op) : Prop where
  ops : ∃ ri wi, p.ops = ⟨r.elem, .read r.layout, ri⟩ :: (inner ++ [⟨w.elem, .write w.layout, wi⟩])
  inner : ∀ op ∈ inner, op.Rearranges
  read : r.layout.Contiguous
  write : w.layout.Contiguous
  typed : p.Typed

theorem Layout.Contiguous.wellFormed {l : Layout} (h : l.Contiguous) : l.wellFormed = true := by
  refine Layout.wellFormed_iff.mpr ⟨h.count_pos, h.count_le, fun hfrac => ?_⟩
  rw [h.frac] at hfrac
  exact absurd hfrac (Nat.lt_irrefl 0)

theorem Layout.Contiguous.chunk? {l : Layout} (h : l.Contiguous) (e : Elem) :
    (Shuffle.chunk? ⟨e, l⟩).isSome = true := by
  have hone : (l.packed || l.count == 1) = true := by
    rw [Bool.or_eq_true, beq_iff_eq]
    exact h.plane
  rw [Shuffle.chunk?, if_pos (by rw [h.frac, hone]; rfl)]
  rfl

namespace Op

variable {op : Op}

theorem Rearranges.transfer? (h : op.Rearranges) : op.transfer? = none := by
  cases h <;> rfl

theorem Rearranges.movesBytes (h : op.Rearranges) : op.MovesBytes := by
  cases h with
  | swizzle | swapBytes => exact True.intro
  | widen source result size => exact ⟨rfl, source, result, size⟩
  | clear fill =>
    intro i q hq
    unfold Shuffle.fill?
    split
    · rfl
    · rename_i hzero
      rw [if_pos ((fill i q hq).resolve_left hzero)]
      rfl

end Op

namespace Program

variable {p : Program} {r w : Shape} {inner : List Op}

theorem ByteMoving.framed (h : p.ByteMoving r w inner) : p.Framed r w inner :=
  ⟨h.ops, fun op hop => (h.inner op hop).transfer?, h.read.wellFormed, h.write.wellFormed⟩

theorem ByteMoving.movesBytes (h : p.ByteMoving r w inner) : ∀ op ∈ p.ops, op.MovesBytes := by
  obtain ⟨ri, wi, hops⟩ := h.ops
  intro op hop
  rw [hops, List.mem_cons, List.mem_append, List.mem_singleton] at hop
  rcases hop with rfl | hop | rfl
  · exact h.read.chunk? r.elem
  · exact (h.inner op hop).movesBytes
  · exact h.write.chunk? w.elem

/-! ## 2. What both analyses find -/

/-- **The check accepts exactly the defined outputs.** -/
theorem ByteMoving.check_iff (h : p.ByteMoving r w inner) (q : Pixel) :
    p.analyse.check = .ok (.ok ()) ↔
      ∀ c : Fin 4, c.val < w.layout.count → ((p.written q) c).isSome = true := by
  obtain ⟨inner', hpa, hcodes⟩ := h.framed.congr (codes_analyse p).symm
  have hexact : ∀ op ∈ inner', op.isExact = true := fun op hop =>
    (forall_of_codes Op.MovesBytes.congr hcodes
      (fun op hop => (h.inner op hop).movesBytes) op hop).exact
  rw [hpa.check_eq, if_pos (show p.analyse.analysed = true from rfl)]
  exact hpa.checkWritten_iff hexact _

/-- **The solver finds exactly the defined outputs**, too. -/
theorem ByteMoving.exists_solution_iff (h : p.ByteMoving r w inner) {q : Pixel} (hq : r.Holds q) :
    (∃ s, Shuffle.solve p laneBytes = .ok (some s)) ↔
      ∀ c : Fin 4, c.val < w.layout.count → ((p.written q) c).isSome = true := by
  have htyped := h.framed.typedFrom h.typed
  constructor
  · rintro ⟨s, hs⟩ c hc
    obtain ⟨r', w', comps, hsolved⟩ := Shuffle.solve_eq_some hs
    cases hsolved.source.symm.trans h.framed.source?
    cases hsolved.destination.symm.trans h.framed.destination?
    rw [hsolved.toNat_onPixel h.framed htyped hq hc]
    rfl
  · exact Shuffle.exists_solution h.framed h.movesBytes htyped hq

end Program

/-! ## 3. Tables -/

/-- Whole elements can be measured unless they have a plane of their own and too many bits. -/
theorem Layout.Contiguous.measures_iff {l : Layout} (h : l.Contiguous) {depths : Option Depths}
    {i : Fin 4} : l.measures depths i = true ↔
      (l.packed = false → ∀ d, depths = some d → d i ≤ Bounds.maxBits) := by
  have hcut : decide (l.frac < Layout.cutBits) = true := by
    rw [h.frac]
    rfl
  unfold Layout.measures
  cases depths with
  | none =>
    refine ⟨fun _ _ d hd => ?_, fun _ => hcut⟩
    cases hd
  | some d =>
    simp only [hcut, Option.some.injEq, forall_eq']
    cases l.packed with
    | true => exact ⟨fun _ hp => Bool.noConfusion hp, fun _ => by rw [Bool.and_comm]; rfl⟩
    | false =>
      simp only [Bool.not_false, Bool.and_true, decide_eq_true_eq, true_imp_iff]
      split
      · exact decide_eq_true_iff
      · rename_i hzero
        exact ⟨fun _ => Nat.le_trans (Nat.not_lt.mp hzero) (Nat.zero_le _), fun _ => rfl⟩

theorem Op.Rearranges.overflows {op : Op} (h : op.Rearranges) (depths : Option Depths) :
    op.overflows depths = false := by
  cases h <;> rfl

/-- The analysis of such a program fails only for a depth that is too large where it counts. -/
theorem Program.ByteMoving.analysis_eq_overflow_iff {p : Program} {r w : Shape} {inner : List Op}
    (hp : p.ByteMoving r w inner) : p.analysis = .error .overflow ↔
      r.elem.isInt = true ∧ r.layout.packed = false ∧
        ∃ d, p.depths = some d ∧ Bounds.maxBits < d 0 := by
  obtain ⟨ri, wi, hops⟩ := hp.ops
  -- only the read can be in the way
  have hmeasurable : p.Measurable ↔ (Op.mk r.elem (.read r.layout) ri).overflows p.depths = false := by
    unfold Measurable
    rw [hops, List.forall_mem_cons, List.forall_mem_append, List.forall_mem_singleton]
    exact ⟨And.left, fun h => ⟨h, fun op hop => (hp.inner op hop).overflows _, rfl⟩⟩
  rw [analysis_eq_error_iff, and_iff_left rfl, hmeasurable, Op.overflows_read rfl]
  simp only [hp.read.measures_iff]
  constructor
  · intro hnot
    refine Classical.byContradiction fun hdeep => hnot fun hint i hi hplanar d hd => ?_
    have hone := hp.read.plane.resolve_left fun hpacked => by
      rw [hplanar] at hpacked
      cases hpacked
    obtain rfl : i = 0 := Fin.ext (by have : i.val < r.layout.count := hi; omega)
    exact Nat.not_lt.mp fun hlt => hdeep ⟨hint, hplanar, d, hd, hlt⟩
  · rintro ⟨hint, hplanar, d, hd, hlt⟩ hall
    exact Nat.not_lt.mpr (hall hint 0 hp.read.count_pos hplanar d hd) hlt

namespace Shuffle

/-- A shuffle of at least one pixel that stays within a lane: it copies bytes that the lane consumes
only, and beyond the bytes that it produces there are zeros. -/
structure WithinLane (s : Shuffle) : Prop where
  pixels : 1 ≤ s.pixels
  read : s.read ≤ 16
  write : s.write ≤ 16
  offset : ∀ i : Fin 16, cellOffset s.cells[i] < s.read ∨ cellOffset s.cells[i] = 128
  beyond : ∀ i : Fin 16, s.write ≤ i.val →
    cellOffset s.cells[i] = 128 ∧ cellOnes s.cells[i] = 0

variable {p : Program} {s : Shuffle} {r w : Shape} {comps : Quad ByteTrace}

/-- Output bytes that stem from the input stem from the input pixel. -/
theorem Solved.input_lt (hs : Solved p s r w comps) {offset : Nat}
    (h : .input offset ∈ outputBytes comps w.layout.count) :
    offset < r.layout.count * r.elem.size := by
  obtain ⟨len, htracks⟩ := (tracks_loaded r).follow_all hs.followed
  obtain ⟨c, k, -, -, hplace⟩ := mem_outputBytes.mp h
  exact htracks.below c k offset hplace

/-- The cells of the pixel that starts at `base` copy bytes of the chunk there. -/
theorem cellOffset_cell? {bytes : List ByteSource} {base chunk j : Nat}
    (hbytes : ∀ offset, .input offset ∈ bytes → offset < chunk) :
    cellOffset ((bytes[j]?.bind (cell? base)).getD .zero) < base + chunk ∨
      cellOffset ((bytes[j]?.bind (cell? base)).getD .zero) = 128 := by
  cases hb : bytes[j]? with
  | none => exact .inr rfl
  | some b =>
    cases b with
    | input offset =>
      exact .inl (Nat.add_lt_add_left (hbytes offset (List.mem_of_getElem? hb)) base)
    | zero | ones | undefined => exact .inr rfl

theorem Solved.withinLane (hs : Solved p s r w comps) : s.WithinLane := by
  refine ⟨hs.pixels_pos, hs.read_le, hs.write_le, fun i => ?_, fun i hi => ?_⟩
  · rw [hs.cells, laneCells, hs.read, Fin.getElem_fin, Vector.getElem_ofFn]
    split
    · rename_i hlt
      -- the byte belongs to a pixel of the lane, whose chunk ends within the bytes consumed
      have hpixel : i.val / (w.layout.count * w.elem.size) + 1 ≤ s.pixels :=
        Nat.div_lt_of_lt_mul (Nat.mul_comm _ _ ▸ hlt)
      have hend := Nat.mul_le_mul_right (r.layout.count * r.elem.size) hpixel
      rw [Nat.add_mul, Nat.one_mul] at hend
      exact (cellOffset_cell? fun offset => hs.input_lt).imp_left fun hoffset =>
        Nat.lt_of_lt_of_le hoffset hend
    · exact .inr rfl
  · rw [hs.write] at hi
    rw [hs.cells, laneCells, Fin.getElem_fin, Vector.getElem_ofFn, if_neg (Nat.not_lt.mpr hi)]
    exact ⟨rfl, rfl⟩

/-- **The solver finds what the check accepts, and nothing outside of the lane.** It answers for
every program that rearranges bytes, with a shuffle exactly if the analysed program passes the check.
The analysis overflows exactly if an integer element has a plane of its own and more bits than bounds
can be computed for. -/
theorem solves_checked :
    (∀ (p : Program) (r w : Shape) (inner : List Op), p.ByteMoving r w inner →
      ∃ answer, solve p 16 = .ok answer ∧
        (∀ q, p.analysis = .ok q → (answer.isSome = true ↔ q.check = .ok (.ok ()))) ∧
        (p.analysis = .error .overflow ↔ r.elem.isInt = true ∧ r.layout.packed = false ∧
          ∃ d, p.depths = some d ∧ Bounds.maxBits < d 0)) ∧
    ∀ (p : Program) (lane : Nat) (s : Shuffle), solve p lane = .ok (some s) → s.WithinLane := by
  constructor
  · intro p r w inner hp
    obtain ⟨answer, hanswer⟩ := exists_solve hp.framed
    refine ⟨answer, hanswer, fun q hanalysis => ?_, hp.analysis_eq_overflow_iff⟩
    obtain ⟨-, rfl⟩ := Program.analysis_eq_ok_iff.mp hanalysis
    rw [hp.check_iff (Quad.const 0), ← hp.exists_solution_iff r.holds_zero, hanswer,
      Option.isSome_iff_exists]
    simp only [Except.ok.injEq]
  · intro p lane s hs
    obtain ⟨r, w, comps, hsolved⟩ := solve_eq_some hs
    exact hsolved.withinLane

/-- Three bytes in reverse order and a fourth one, `alpha`, as wide elements of the other byte
order. -/
def withAlpha (alpha : Option Fraction) : Program :=
  .ofOps [.ofKind .u8 (.read ⟨3, true, 0⟩), .ofKind .u8 (.swizzle ⟨⟨2, 1, 0, 3⟩⟩),
    .ofKind .u8 (.clear ⟨none, none, none, alpha⟩), .ofKind .u8 (.convert .u16 true),
    .ofKind .u16 .swapBytes, .ofKind .u16 (.write ⟨4, true, 0⟩)]

theorem withAlpha_byteMoving {alpha : Option Fraction}
    (h : ∀ q, alpha = some q → Elem.max? .u8 = some q) :
    (withAlpha alpha).ByteMoving ⟨.u8, ⟨3, true, 0⟩⟩ ⟨.u16, ⟨4, true, 0⟩⟩
      [.ofKind .u8 (.swizzle ⟨⟨2, 1, 0, 3⟩⟩), .ofKind .u8 (.clear ⟨none, none, none, alpha⟩),
        .ofKind .u8 (.convert .u16 true), .ofKind .u16 .swapBytes] where
  ops := ⟨_, _, rfl⟩
  inner := by
    simp only [List.forall_mem_cons]
    refine ⟨.swizzle, .clear fun i q hq => .inr ?_, .widen rfl rfl (by decide), .swapBytes,
      List.forall_mem_nil _⟩
    match i with
    | 0 | 1 | 2 => cases hq
    | 3 => exact h q hq
  read := ⟨rfl, by decide, by decide, .inl rfl⟩
  write := ⟨rfl, by decide, by decide, .inl rfl⟩
  typed := ⟨.u8, rfl, rfl, rfl, rfl, rfl, rfl, True.intro⟩

/-- With a fourth component there is a shuffle, and without one there is none. -/
theorem withAlpha_solved :
    (∃ s, solve (withAlpha (some (.ofNat 255))) 16 = .ok (some s) ∧ s.WithinLane) ∧
      solve (withAlpha none) 16 = .ok none := by
  obtain ⟨complete, within⟩ := solves_checked
  constructor
  · obtain ⟨answer, hanswer, hiff, -⟩ := complete _ _ _ _
      (@withAlpha_byteMoving (some (.ofNat 255)) fun q hq => hq)
    obtain ⟨s, rfl⟩ := Option.isSome_iff_exists.mp ((hiff _ rfl).mpr rfl)
    exact ⟨s, hanswer, within _ _ s hanswer⟩
  · obtain ⟨answer, hanswer, hiff, -⟩ := complete _ _ _ _
      (@withAlpha_byteMoving none fun q hq => by cases hq)
    have hiff := hiff (withAlpha none).analyse rfl
    have hcheck : (withAlpha none).analyse.check = .ok (.error .undefinedWrite) := rfl
    rw [hcheck] at hiff
    cases answer with
    | none => exact hanswer
    | some s => cases hiff.mp rfl

/-- Swaps the bytes of elements that are said to have 64 bits. -/
def deepSwap : Program :=
  (Program.ofOps [.ofKind .u16 (.read ⟨1, false, 0⟩), .ofKind .u16 .swapBytes,
    .ofKind .u16 (.write ⟨1, false, 0⟩)]).withDepths (Quad.const 64)

/-- **A shuffle may be found where the analysis overflows.** -/
theorem deepSwap_solved_unanalysed :
    deepSwap.ByteMoving ⟨.u16, ⟨1, false, 0⟩⟩ ⟨.u16, ⟨1, false, 0⟩⟩ [.ofKind .u16 .swapBytes] ∧
      (∃ s, solve deepSwap 16 = .ok (some s)) ∧ deepSwap.analysis = .error .overflow := by
  have hlayout : Layout.Contiguous ⟨1, false, 0⟩ := ⟨rfl, by decide, by decide, .inr rfl⟩
  exact ⟨⟨⟨_, _, rfl⟩, List.forall_mem_singleton.mpr .swapBytes, hlayout, hlayout, .u16, rfl, rfl, rfl,
    True.intro⟩, ⟨_, rfl⟩, rfl⟩

end Shuffle

end PixelConv
