import PixelConv.Proofs.AffineMask
import PixelConv.Proofs.Chains
import PixelConv.Proofs.Fields
import PixelConv.Proofs.Registers
import PixelConv.Proofs.Selection

/-!
# What kernels look at

A kernel runs on all four registers of every pixel, whether they hold anything or not. What it leaves
in the components that are read depends on the components that its operation reads only:
`RegOp.agrees` for the operations between the ends, `Chosen.load_agrees` and `Chosen.store_agrees`
for the ends.
-/

namespace PixelConv

/-! ## 1. The kernels of the ends -/

/-- The layout within the range of the kernels. -/
def Layout.limited (l : Layout) : Layout := { l with count := min l.count 4, frac := min l.frac 3 }

/-- A transfer that the kernels take, in terms of its own layout. -/
theorem Setup.transfer_cases {op : Op} {l l' : Layout} (hl : op.transfer? = some l)
    (h : Setup.transfer op = .ok l') :
    (0 < l.frac → op.elem = .u8) ∧ l' = l.limited := by
  unfold Setup.transfer at h
  rw [hl] at h
  simp only at h
  split at h
  · cases h
  · rename_i hwide
    simp only [Bool.and_eq_true, decide_eq_true_eq, not_and, ne_eq, Decidable.not_not] at hwide
    exact ⟨hwide, (Except.ok.inj h).symm⟩

/-- The registers of pixel `i` after elements of `size` bytes were loaded. -/
def Load.registers (size : Nat) (l : Layout) (input : Quad Bytes) (i : Nat) (q : Pixel) : Pixel :=
  if 0 < l.frac then { q with c0 := fraction l.frac input.c0 i }
  else if l.packed then interleaved size l.count input.c0 i q
  else planar size l.count input i q

/-- The output after elements of `size` bytes were stored. -/
def Store.output (size : Nat) (l : Layout) (b : Block) : Quad Bytes :=
  if 0 < l.frac then { b.output with c0 := fraction l.frac b b.output.c0 }
  else if l.packed then { b.output with c0 := interleaved size l.count b b.output.c0 }
  else Quad.ofFn fun c => if c.val < l.count then planar size b c (b.output c) else b.output c

/-- Whole elements of no bytes per pixel, in one plane. -/
def Layout.isEmpty (size : Nat) (l : Layout) : Prop :=
  l.frac = 0 ∧ l.packed = true ∧ size * l.count = 0

instance (size : Nat) (l : Layout) : Decidable (l.isEmpty size) :=
  inferInstanceAs (Decidable (l.frac = 0 ∧ l.packed = true ∧ size * l.count = 0))

namespace Kernel

/-- A load changes the registers, unless there is nothing to step by. -/
theorem run_load (size : Nat) (l : Layout) (b : Block) :
    (load size l).run b = if l.isEmpty size then .error .zeroChunk
      else .ok (b.mapPixels (Load.registers size l b.input)) := by
  rw [Kernel.run]
  by_cases hf : 0 < l.frac
  · rw [if_pos hf, if_neg (fun h => Nat.ne_of_gt hf h.1)]
    have hregs : Load.registers size l b.input =
        fun x q => { q with c0 := Load.fraction l.frac b.input.c0 x } := by
      funext x q
      rw [Load.registers, if_pos hf]
    rw [hregs]
  · have hf0 : l.frac = 0 := Nat.eq_zero_of_not_pos hf
    rw [if_neg hf]
    by_cases hp : l.packed = true
    · rw [if_pos hp]
      by_cases hz : size * l.count = 0
      · rw [if_pos hz, if_pos ⟨hf0, hp, hz⟩]
      · rw [if_neg hz, if_neg (fun h => hz h.2.2)]
        have hregs : Load.registers size l b.input =
            Load.interleaved size l.count b.input.c0 := by
          funext x q
          rw [Load.registers, if_neg hf, if_pos hp]
        rw [hregs]
    · rw [if_neg hp, if_neg (fun h => hp h.2.1)]
      have hregs : Load.registers size l b.input = Load.planar size l.count b.input := by
        funext x q
        rw [Load.registers, if_neg hf, if_neg hp]
      rw [hregs]

/-- A store changes the output, unless there is nothing to step by. -/
theorem run_store (size : Nat) (l : Layout) (b : Block) :
    (store size l).run b = if l.isEmpty size then .error .zeroChunk
      else .ok { b with output := Store.output size l b } := by
  rw [Kernel.run]
  unfold Store.output
  by_cases hf : 0 < l.frac
  · rw [if_pos hf, if_pos hf, if_neg (fun h => Nat.ne_of_gt hf h.1)]
    rfl
  · have hf0 : l.frac = 0 := Nat.eq_zero_of_not_pos hf
    rw [if_neg hf, if_neg hf]
    by_cases hp : l.packed = true
    · rw [if_pos hp, if_pos hp]
      by_cases hz : size * l.count = 0
      · rw [if_pos hz, if_pos ⟨hf0, hp, hz⟩]
      · rw [if_neg hz, if_neg (fun h => hz h.2.2)]
        rfl
    · rw [if_neg hp, if_neg hp, if_neg (fun h => hp h.2.1)]

end Kernel

section Ends

variable {op : Op} {l : Layout} {k : Kernel} {r w : Nat}

/-- The kernel of a read. -/
theorem Chosen.load_kernel (hl : op.kind = .read l) (h : Chosen op k r w) :
    k = .loadTriples ∧ l = ⟨3, true, 0⟩ ∧ op.elem = .u8 ∨
      k = .load op.elem.size l.limited ∧ (0 < l.frac → op.elem = .u8) := by
  obtain ⟨elem, kind, info⟩ := op
  cases hl
  cases h with
  | @generic setup _ hs hk =>
    cases hs
    obtain ⟨l', hl', rfl⟩ := exists_of_map_eq_ok hk
    obtain ⟨hu8, rfl⟩ := Setup.transfer_cases rfl hl'
    exact .inr ⟨rfl, hu8⟩
  | loadTriples hk he =>
    cases hk
    exact .inl ⟨rfl, rfl, he⟩
  | storeTriples hk | clearAlpha hk | swapEnds hk | toUnit hk | dot3 hk => cases hk

/-- The kernel of a write. -/
theorem Chosen.store_kernel (hl : op.kind = .write l) (h : Chosen op k r w) :
    k = .storeTriples ∧ l = ⟨3, true, 0⟩ ∨
      k = .store op.elem.size l.limited ∧ (0 < l.frac → op.elem = .u8) := by
  obtain ⟨elem, kind, info⟩ := op
  cases hl
  cases h with
  | @generic setup _ hs hk =>
    cases hs
    obtain ⟨l', hl', rfl⟩ := exists_of_map_eq_ok hk
    obtain ⟨hu8, rfl⟩ := Setup.transfer_cases rfl hl'
    exact .inr ⟨rfl, hu8⟩
  | storeTriples hk he =>
    cases hk
    exact .inl ⟨rfl, rfl⟩
  | loadTriples hk | clearAlpha hk | swapEnds hk | toUnit hk | dot3 hk => cases hk

theorem Layout.not_isEmpty_limited (e : Elem) (h : l.packed = true → 0 < l.count) :
    ¬l.limited.isEmpty e.size := by
  rintro ⟨-, hp, hz⟩
  have hcount := h hp
  have hz : e.size * min l.count 4 = 0 := hz
  have := Nat.mul_pos (Shape.elem_size_pos e) (show 0 < min l.count 4 by omega)
  omega

/-- A read changes the registers only. -/
theorem Chosen.load_frame {b b' : Block} (hl : op.kind = .read l) (h : Chosen op k r w)
    (hrun : k.run b = .ok b') : b'.input = b.input := by
  rcases h.load_kernel hl with ⟨rfl, -, -⟩ | ⟨rfl, -⟩
  · rw [← Except.ok.inj hrun]
    rfl
  · rw [Kernel.run_load] at hrun
    split at hrun
    · cases hrun
    · rw [← Except.ok.inj hrun]
      rfl

/-- A write changes the output only. -/
theorem Chosen.store_frame {b b' : Block} (hl : op.kind = .write l) (h : Chosen op k r w)
    (hrun : k.run b = .ok b') : ∃ output, b' = { b with output := output } := by
  rcases h.store_kernel hl with ⟨rfl, -⟩ | ⟨rfl, -⟩
  · exact ⟨_, (Except.ok.inj hrun).symm⟩
  · rw [Kernel.run_store] at hrun
    split at hrun
    · cases hrun
    · exact ⟨_, (Except.ok.inj hrun).symm⟩

end Ends

/-! ## 2. Register operations -/

namespace RegOp

/-- Each register is computed from itself alone. -/
def isLocal : RegOp → Bool
  | unpack _ | pack _ | swizzle _ | affine _ | dot3 _ => false
  | _ => true

theorem apply_local {g : RegOp} (hg : g.isLocal = true) (x y : Nat) {q q' : Pixel} {c : Fin 4}
    (h : q c = q' c) : (g.apply x y q) c = (g.apply x y q') c := by
  cases g with
  | unpack | pack | swizzle | affine | dot3 => cases hg
  | keep => exact h
  | dither size tile =>
    simp only [apply]
    split
    · rw [Quad.get_map, Quad.get_map, h]
    · exact h
  | clear | intMin | intMax | floatMin | floatMax =>
    simp only [apply, onSome, Quad.get_zipWith, h]
  | swap16 | swap32 | shiftLeft | shiftRight | widen | toFloat | toInt | toUnit | scaleInt |
      scaleFloat => simp only [apply, Quad.get_map, h]

end RegOp

/-- Operations on each component alone get kernels that compute each register from itself. -/
theorem Chosen.isLocal {op : Op} {g : RegOp} (hg : Chosen op (.compute g) 0 0)
    (hverb : op.verb.isComponentwise = true) : g.isLocal = true := by
  cases hg with
  | @generic setup _ hs hk =>
    obtain ⟨elem, kind, info⟩ := op
    cases kind with
    | swapBytes => cases elem <;> cases hs <;> cases hk <;> rfl
    | shiftLeft n =>
      cases elem <;> cases hs <;>
        (obtain ⟨f, -, hg⟩ := exists_of_map_eq_ok hk; cases hg; rfl)
    | shiftRight n =>
      cases elem <;> cases hs <;>
        (obtain ⟨f, -, hg⟩ := exists_of_map_eq_ok hk; cases hg; rfl)
    | convert target expand =>
      cases hs
      cases hk
      cases elem.isInt <;> cases target.isInt <;> rfl
    | dither d =>
      cases elem <;> cases hs
      simp only [Setup.dither] at hk
      split at hk
      · cases hk
      · cases hk
        rfl
    | scale factor =>
      cases elem <;> cases hs
      case f32.refl =>
        cases hk
        rfl
      all_goals
        obtain ⟨top, -, -, -, -, hg⟩ := Setup.scaleInt_eq_ok rfl hk
        cases hg
        rfl
    | atMost bounds => cases elem <;> cases hs <;> cases hk <;> rfl
    | atLeast bounds => cases elem <;> cases hs <;> cases hk <;> rfl
    | read | write | unpack | pack | clear | swizzle | affine => cases hverb
  | clearAlpha hk | swapEnds hk | dot3 hk =>
    rw [Op.verb, hk] at hverb
    cases hverb
  | toUnit => rfl

/-- A weight that is zero is a zero in floats. -/
theorem Fraction.toFloat32_of_isZero {q : Fraction} (h : q.isZero = true) :
    (q.toFloat32 == (0.0 : Float32)) = true := by
  rw [toFloat32, if_pos h]
  decide +kernel

/-- A row looks at the inputs whose weight is not zero. -/
theorem Setup.floatRow_congr {r : AffineRow} {q q' : Pixel}
    (h : ∀ j, (r.weight j).isZero = false → q j = q' j) :
    (floatRow r).apply q = (floatRow r).apply q' := by
  have hterm : ∀ (sum : Float32) (j : Fin 4),
      (if (floatRow r).weight j == 0.0 then sum
        else sum + (floatRow r).weight j * Word.float (q j)) =
      (if (floatRow r).weight j == 0.0 then sum
        else sum + (floatRow r).weight j * Word.float (q' j)) := by
    intro sum j
    cases hz : (r.weight j).isZero with
    | false => rw [h j hz]
    | true =>
      have hweight : ((floatRow r).weight j == 0.0) = true := by
        simp only [floatRow, Quad.get_map]
        exact Fraction.toFloat32_of_isZero hz
      rw [if_pos hweight, if_pos hweight]
  simp only [FloatRow.apply, hterm]

/-- The kernel of bit fields. -/
theorem Chosen.pattern_kernel {op : Op} {k : Kernel} {r w : Nat}
    (hv : op.verb = .unpack ∨ op.verb = .pack) (h : Chosen op k r w) : Setup.pattern op = .ok k := by
  obtain ⟨elem, kind, info⟩ := op
  cases h with
  | @generic setup _ hs hk =>
    have hsetup : setup = Setup.pattern := by
      cases kind <;> first | (cases elem <;> cases hs <;> rfl) | (rcases hv with hv | hv <;> cases hv)
    rw [← hsetup]
    exact hk
  | loadTriples hk | storeTriples hk | clearAlpha hk | swapEnds hk | toUnit hk | dot3 hk =>
    cases hk
    rcases hv with hv | hv <;> cases hv

/-- The fields of a pattern that a kernel takes. -/
theorem Setup.fields_eq_ok {op : Op} {widths : Quad Nat} {f : Quad BitField}
    (h : fields op widths = .ok f) : f = BitField.ofWidths widths op.elem.bits := by
  unfold fields at h
  split at h
  · cases h
  · exact (Except.ok.inj h).symm

/-- The kernel of a split into bit fields. -/
theorem Chosen.unpack_kernel {op : Op} {widths : Quad Nat} {k : Kernel} {r w : Nat}
    (hk : op.kind = .unpack widths) (h : Chosen op k r w) :
    k = .compute (.unpack (BitField.ofWidths widths op.elem.bits)) := by
  have hkern := h.pattern_kernel (.inl (by rw [Op.verb, hk]; rfl))
  simp only [Setup.pattern, hk] at hkern
  obtain ⟨f, hf, rfl⟩ := exists_of_map_eq_ok hkern
  rw [Setup.fields_eq_ok hf]

/-- The kernel that gathers bit fields. -/
theorem Chosen.pack_kernel {op : Op} {widths : Quad Nat} {k : Kernel} {r w : Nat}
    (hk : op.kind = .pack widths) (h : Chosen op k r w) :
    k = .compute (.pack (BitField.ofWidths widths op.elem.bits)) := by
  have hkern := h.pattern_kernel (.inr (by rw [Op.verb, hk]; rfl))
  simp only [Setup.pattern, hk] at hkern
  obtain ⟨f, hf, rfl⟩ := exists_of_map_eq_ok hkern
  rw [Setup.fields_eq_ok hf]

/-! ## 3. Registers that agree -/

/-- The registers are the same in the components of `on`. -/
def Pixel.AgreeOn (on : Quad Bool) (q q' : Pixel) : Prop := ∀ c, on c = true → q c = q' c

section Agreement

variable {op : Op} {prev : Info} {out unread : Quad Bool} {q q' : Pixel}

/-- Fields are cut out of the first register. -/
theorem RegOp.unpack_agrees {widths : Quad Nat} (hk : op.kind = .unpack widths)
    (hfields : ∀ c, out c = true → 0 < widths c → c.val < BitField.count widths)
    (hdefined : ∀ c, out c = true → ((op.knownAfter prev) c).garbage = false)
    (hq : Pixel.AgreeOn (op.needs out) q q') (x y : Nat) :
    Pixel.AgreeOn out ((RegOp.unpack (BitField.ofWidths widths op.elem.bits)).apply x y q)
      ((RegOp.unpack (BitField.ofWidths widths op.elem.bits)).apply x y q') := by
  intro c hc
  have hpos : 0 < widths c := by
    have := hdefined c hc
    simp only [Op.knownAfter, hk, Quad.get_map] at this
    split at this
    · assumption
    · cases this
  have hcount := hfields c hc hpos
  have hlen : ((BitField.ofWidths widths op.elem.bits) c).len ≠ 0 := fun hzero =>
    absurd (BitField.len_eq_zero_iff.mp hzero) (Nat.not_le.mpr hcount)
  have hfirst : q.c0 = q'.c0 := by
    refine hq 0 ?_
    simp only [Op.needs, hk]
    exact Quad.any_take.mpr ⟨c, hcount, hc⟩
  simp only [RegOp.apply, Quad.get_zipWith, if_neg hlen, hfirst]

/-- Fields are gathered from the registers that have one. -/
theorem RegOp.pack_agrees {widths : Quad Nat} (hk : op.kind = .pack widths)
    (hdefined : ∀ c, out c = true → ((op.knownAfter prev) c).garbage = false)
    (hq : Pixel.AgreeOn (op.needs out) q q') (x y : Nat) :
    Pixel.AgreeOn out ((RegOp.pack (BitField.ofWidths widths op.elem.bits)).apply x y q)
      ((RegOp.pack (BitField.ofWidths widths op.elem.bits)).apply x y q') := by
  intro c hc
  -- only the first component is defined afterwards
  have hzero : c = 0 := by
    have := hdefined c hc
    simp only [Op.knownAfter, hk] at this
    match c with
    | 0 => rfl
    | 1 | 2 | 3 => cases this
  subst hzero
  have hinsert : ∀ (w : UInt32) (i : Fin 4),
      ((BitField.ofWidths widths op.elem.bits) i).insert w (q i) =
        ((BitField.ofWidths widths op.elem.bits) i).insert w (q' i) := by
    intro w i
    by_cases hi : i.val < BitField.count widths
    · rw [hq i]
      simp only [Op.needs, hk, Quad.get_ofFn, hi, decide_true, Bool.true_and]
      exact hc
    · have hlen : ((BitField.ofWidths widths op.elem.bits) i).len = 0 :=
        BitField.len_eq_zero_iff.mpr (Nat.le_of_not_lt hi)
      simp only [BitField.insert, hlen, if_true]
  show Quad.indices.foldl (fun w i => ((BitField.ofWidths widths op.elem.bits) i).insert w (q i)) 0 =
    Quad.indices.foldl (fun w i => ((BitField.ofWidths widths op.elem.bits) i).insert w (q' i)) 0
  simp only [hinsert]

/-- A transform looks at the inputs whose weight is not zero. -/
theorem RegOp.affine_agrees {a : Affine} {e : Entry} {t : Table} {g : RegOp}
    (hk : op.kind = .affine a) (hmask : a.mask = Affine.maskOf a.rows)
    (hfind : Table.find? Catalogue.portable op unread = some (e, t))
    (hsetup : e.setup op = .ok (.compute g))
    (hmarks : ∀ i, op.info.unused i = true → out i = false)
    (hunread : ∀ j, unread j = false → (op.needs out) j = true)
    (hq : Pixel.AgreeOn (op.needs out) q q') (x y : Nat) :
    Pixel.AgreeOn out (g.apply x y q) (g.apply x y q') := by
  intro c hc
  have hneeds : ∀ j, ((a.rows c).weight j).isZero = false → (op.needs out) j = true := by
    intro j hj
    simp only [Op.needs, hk, Quad.get_ofFn]
    refine Quad.any_indices.mpr ⟨c, ?_⟩
    rw [hc, hj]
    rfl
  rcases Catalogue.affine_of_find? hk hfind hsetup with hg | ⟨hg, hunused, hdefined⟩
  · cases hg
    simp only [RegOp.apply, Quad.get_zipWith, Quad.get_ofFn]
    cases hmeets : EntryMask.meets a.mask (EntryMask.row c.val) with
    | true =>
      simp only [if_true]
      exact Setup.floatRow_congr fun j hj => hq j (hneeds j hj)
    | false =>
      -- the row is that of the identity, so it reads its own component
      simp only [Bool.false_eq_true, if_false]
      refine hq c (hneeds c ?_)
      rw [hmask] at hmeets
      have hone : (a.rows c).weight c = Fraction.one := by
        have hunit := Affine.entry_of_not_meets hmeets c.castSucc
        rw [AffineRow.entry, dif_pos (show c.castSucc.val < 4 from c.isLt), Affine.unit,
          if_pos (show c.val = c.castSucc.val from rfl)] at hunit
        exact hunit
      rw [hone]
      rfl
  · cases hg
    have hzero : c = 0 := by
      refine Decidable.byContradiction fun hne => ?_
      rw [hmarks c (hunused c hne)] at hc
      cases hc
    subst hzero
    have h0 : q.c0 = q'.c0 := hq 0 (hunread 0 (hdefined 0 (by decide)))
    have h1 : q.c1 = q'.c1 := hq 1 (hunread 1 (hdefined 1 (by decide)))
    have h2 : q.c2 = q'.c2 := hq 2 (hunread 2 (hdefined 2 (by decide)))
    simp only [RegOp.apply, h0, h1, h2]
    rfl

/-- **A kernel between the ends** turns registers that agree where its operation reads into registers
that agree where it is read, as long as nothing undefined is read of it. -/
theorem RegOp.agrees {word : Op} {e : Entry} {t : Table} {g : RegOp}
    (hop : op.onWords = .ok word)
    (hfind : Table.find? Catalogue.portable word unread = some (e, t))
    (hsetup : e.setup word = .ok (.compute g)) (hinner : op.transfer? = none)
    (hlead : ∀ widths, op.kind = .unpack widths → BitField.Leading widths)
    (hmask : ∀ a, op.kind = .affine a → a.mask = Affine.maskOf a.rows)
    (hmarks : ∀ i, op.info.unused i = true → out i = false)
    (hunread : ∀ j, unread j = false → (op.needs out) j = true)
    (hdefined : ∀ c, out c = true → ((op.knownAfter prev) c).garbage = false)
    (hq : Pixel.AgreeOn (op.needs out) q q') (x y : Nat) :
    Pixel.AgreeOn out (g.apply x y q) (g.apply x y q') := by
  have hchosen : Chosen word (.compute g) 0 0 := by
    have h := Catalogue.chosen_of_find? hfind hsetup
    obtain ⟨-, -, hr, hw⟩ := h.compute (transfer?_onWords hinner hop)
    rwa [hr, hw] at h
  by_cases hverb : op.verb.isComponentwise = true
  · rw [onWords_componentwise hverb hop] at hchosen
    rw [Op.needs_componentwise hverb] at hq
    exact fun c hc => RegOp.apply_local (hchosen.isLocal hverb) x y (hq c hc)
  have hused : ∀ c, out c = true → op.info.unused c = false := by
    intro c hc
    cases hu : op.info.unused c with
    | false => rfl
    | true => rw [hmarks c hu] at hc; cases hc
  cases hk : op.kind with
  | clear values =>
    intro c hc
    obtain ⟨ws, rfl, hws⟩ := Chosen.clear_words hk hop hchosen
    simp only [RegOp.apply, RegOp.onSome, Quad.get_zipWith]
    rcases hws c (hused c hc) with ⟨hnone, hw⟩ | ⟨_, w, -, -, hw⟩
    · rw [hw]
      refine hq c ?_
      simp only [Op.needs, hk, Quad.get_ofFn, hc, hnone]
      rfl
    · rw [hw]
  | swizzle s =>
    intro c hc
    obtain ⟨source, rfl, hsource⟩ := Chosen.swizzle_source hk hop hchosen
    simp only [RegOp.apply, Quad.get_map, hsource c (hused c hc)]
    refine hq _ ?_
    simp only [Op.needs, hk, Quad.get_ofFn]
    exact Swizzle.reads_source hc
  | read | write =>
    rw [Op.transfer?, hk] at hinner
    cases hinner
  | unpack widths =>
    rw [onWords_of_elem (by rw [Op.verb, hk]; rfl) hop] at hchosen
    cases hchosen.unpack_kernel hk
    exact RegOp.unpack_agrees hk (fun _ _ => BitField.lt_count_of_pos (hlead widths hk)) hdefined hq x y
  | pack widths =>
    rw [onWords_of_elem (by rw [Op.verb, hk]; rfl) hop] at hchosen
    cases hchosen.pack_kernel hk
    exact RegOp.pack_agrees hk hdefined hq x y
  | affine a =>
    rw [onWords_of_elem (by rw [Op.verb, hk]; rfl) hop] at hfind hsetup
    exact RegOp.affine_agrees hk (hmask a hk) hfind hsetup hmarks hunread hq x y
  | swapBytes | shiftLeft | shiftRight | convert | dither | scale | atMost | atLeast =>
    exact absurd (by rw [Op.verb, hk]; rfl) hverb

end Agreement

/-! ## 4. Blocks that agree -/

/-- The same block, up to the registers of components that are not in `on`. -/
structure Block.Agree (on : Quad Bool) (b b' : Block) : Prop where
  pixel : ∀ i, i < blockPixels → Pixel.AgreeOn on (b.pixel i) (b'.pixel i)
  input : b'.input = b.input
  output : b'.output = b.output
  x : b'.x = b.x
  y : b'.y = b.y

theorem Block.reg_congr {on : Quad Bool} {b b' : Block}
    (h : ∀ i, i < blockPixels → Pixel.AgreeOn on (b.pixel i) (b'.pixel i)) (i : Nat) {c : Fin 4}
    (hc : on c = true) : b.reg i c = b'.reg i c := by
  by_cases hi : i < 32
  · rw [Block.reg_eq_pixel, Block.reg_eq_pixel]
    exact h i hi c hc
  · -- pixels beyond the block have no registers
    have hmissing : ∀ v : Vector Pixel 32, v[i]? = none := fun v =>
      Vector.getElem?_eq_none (Nat.le_of_not_lt hi)
    rw [Block.reg, Block.reg, hmissing, hmissing]

theorem Block.Agree.reg {on : Quad Bool} {b b' : Block} (h : Block.Agree on b b') (i : Nat)
    {c : Fin 4} (hc : on c = true) : b.reg i c = b'.reg i c :=
  Block.reg_congr h.pixel i hc

namespace Store

variable {on : Quad Bool} {b b' : Block}

theorem fractionByte_congr (h : ∀ i, b.reg i 0 = b'.reg i 0) (frac i : Nat) :
    fractionByte frac b i = fractionByte frac b' i := by
  simp only [fractionByte, h]

theorem fraction_congr (h : Block.Agree on b b') (hc : on 0 = true) (frac : Nat) (plane : Bytes) :
    fraction frac b plane = fraction frac b' plane := by
  simp only [fraction, fractionByte_congr (fun i => h.reg i hc) frac]

theorem interleaved_congr (h : Block.Agree on b b') {size count : Nat} (hsize : 0 < size * count)
    (hcount : count ≤ 4) (hon : ∀ c : Fin 4, c.val < count → on c = true) (plane : Bytes) :
    interleaved size count b plane = interleaved size count b' plane := by
  have hreg : ∀ x i, b.reg x (Fin.ofNat 4 (i % (size * count) / size)) =
      b'.reg x (Fin.ofNat 4 (i % (size * count) / size)) := by
    intro x i
    have hlt : i % (size * count) / size < count :=
      Nat.div_lt_of_lt_mul (Nat.mod_lt i hsize)
    refine h.reg x (hon _ ?_)
    show i % (size * count) / size % 4 < count
    rwa [Nat.mod_eq_of_lt (Nat.lt_of_lt_of_le hlt hcount)]
  simp only [interleaved, hreg]

theorem planar_congr (h : Block.Agree on b b') {c : Fin 4} (hc : on c = true) (size : Nat)
    (plane : Bytes) : planar size b c plane = planar size b' c plane := by
  simp only [planar, h.reg _ hc]

theorem triples_congr (h : Block.Agree on b b') (hon : ∀ c : Fin 4, c.val < 3 → on c = true)
    (plane : Bytes) : triples b plane = triples b' plane := by
  simp only [triples, h.reg _ (hon 0 (by decide)), h.reg _ (hon 1 (by decide)),
    h.reg _ (hon 2 (by decide))]

/-- A store looks at the components of its layout. -/
theorem output_congr {size : Nat} {l : Layout} (hempty : ¬l.isEmpty size) (hcount : l.count ≤ 4)
    (hfrac : 0 < l.frac → 0 < l.count) (h : Block.Agree on b b')
    (hon : ∀ c : Fin 4, c.val < l.count → on c = true) : output size l b = output size l b' := by
  unfold output
  rw [h.output]
  by_cases hf : 0 < l.frac
  · rw [if_pos hf, if_pos hf, fraction_congr h (hon 0 (hfrac hf))]
  rw [if_neg hf, if_neg hf]
  by_cases hp : l.packed = true
  · have hsize : 0 < size * l.count := Nat.pos_of_ne_zero fun hz =>
      hempty ⟨Nat.eq_zero_of_not_pos hf, hp, hz⟩
    rw [if_pos hp, if_pos hp, interleaved_congr h hsize hcount hon]
  · rw [if_neg hp, if_neg hp]
    refine Quad.ext_get fun c => ?_
    rw [Quad.get_ofFn, Quad.get_ofFn]
    split
    · rename_i hc
      rw [planar_congr h (hon c hc)]
    · rfl

end Store

section Ends

variable {op : Op} {l : Layout} {k : Kernel} {r w : Nat} {out : Quad Bool} {b b' : Block}

/-- The kernel of a read loads elements of its layout, within the range of the kernels. -/
theorem Chosen.load_computed (hl : op.kind = .read l) (h : Chosen op k r w)
    (hwf : l.wellFormed = true)
    (hroom : Conversion.Room ⟨op.elem, l⟩ b.input
      ((Shape.mk op.elem l).bytesPerPlane blockPixels + r)) :
    ∃ b', k.run b = .ok b' ∧ Block.Computed (Load.into ⟨op.elem, l.limited⟩ b.input) b b' := by
  obtain ⟨elem, kind, info⟩ := op
  cases hl
  obtain ⟨-, hcount, hone⟩ := Layout.wellFormed_iff.mp hwf
  by_cases hfrac : l.frac ≤ 3
  · obtain ⟨-, -, -, hload⟩ := Chosen.load (s := ⟨elem, l⟩) h hwf hfrac
    have hlimited : l.limited = l := by
      rw [Layout.limited, Nat.min_eq_left hcount, Nat.min_eq_left hfrac]
    rw [hlimited]
    exact hload b hroom
  · -- smaller fractions of a byte are loaded like eighths
    have hone : l.count = 1 := hone (by omega)
    rcases h.load_kernel rfl with ⟨-, rfl, -⟩ | ⟨rfl, -⟩
    · exact absurd (by decide) hfrac
    have hlimited : 0 < l.limited.frac := Nat.lt_min.mpr ⟨by omega, by decide⟩
    refine ⟨_, by rw [Kernel.run_load, if_neg fun h => Nat.ne_of_gt hlimited h.1],
      b.computed_mapPixels fun i _ q => Quad.ext_get fun c => ?_⟩
    rw [Load.registers, if_pos hlimited, Load.into, Quad.get_ofFn, Shape.element, if_pos hlimited,
      show l.limited.count = 1 by rw [Layout.limited, hone]; rfl]
    show (q.set 0 (Load.fraction l.limited.frac b.input.c0 i)) c = _
    simp only [Quad.get_set, Fin.ext_iff, Nat.lt_one_iff]
    rfl

/-- Components that are not loaded are looked at. -/
theorem Op.needs_of_limited (hl : op.kind = .read l) {c : Fin 4} (hc : out c = true)
    (hcount : ¬c.val < l.limited.count) : (op.needs out) c = true := by
  have hcount : ¬c.val < min l.count 4 := hcount
  simp only [Op.needs, hl, Quad.get_ofFn, hc, Bool.and_true, decide_eq_true_eq]
  omega

/-- **The kernel of a read** looks at the components that it does not load. -/
theorem Chosen.load_agrees (hl : op.kind = .read l) (h : Chosen op k r w) (hwf : l.wellFormed = true)
    (hroom : Conversion.Room ⟨op.elem, l⟩ b.input
      ((Shape.mk op.elem l).bytesPerPlane blockPixels + r))
    (hb : Block.Agree (op.needs out) b b') :
    ∃ c c', k.run b = .ok c ∧ k.run b' = .ok c' ∧ Block.Agree out c c' := by
  obtain ⟨c, hc, hcomputed⟩ := h.load_computed hl hwf hroom
  obtain ⟨c', hc', hcomputed'⟩ := h.load_computed (b := b') hl hwf (by rw [hb.input]; exact hroom)
  refine ⟨c, c', hc, hc', fun i hi j hj => ?_, ?_, ?_, ?_, ?_⟩
  · rw [hcomputed.pixel i hi, hcomputed'.pixel i hi, hb.input, Load.into, Load.into, Quad.get_ofFn,
      Quad.get_ofFn]
    split
    · rfl
    · rename_i hcount
      exact hb.pixel i hi j (Op.needs_of_limited hl hj hcount)
  · rw [hcomputed.input, hcomputed'.input, hb.input]
  · rw [hcomputed.output, hcomputed'.output, hb.output]
  · rw [hcomputed.x, hcomputed'.x, hb.x]
  · rw [hcomputed.y, hcomputed'.y, hb.y]

/-- **The kernel of a write** looks at the components that it stores. -/
theorem Chosen.store_agrees (hl : op.kind = .write l) (h : Chosen op k r w)
    (hwf : l.wellFormed = true) (hb : Block.Agree (op.needs out) b b') :
    ∃ c c', k.run b = .ok c ∧ k.run b' = .ok c' ∧ c'.output = c.output := by
  obtain ⟨hpos, hle, -⟩ := Layout.wellFormed_iff.mp hwf
  have hon : ∀ c : Fin 4, c.val < l.count → (op.needs out) c = true := by
    intro c hc
    simp only [Op.needs, hl, Quad.get_ofFn, hc, decide_true]
  rcases h.store_kernel hl with ⟨rfl, rfl⟩ | ⟨rfl, -⟩
  · refine ⟨_, _, rfl, rfl, ?_⟩
    show { b'.output with c0 := Store.triples b' b'.output.c0 } =
      { b.output with c0 := Store.triples b b.output.c0 }
    rw [Store.triples_congr hb hon, hb.output]
  · have hempty := Layout.not_isEmpty_limited op.elem fun _ => hpos
    refine ⟨_, _, by rw [Kernel.run_store, if_neg hempty], by rw [Kernel.run_store, if_neg hempty],
      ?_⟩
    refine (Store.output_congr hempty (Nat.min_le_right _ _)
      (fun _ => Nat.lt_min.mpr ⟨hpos, by decide⟩) hb fun c hc => hon c ?_).symm
    exact Nat.lt_of_lt_of_le hc (Nat.min_le_left _ _)

end Ends

end PixelConv
