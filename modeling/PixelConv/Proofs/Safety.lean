import PixelConv.Proofs.Dependence
import PixelConv.Proofs.Lockstep
import PixelConv.Proofs.SinglePixel

/-!
# Safe on any buffers

The kernels that the portable tables give stay in range: they step by chunks that are not empty,
shift by less than a word and look into their tiles where there is an entry (`Chosen.inRange`). None
of them faults on any block (`Linked.run_sizes`), so what the portable backend builds is robust
(`Backend.portable_robust`).

Main statement: whatever the views are, a run comes to an end and changes bytes of its pixels only,
unless the bytes of its pixels cannot be measured (`Backend.run_within_rows`). That takes a layout
with 2 ^ 64 or more elements to a byte, which the check lets pass: such a run breaks off
(`Backend.tiny_elements_fault`).
-/

namespace PixelConv

/-! ## 1. Kernels in range -/

/-- Fields are placed within the bits below the top. -/
theorem BitField.place_le : ∀ (ws : List Nat) (top : Nat), ws.sum ≤ top →
    ∀ f ∈ place top ws, f.start + f.len ≤ top
  | [], _, _, f, hf => absurd hf List.not_mem_nil
  | 0 :: _, _, _, f, hf => absurd hf List.not_mem_nil
  | (w + 1) :: ws, top, hsum, f, hf => by
    rw [List.sum_cons] at hsum
    rcases List.mem_cons.mp hf with rfl | hf
    · show top - (w + 1) + (w + 1) ≤ top
      omega
    · have := place_le ws (top - (w + 1)) (by omega) f hf
      omega

/-- The fields of a pattern that a kernel takes lie within a word. -/
theorem Setup.fields_inRange {op : Op} {widths : Quad Nat} {f : Quad BitField}
    (h : fields op widths = .ok f) (c : Fin 4) : (f c).start + (f c).len ≤ 32 := by
  have hbits : op.elem.bits ≤ 32 := by cases op.elem <;> decide
  unfold fields at h
  split at h
  · cases h
  rename_i hsum
  cases h
  rw [BitField.ofWidths, Quad.ofListD, Quad.get_ofFn, List.getD_eq_getElem?_getD]
  cases hf : (BitField.place op.elem.bits widths.toList)[c.val]? with
  | none => exact Nat.zero_le _
  | some field =>
    exact Nat.le_trans (BitField.place_le _ _ (Nat.not_lt.mp hsum) field
      (List.mem_of_getElem? hf)) hbits

/-- The parameters keep within words and tiles: fields of bits lie within a word, and a tile has an
entry for every position. -/
def RegOp.InRange : RegOp → Prop
  | unpack fields | pack fields => ∀ c, (fields c).start + (fields c).len ≤ 32
  | dither size tile => 0 < size ∧ tile.size = size * size
  | _ => True

/-- Memory is stepped through by chunks that are not empty, of one to four elements or, with at most
eight to a byte, of one. -/
def Kernel.InRange : Kernel → Prop
  | load size l | store size l => 0 < size ∧ 1 ≤ l.count ∧ l.count ≤ 4 ∧ l.frac ≤ 3
  | loadTriples | storeTriples => True
  | compute op => op.InRange
  | custom _ => False

section Kernels

variable {op : Op} {k : Kernel} {r w : Nat}

theorem Layout.inRange_limited {l : Layout} (h : l.wellFormed = true) :
    1 ≤ l.limited.count ∧ l.limited.count ≤ 4 ∧ l.limited.frac ≤ 3 :=
  ⟨Nat.lt_min.mpr ⟨(Layout.wellFormed_iff.mp h).1, by decide⟩, Nat.min_le_right _ _,
    Nat.min_le_right _ _⟩

/-- **Kernels of the portable tables stay in range.** -/
theorem Chosen.inRange (h : Chosen op k r w)
    (hwf : ∀ l, op.transfer? = some l → l.wellFormed = true) : k.InRange := by
  cases h with
  | @generic setup _ hs hk =>
    obtain ⟨elem, kind, info⟩ := op
    cases kind with
    | read l =>
      cases hs
      obtain ⟨l', hl', rfl⟩ := exists_of_map_eq_ok hk
      obtain ⟨-, rfl⟩ := Setup.transfer_cases rfl hl'
      exact ⟨Shape.elem_size_pos elem, Layout.inRange_limited (hwf l rfl)⟩
    | write l =>
      cases hs
      obtain ⟨l', hl', rfl⟩ := exists_of_map_eq_ok hk
      obtain ⟨-, rfl⟩ := Setup.transfer_cases rfl hl'
      exact ⟨Shape.elem_size_pos elem, Layout.inRange_limited (hwf l rfl)⟩
    | unpack widths =>
      cases elem <;> cases hs <;>
        (obtain ⟨f, hf, rfl⟩ := exists_of_map_eq_ok hk; exact Setup.fields_inRange hf)
    | pack widths =>
      cases elem <;> cases hs <;>
        (obtain ⟨f, hf, rfl⟩ := exists_of_map_eq_ok hk; exact Setup.fields_inRange hf)
    | dither d =>
      cases elem <;> cases hs
      simp only [Setup.dither] at hk
      split at hk
      · cases hk
      rename_i hsize
      cases hk
      simp only [Bool.or_eq_true, decide_eq_true_eq, not_or, Decidable.not_not, ne_eq] at hsize
      exact ⟨Nat.two_pow_pos _, by rw [Array.size_map, hsize.2]⟩
    | clear values =>
      cases hs
      obtain ⟨words, -, rfl⟩ := exists_of_map_eq_ok hk
      exact True.intro
    | shiftLeft n =>
      cases elem <;> cases hs <;>
        (obtain ⟨n, -, rfl⟩ := exists_of_map_eq_ok hk; exact True.intro)
    | shiftRight n =>
      cases elem <;> cases hs <;>
        (obtain ⟨n, -, rfl⟩ := exists_of_map_eq_ok hk; exact True.intro)
    | swizzle s => cases hs; cases hk; exact True.intro
    | convert target expand =>
      cases hs
      cases hk
      cases elem.isInt <;> cases target.isInt <;> exact True.intro
    | affine t => cases elem <;> cases hs; cases hk; exact True.intro
    | scale factor =>
      cases elem <;> cases hs
      case f32.refl =>
        cases hk
        exact True.intro
      all_goals
        obtain ⟨top, -, -, -, -, rfl⟩ := Setup.scaleInt_eq_ok rfl hk
        exact True.intro
    | swapBytes => cases elem <;> cases hs <;> cases hk <;> exact True.intro
    | atMost bounds => cases elem <;> cases hs <;> cases hk <;> exact True.intro
    | atLeast bounds => cases elem <;> cases hs <;> cases hk <;> exact True.intro
  | loadTriples | storeTriples | clearAlpha | swapEnds | toUnit | dot3 => exact True.intro

theorem Chosen.margins (h : Chosen op k r w) : r ≤ 1 ∧ w ≤ 1 := by
  cases h <;> decide

/-! ## 2. Kernels never fault -/

theorem Store.size_output (size : Nat) (l : Layout) (b : Block) :
    Conversion.SameSize (Store.output size l b) b.output := by
  unfold Store.output
  split
  · exact Conversion.sameSize_first Array.size_mapIdx
  split
  · exact Conversion.sameSize_first Array.size_mapIdx
  · intro c
    rw [Quad.get_ofFn]
    split
    · exact Array.size_mapIdx
    · rfl

/-- **One kernel**, on any block: it does not fault, and no plane changes its size. -/
theorem Chosen.run_sizes (h : Chosen op k r w)
    (hwf : ∀ l, op.transfer? = some l → l.wellFormed = true) (b : Block) :
    ∃ b', k.run b = .ok b' ∧ Conversion.SameSize b'.output b.output := by
  have hcount : ∀ l, op.transfer? = some l → ¬l.limited.isEmpty op.elem.size := fun l hl =>
    Layout.not_isEmpty_limited op.elem fun _ => (Layout.wellFormed_iff.mp (hwf l hl)).1
  cases hk : op.kind with
  | read l =>
    rcases h.load_kernel hk with ⟨rfl, -, -⟩ | ⟨rfl, -⟩
    · exact ⟨_, rfl, fun _ => rfl⟩
    · rw [Kernel.run_load, if_neg (hcount l (by rw [Op.transfer?, hk]))]
      exact ⟨_, rfl, fun _ => rfl⟩
  | write l =>
    rcases h.store_kernel hk with ⟨rfl, -⟩ | ⟨rfl, -⟩
    · exact ⟨_, rfl, Conversion.sameSize_first (Store.size_triples b _)⟩
    · rw [Kernel.run_store, if_neg (hcount l (by rw [Op.transfer?, hk]))]
      exact ⟨_, rfl, Store.size_output _ _ b⟩
  | _ =>
    obtain ⟨g, rfl, -, -⟩ := h.compute (by rw [Op.transfer?, hk])
    exact ⟨_, rfl, fun _ => rfl⟩

end Kernels

namespace Linked

variable {ops : List Op} {ks : List Kernel} {r w : Nat}

theorem margins (h : Linked ops ks r w) : r ≤ 1 ∧ w ≤ 1 := by
  induction h with
  | nil => decide
  | cons _ hk _ ih =>
    have := hk.margins
    omega

/-- An operation that is a transfer on words was one before. -/
theorem wellFormed_onWords {op word : Op} (hword : op.onWords = .ok word)
    (hwf : ∀ l, op.transfer? = some l → l.wellFormed = true) :
    ∀ l, word.transfer? = some l → l.wellFormed = true := by
  intro l hl
  cases ht : op.transfer? with
  | none =>
    rw [transfer?_onWords ht hword] at hl
    cases hl
  | some l' =>
    rw [onWords_transfer ht hword] at hl
    exact hwf l hl

theorem inRange (h : Linked ops ks r w)
    (hwf : ∀ op ∈ ops, ∀ l, op.transfer? = some l → l.wellFormed = true) :
    ∀ k ∈ ks, k.InRange := by
  induction h with
  | nil => exact fun k hk => absurd hk List.not_mem_nil
  | cons hword hk _ ih =>
    obtain ⟨hop, hops⟩ := List.forall_mem_cons.mp hwf
    exact List.forall_mem_cons.mpr ⟨hk.inRange (wellFormed_onWords hword hop), ih hops⟩

/-- **All kernels**, on any block. -/
theorem run_sizes (h : Linked ops ks r w)
    (hwf : ∀ op ∈ ops, ∀ l, op.transfer? = some l → l.wellFormed = true) (b : Block) :
    ∃ b', Kernel.runAll ks b = .ok b' ∧ Conversion.SameSize b'.output b.output := by
  induction h generalizing b with
  | nil => exact ⟨b, rfl, fun _ => rfl⟩
  | cons hword hk _ ih =>
    obtain ⟨hop, hops⟩ := List.forall_mem_cons.mp hwf
    obtain ⟨b₁, hrun, hsize⟩ := hk.run_sizes (wellFormed_onWords hword hop) b
    obtain ⟨b', hrest, hsize'⟩ := ih hops b₁
    exact ⟨b', (Kernel.runAll_of_run hrun).trans hrest, fun p => (hsize' p).trans (hsize p)⟩

end Linked

/-! ## 3. What the portable backend builds -/

theorem Program.Framed.wellFormed {p : Program} {r w : Shape} {inner : List Op}
    (h : p.Framed r w inner) :
    ∀ op ∈ p.ops, ∀ l, op.transfer? = some l → l.wellFormed = true := by
  obtain ⟨ri, wi, hops⟩ := h.ops
  rw [hops]
  intro op hop l hl
  rcases List.mem_cons.mp hop with rfl | hop
  · cases hl
    exact h.read
  rcases List.mem_append.mp hop with hop | hop
  · rw [h.inner op hop] at hl
    cases hl
  · rw [List.mem_singleton.mp hop] at hl
    cases hl
    exact h.write

theorem Layout.planes_le {l : Layout} (h : l.count ≤ 4) : l.planes ≤ 4 := by
  unfold Layout.planes
  split <;> omega

/-- A single component has a single plane. -/
theorem Layout.plane_eq_zero {l : Layout} (h : l.count = 1) {p : Fin 4} (hp : p.val < l.planes) :
    p = 0 := by
  unfold Layout.planes at hp
  apply Fin.ext
  show p.val = 0
  split at hp <;> omega

/-- **A chain is robust**, whatever its layouts are. -/
theorem Chain.robust {p : Program} {r w : Shape} {inner : List Op} {chain : Chain}
    (hp : p.Framed r w inner)
    (hlinked : Linked p.ops chain.links chain.readMargin chain.writeMargin) (cpu : CpuSet)
    (backend : String) :
    (Conversion.mk (.chain chain) r w blockPixels chain.readMargin chain.writeMargin cpu
      backend).Robust := by
  have hr := (Layout.wellFormed_iff.mp hp.read).2.1
  have hw := (Layout.wellFormed_iff.mp hp.write).2.1
  have hrsize := Shape.bytesPerPlane_le hr blockPixels
  have hwsize := Shape.bytesPerPlane_le hw blockPixels
  have hmargins := hlinked.margins
  have hblock : blockPixels = 32 := rfl
  refine ⟨rfl, Layout.planes_le hr, Layout.planes_le hw, Nat.zero_lt_succ _, ?_, ?_,
    fun src dst x y _ _ => ?_⟩
  · show r.bytesPerPlane blockPixels + chain.readMargin ≤ 1024
    omega
  · show w.bytesPerPlane blockPixels + chain.writeMargin ≤ 1024
    omega
  · obtain ⟨b, hrun, hsize⟩ := hlinked.run_sizes hp.wellFormed (Block.start src dst x y)
    refine ⟨b.output, ?_, hsize⟩
    show Except.map Block.output (chain.run (Block.start src dst x y)) = _
    rw [Chain.run_eq_runAll, hrun]
    rfl

/-- The kernels that a conversion runs. -/
def Conversion.kernels (c : Conversion) : List Kernel :=
  match c.routine with
  | .chain chain => chain.links
  | _ => []

namespace Backend

variable {p : Program} {cpu : CpuSet} {matched : List Match} {c : Conversion}

/-- **What the portable backend builds is robust, and its kernels stay in range.** -/
theorem portable_robust (hcheck : p.check = .ok (.ok ()))
    (hbuild : portable.build p cpu = .ok (matched, .ok c)) :
    c.Robust ∧ ∀ k ∈ c.kernels, k.InRange := by
  obtain ⟨r, w, inner, hp, -⟩ := Program.check_eq_ok hcheck
  rcases portable_build_eq_ok hp hbuild with ⟨s, comps, hs, rfl⟩ | ⟨chain, hlinked, -, rfl⟩
  · exact ⟨(Shuffle.pixelwise hs hp.read hp.write CpuSet.none "scalar").robust,
      fun k hk => absurd hk List.not_mem_nil⟩
  · exact ⟨Chain.robust hp hlinked chain.needs "scalar", hlinked.inRange hp.wellFormed⟩

/-- A conversion that is built, with something about it. -/
theorem exists_build {α : Type} (p : Program) (cpu : CpuSet) (g : Conversion → α) {a : α}
    (h : ((portable.build p cpu).toOption.bind fun built => built.2.toOption.map g) = some a) :
    ∃ matched c, portable.build p cpu = .ok (matched, .ok c) ∧ g c = a := by
  cases hb : portable.build p cpu with
  | error f =>
    rw [hb] at h
    cases h
  | ok built =>
    obtain ⟨matched, result⟩ := built
    rw [hb] at h
    cases result with
    | error e => cases h
    | ok c => exact ⟨matched, c, rfl, Option.some.inj h⟩

/-! ## 4. Runs -/

/-- **Safe on any buffers.** Let the portable backend build a conversion from a checked program. Its
kernels stay in range. On any views, for any width, a run comes to an end, and only bytes of the
first `width` pixels of a row that both views have may change; unless the bytes of the pixels cannot
be measured, where the run breaks off. -/
theorem run_within_rows (hcheck : p.check = .ok (.ok ()))
    (hbuild : portable.build p cpu = .ok (matched, .ok c)) (src dst : View) (width : Nat) :
    (∀ k ∈ c.kernels, k.InRange) ∧
      (c.Measurable src dst width → ∃ out, c.run src dst width = .ok out ∧
        Conversion.SameFrame out dst ∧ ∀ p i, (∀ r, r < min src.rows dst.rows →
          Conversion.OutsideRow c.write dst width r p i) →
            (out.planes p).getD i 0 = (dst.planes p).getD i 0) ∧
      (¬c.Measurable src dst width → c.run src dst width = .error .oversizedShift) := by
  obtain ⟨hrobust, hrange⟩ := portable_robust hcheck hbuild
  refine ⟨hrange, fun hm => ?_, Conversion.run_eq_error hrobust.notCopy⟩
  -- a byte that no row covers is never stored
  obtain ⟨out, -, hrun, -, hframe, -, hbytes⟩ := Conversion.run_lockstep
    (fun p i u _ => (∀ r, r < min src.rows dst.rows →
      Conversion.OutsideRow c.write dst width r p i) → u = (dst.planes p).getD i 0)
    hrobust.paired hm.1 hm.2 rfl
    (fun r hr => Conversion.lockstep_of_place fun p hp i hi u v houtside => by
      rcases houtside r hr hp with hlt | hge <;> omega)
    (fun _ _ _ _ => rfl)
  refine ⟨out, hrun, hframe, fun p i houtside => ?_⟩
  by_cases hi : i < (dst.planes p).size
  · exact hbytes p i hi houtside
  · have hsize := hframe.size p
    rw [Bytes.getD_of_le (by omega), Bytes.getD_of_le (by omega)]

/-- Three rows, in a plane that ends within the second. -/
def cramped : View := ⟨⟨Bytes.zeros 40, #[], #[], #[]⟩, ⟨30, 0, 0, 0⟩, 0, 3⟩

theorem halving_run_within_rows : halving.check = .ok (.ok ()) ∧
    ∃ matched c out, portable.build halving CpuSet.none = .ok (matched, .ok c) ∧
      c.Measurable cramped cramped 5 ∧ c.run cramped cramped 5 = .ok out ∧
      (out.planes 0).getD 20 0 = (cramped.planes 0).getD 20 0 := by
  have hcheck : halving.check = .ok (.ok ()) := rfl
  obtain ⟨matched, c, hbuild, hends⟩ := exists_build halving CpuSet.none
    (fun c => (c.read, c.write)) (a := (⟨.u8, ⟨3, true, 0⟩⟩, ⟨.u8, ⟨3, true, 0⟩⟩))
    (by decide +kernel)
  obtain ⟨hread, hwrite⟩ := Prod.mk.inj hends
  have hm : c.Measurable cramped cramped 5 := by
    rw [Conversion.Measurable, hread, hwrite]
    decide
  obtain ⟨-, hruns, -⟩ := run_within_rows hcheck hbuild cramped cramped 5
  obtain ⟨out, hrun, -, hkeep⟩ := hruns hm
  refine ⟨hcheck, matched, c, out, hbuild, hm, hrun, hkeep 0 20 fun r hr _ => ?_⟩
  have hbytes : Shape.bytesPerPlane ⟨.u8, ⟨3, true, 0⟩⟩ 5 = 15 := by decide
  rw [hwrite, hbytes]
  have hr : r < 3 := hr
  show 20 < r * 30 ∨ r * 30 + 15 ≤ 20
  omega

/-- Stores bytes as elements of which `2 ^ frac` share one. -/
def dividing (frac : Nat) : Program :=
  .ofOps [.ofKind .u8 (.read ⟨1, false, 0⟩), .ofKind .u8 (.write ⟨1, false, frac⟩)]

/-- **Elements may be too small for their bytes to be measured**: the program is checked and built,
but a run breaks off even where there is no pixel to convert. -/
theorem tiny_elements_fault : (dividing 64).check = .ok (.ok ()) ∧
    ∃ matched c, portable.build (dividing 64) CpuSet.none = .ok (matched, .ok c) ∧
      c.run cramped cramped 0 = .error .oversizedShift := by
  obtain ⟨matched, c, hbuild, hwrite⟩ := exists_build (dividing 64) CpuSet.none
    Conversion.write (a := ⟨.u8, ⟨1, false, 64⟩⟩) (by decide +kernel)
  refine ⟨rfl, matched, c, hbuild,
    Conversion.run_eq_error (portable_robust rfl hbuild).1.notCopy fun hm => ?_⟩
  have hlt := hm.1
  rw [hwrite] at hlt
  exact absurd hlt (by decide)

end Backend

end PixelConv
