import PixelConv.Proofs.Certainty
import PixelConv.Proofs.Dependence

/-!
# Undefined registers never reach the output

In a checked program no operation reads a component that may be undefined (`needed_defined`).
Kernels compute what is read from what is read, so whatever is put into the registers of undefined
components, before the first kernel or after any of them, a block stores the same bytes
(`Program.garbage_never_stored`).
-/

namespace PixelConv

/-! ## 1. Disturbed runs -/

/-- Values that are put into registers, by pixel and component. -/
abbrev Junk := Nat → Quad (Option UInt32)

/-- Overwrites registers. -/
def Block.disturb (b : Block) (junk : Junk) : Block :=
  b.mapPixels fun i q => Quad.zipWith (fun w old => w.getD old) (junk i) q

/-- Runs kernels on a block whose registers are overwritten before the first of them and after each:
`junk n` is put there after `n` kernels. -/
def Kernel.runDisturbed (junk : Nat → Junk) : List Kernel → Block → Checked Block
  | [], b => .ok (b.disturb (junk 0))
  | k :: ks, b =>
    match k.run (b.disturb (junk 0)) with
    | .error f => .error f
    | .ok b' => runDisturbed (fun n => junk (n + 1)) ks b'

/-- Only undefined components are overwritten, where `infos` tells what is known before the first
kernel and after each. -/
def DisturbsGarbage (infos : List Info) (junk : Nat → Junk) : Prop :=
  ∀ n info, infos[n]? = some info → ∀ i c, ((junk n i) c).isSome = true →
    (info.known c).garbage = true

theorem DisturbsGarbage.tail {info : Info} {infos : List Info} {junk : Nat → Junk}
    (h : DisturbsGarbage (info :: infos) junk) : DisturbsGarbage infos fun n => junk (n + 1) :=
  fun n i hi => h (n + 1) i (by rw [List.getElem?_cons_succ]; exact hi)

theorem Kernel.runDisturbed_of_run {junk : Nat → Junk} {k : Kernel} {ks : List Kernel}
    {b b' : Block} (h : k.run (b.disturb (junk 0)) = .ok b') :
    runDisturbed junk (k :: ks) b = runDisturbed (fun n => junk (n + 1)) ks b' := by
  rw [runDisturbed, h]

/-- Overwriting undefined components, where only defined ones are looked at. -/
theorem Block.Agree.disturb {on : Quad Bool} {b b' : Block} {info : Info} {infos : List Info}
    {junk : Nat → Junk} (h : Block.Agree on b b') (hjunk : DisturbsGarbage (info :: infos) junk)
    (hdefined : ∀ c, on c = true → (info.known c).garbage = false) :
    Block.Agree on b (b'.disturb (junk 0)) := by
  refine ⟨fun i hi c hc => ?_, h.input, h.output, h.x, h.y⟩
  have hnone : (junk 0 i) c = none := by
    refine Option.not_isSome_iff_eq_none.mp fun hsome => ?_
    have hgarbage := hjunk 0 info rfl i c hsome
    rw [hdefined c hc] at hgarbage
    cases hgarbage
  rw [Block.disturb, Block.pixel_mapPixels b' _ hi, Quad.get_zipWith, hnone, Option.getD_none]
  exact h.pixel i hi c hc

/-! ## 2. Analysed operations -/

/-- Each operation carries what is known after it about the components that are read later. -/
def Annotated (depths : Option Depths) : Info → List Op → Prop
  | _, [] => True
  | prev, op :: rest => op.info = (op.infoAfter depths prev).restrict (needed rest) ∧
      Annotated depths (op.infoAfter depths prev) rest

section Annotated

variable {depths : Option Depths} {prev : Info} {op : Op} {rest : List Op}

theorem Annotated.unused_eq (h : Annotated depths prev (op :: rest)) (c : Fin 4) :
    op.info.unused c = !needed rest c := by
  rw [h.1]
  exact Quad.get_map _ _ c

theorem Annotated.known_eq (h : Annotated depths prev (op :: rest)) {c : Fin 4}
    (hc : needed rest c = true) : op.info.known c = (op.knownAfter prev) c := by
  rw [h.1]
  simp only [Info.restrict, Quad.get_ofFn, if_pos hc]
  rfl

end Annotated

theorem annotated_backward (depths : Option Depths) (ops : List Op) (prev : Info) :
    Annotated depths prev (backward (forward depths prev ops)).1 := by
  induction ops generalizing prev with
  | nil => exact True.intro
  | cons op ops ih =>
    simp only [forward, backward_cons]
    refine ⟨?_, ih _⟩
    rw [needed_congr (codes_backward _)]
    rfl

theorem Program.annotated_analyse (p : Program) : Annotated p.depths Info.start p.analyse.ops :=
  annotated_backward p.depths p.ops Info.start

theorem Op.not_write {op : Op} (h : op.transfer? = none) (l : Layout) : op.kind ≠ .write l := by
  intro hl
  rw [Op.transfer?, hl] at h
  cases h

section Analysed

variable {depths : Option Depths} {last : Op} {l : Layout}

/-- **What is read is defined**, from any point on to a write of defined components. -/
theorem needed_defined (hlast : last.kind = .write l) {front : List Op} {prev : Info}
    (hfront : ∀ op ∈ front, ∀ l, op.kind ≠ .write l) (hcoherent : ∀ i, (prev.known i).Coherent)
    (hend : ∀ c : Fin 4, c.val < l.count →
      ((infoOf depths prev front).known c).garbage = false) (c : Fin 4)
    (hc : needed (front ++ [last]) c = true) : (prev.known c).garbage = false := by
  induction front generalizing prev c with
  | nil =>
    rw [List.nil_append, needed_cons, Op.needs, hlast, Quad.get_ofFn, decide_eq_true_eq] at hc
    exact hend c hc
  | cons op front ih =>
    obtain ⟨hop, hfront⟩ := List.forall_mem_cons.mp hfront
    rw [List.cons_append, needed_cons] at hc
    rw [infoOf_cons] at hend
    exact Op.needs_defined hop hcoherent (ih hfront (Op.coherent_knownAfter hcoherent) hend) c hc

end Analysed

/-! ## 3. Kernels in a row -/

/-- An operation as the kernels take it: fields come without gaps, and the mask of a transform is that
of its rows. -/
structure Op.Tidy (op : Op) : Prop where
  leading : ∀ widths, op.kind = .unpack widths → BitField.Leading widths
  mask : ∀ t, op.kind = .affine t → t.mask = Affine.maskOf t.rows

theorem Op.Tidy.congr {a b : Op} (h : a.code = b.code) (ha : a.Tidy) : b.Tidy :=
  of_code (fun _ h => ⟨h.leading, h.mask⟩) h ha

section Kernels

variable {depths : Option Depths} {last : Op} {l : Layout}

/-- **One kernel between the ends**, on blocks that agree where the operation reads. -/
theorem Annotated.compute_agrees {op word : Op} {rest : List Op} {prev : Info} {unread : Quad Bool}
    {e : Entry} {t : Table} {k : Kernel} {b b' : Block}
    (h : Annotated depths prev (op :: rest)) (hinner : op.transfer? = none) (htidy : op.Tidy)
    (hword : op.onWords = .ok word)
    (hfind : Table.find? Catalogue.portable word unread = some (e, t)) (hk : e.setup word = .ok k)
    (hunread : ∀ j, unread j = false → needed (op :: rest) j = true)
    (hdefined : ∀ c, needed rest c = true → ((op.knownAfter prev) c).garbage = false)
    (hb : Block.Agree (needed (op :: rest)) b b') :
    ∃ c c', k.run b = .ok c ∧ k.run b' = .ok c' ∧ Block.Agree (needed rest) c c' := by
  obtain ⟨g, rfl, -, -⟩ := (Catalogue.chosen_of_find? hfind hk).compute (transfer?_onWords hinner hword)
  have hmarks : ∀ i, op.info.unused i = true → needed rest i = false := by
    intro i hi
    rwa [h.unused_eq, Bool.not_eq_true'] at hi
  refine ⟨_, _, rfl, rfl, fun i hi => ?_, hb.input, hb.output, hb.x, hb.y⟩
  rw [Block.pixel_mapPixels b _ hi, Block.pixel_mapPixels b' _ hi, hb.x, hb.y]
  exact RegOp.agrees hword hfind hk hinner htidy.leading htidy.mask hmarks hunread hdefined
    (hb.pixel i hi) _ _

/-- **Any kernels up to a write** store the same, whatever is put into undefined registers. -/
theorem Annotated.runDisturbed_agrees (hlast : last.kind = .write l) (hwf : l.wellFormed = true) :
    ∀ {inner : List Op} {prev info : Info} {unread : Quad Bool} {ks : List Kernel} {b b' : Block}
      {junk : Nat → Junk}, Annotated depths prev (inner ++ [last]) →
    (∀ op ∈ inner, op.transfer? = none ∧ op.Tidy) → (∀ i, (prev.known i).Coherent) →
    (∀ c : Fin 4, c.val < l.count → ((infoOf depths prev inner).known c).garbage = false) →
    Table.kernels? Catalogue.portable unread (inner ++ [last]) = some ks →
    (∀ j, unread j = false → needed (inner ++ [last]) j = true) →
    DisturbsGarbage (info :: (inner ++ [last]).map Op.info) junk →
    (∀ c, needed (inner ++ [last]) c = true → (info.known c).garbage = false) →
    Block.Agree (needed (inner ++ [last])) b b' →
    ∃ out out', Kernel.runAll ks b = .ok out ∧ Kernel.runDisturbed junk ks b' = .ok out' ∧
      out'.output = out.output := by
  intro inner
  induction inner with
  | nil =>
    intro prev info unread ks b b' junk _ _ _ _ hks _ hjunk hinfo hb
    rw [List.nil_append] at hks hjunk hinfo hb
    obtain ⟨word, e, t, k, ks, hword, hfind, hk, hrest, rfl⟩ := Table.kernels?_cons hks
    cases hrest
    rw [onWords_transfer (l := l) (by rw [Op.transfer?, hlast]) hword] at hfind hk
    obtain ⟨c, c', hc, hc', houtput⟩ := (Catalogue.chosen_of_find? hfind hk).store_agrees hlast hwf
      (hb.disturb hjunk hinfo)
    refine ⟨c, c'.disturb (junk 1), Kernel.runAll_of_run hc, ?_, houtput⟩
    rw [Kernel.runDisturbed_of_run hc']
    rfl
  | cons op inner ih =>
    intro prev info unread ks b b' junk hann hinner hcoherent hend hks hunread hjunk hinfo hb
    obtain ⟨⟨htransfer, htidy⟩, hinner⟩ := List.forall_mem_cons.mp hinner
    rw [List.cons_append] at hann hks hunread hjunk hinfo hb
    rw [infoOf_cons] at hend
    obtain ⟨word, e, t, k, ks, hword, hfind, hk, hrest, rfl⟩ := Table.kernels?_cons hks
    have hcoherent : ∀ i, ((op.infoAfter depths prev).known i).Coherent :=
      Op.coherent_knownAfter hcoherent
    have hdefined := needed_defined hlast (fun o ho => Op.not_write (hinner o ho).1) hcoherent hend
    obtain ⟨c, c', hc, hc', hagree⟩ := hann.compute_agrees htransfer htidy hword hfind hk hunread
      hdefined (hb.disturb hjunk hinfo)
    -- the next kernel finds exactly what is read later marked as such
    have hunread : ∀ j, word.info.unused j = false → needed (inner ++ [last]) j = true := by
      intro j hj
      rwa [info_onWords hword, hann.unused_eq, Bool.not_eq_false'] at hj
    have hinfo : ∀ c, needed (inner ++ [last]) c = true → (op.info.known c).garbage = false := by
      intro c hc
      rw [hann.known_eq hc]
      exact hdefined c hc
    obtain ⟨out, out', hrun, hrun', houtput⟩ := ih hann.2 hinner hcoherent hend hrest hunread
      hjunk.tail hinfo hagree
    exact ⟨out, out', (Kernel.runAll_of_run hc).trans hrun,
      (Kernel.runDisturbed_of_run hc').trans hrun', houtput⟩

/-- **A read, kernels on registers and a write** store the same, whatever is put into undefined
registers; before the read all of them are. -/
theorem Annotated.runDisturbed_start {first : Op} {inner : List Op} {ks : List Kernel}
    {s : Shape} {margin writeMargin : Nat} {b : Block} {junk : Nat → Junk}
    (hann : Annotated depths Info.start (first :: (inner ++ [last])))
    (hfirst : first.code = (s.elem, .read s.layout)) (hread : s.layout.wellFormed = true)
    (hlast : last.kind = .write l) (hwrite : l.wellFormed = true)
    (hinner : ∀ op ∈ inner, op.transfer? = none ∧ op.Tidy)
    (hend : ∀ c : Fin 4, c.val < l.count →
      ((infoOf depths Info.start (first :: inner)).known c).garbage = false)
    (hks : Table.kernels? Catalogue.portable (Quad.const true) (first :: (inner ++ [last])) = some ks)
    (hlinked : Linked (first :: (inner ++ [last])) ks margin writeMargin)
    (hroom : Conversion.Room s b.input (s.bytesPerPlane blockPixels + margin))
    (hjunk : DisturbsGarbage (Info.start :: (first :: (inner ++ [last])).map Op.info) junk) :
    ∃ out out', Kernel.runAll ks b = .ok out ∧ Kernel.runDisturbed junk ks b = .ok out' ∧
      out'.output = out.output := by
  obtain ⟨elem, kind, info⟩ := first
  simp only [Op.code, Prod.mk.injEq] at hfirst
  obtain ⟨rfl, rfl⟩ := hfirst
  -- everything that is read at some point is defined there
  have hnone : ∀ op ∈ inner, ∀ l, op.kind ≠ .write l := fun op hop => Op.not_write (hinner op hop).1
  have hstart := Info.coherent_start
  have hcoherent : ∀ i, (((Op.mk s.elem (.read s.layout) info).infoAfter depths Info.start).known
    i).Coherent := Op.coherent_knownAfter hstart
  have hbefore := needed_defined hlast (List.forall_mem_cons.mpr
    ⟨fun _ h => Kind.noConfusion h, hnone⟩) hstart hend
  rw [infoOf_cons] at hend
  have hafter := needed_defined hlast hnone hcoherent hend
  -- the read
  obtain ⟨word, e, t, k, ks, hword, hfind, hk, hrest, rfl⟩ := Table.kernels?_cons hks
  have hsame : Block.Agree (needed (Op.mk s.elem (.read s.layout) info :: (inner ++ [last]))) b b :=
    ⟨fun _ _ _ _ => rfl, rfl, rfl, rfl, rfl⟩
  obtain ⟨c, c', hc, hc', hagree⟩ : ∃ c c', k.run b = .ok c ∧
      k.run (b.disturb (junk 0)) = .ok c' ∧ Block.Agree (needed (inner ++ [last])) c c' := by
    cases hlinked with
    | @cons _ _ _ _ _ r0 _ rs _ hword' hchosen _ =>
      rw [onWords_transfer (l := s.layout) rfl hword'] at hchosen
      refine hchosen.load_agrees rfl hread (fun p hp => ?_) (hsame.disturb hjunk hbefore)
      exact Nat.le_trans (Nat.add_le_add_left (Nat.le_max_left r0 rs) _) (hroom p hp)
  -- the rest
  rw [onWords_transfer (l := s.layout) rfl hword] at hrest
  have hinfo : ∀ c, needed (inner ++ [last]) c = true → (info.known c).garbage = false := by
    intro c hc
    rw [show info.known c = _ from hann.known_eq hc]
    exact hafter c hc
  have hunread : ∀ j, info.unused j = false → needed (inner ++ [last]) j = true := by
    intro j hj
    rwa [show info.unused j = _ from hann.unused_eq j, Bool.not_eq_false'] at hj
  obtain ⟨out, out', hrun, hrun', houtput⟩ := Annotated.runDisturbed_agrees hlast hwrite hann.2 hinner
    hcoherent hend hrest hunread hjunk.tail hinfo hagree
  exact ⟨out, out', (Kernel.runAll_of_run hc).trans hrun,
    (Kernel.runDisturbed_of_run hc').trans hrun', houtput⟩

end Kernels

/-- A chain that linking gives, with something about it. -/
theorem Chain.exists_linked {p : Program} (tables : List Table) (cpu : CpuSet) {α : Type}
    {g : Chain → α} {a : α} (h : (link p tables cpu blockPixels).2.toOption.map g = some a) :
    ∃ matched chain, link p tables cpu blockPixels = (matched, .ok chain) ∧ g chain = a := by
  obtain ⟨chain, hchain, ha⟩ := Option.map_eq_some_iff.mp h
  cases hlink : (link p tables cpu blockPixels).2 with
  | error e => rw [hlink] at hchain; cases hchain
  | ok c =>
    rw [hlink] at hchain
    cases hchain
    exact ⟨_, chain, Prod.ext rfl hlink, ha⟩

theorem Chain.exists_link {p : Program} (cpu : CpuSet) {α : Type} {g : Chain → α} {a : α}
    (h : (link p Catalogue.portable cpu blockPixels).2.toOption.map g = some a) :
    ∃ matched chain, link p Catalogue.portable cpu blockPixels = (matched, .ok chain) ∧
      g chain = a :=
  Chain.exists_linked Catalogue.portable cpu h

/-! ## 4. Checked programs -/

namespace Program

variable {p : Program}

/-- What a checked program writes is defined. -/
theorem written_defined {pre : List Op} {last : Op} {l : Layout}
    (hops : p.analyse.ops = pre ++ [last]) (hlast : last.kind = .write l) (hcount : l.count ≤ 4)
    (hpre : pre ≠ []) (hinner : ∀ op ∈ pre, ∀ l, op.kind ≠ .write l)
    (hcheck : checkWritten p.analyse.ops = .ok (.ok ())) (c : Fin 4) (hc : c.val < l.count) :
    ((infoOf p.depths Info.start pre).known c).garbage = false := by
  obtain ⟨front, before, rfl⟩ := (List.eq_nil_or_concat pre).resolve_left hpre
  rw [List.concat_eq_append] at hops hinner ⊢
  rw [List.append_assoc, List.singleton_append] at hops
  rw [hops, checkWritten_eq hlast hcount front hinner] at hcheck
  have hread : needed [last] c = true := by
    rw [needed_cons, Op.needs, hlast, Quad.get_ofFn]
    exact decide_eq_true hc
  refine Bool.eq_false_iff.mpr fun hgarbage => ?_
  have hany : (before.info.known.toList.take l.count).any Known.garbage = true := by
    refine Quad.any_take.mpr ⟨c, hc, ?_⟩
    rw [info_analyse hops]
    simp only [Info.restrict, Quad.get_ofFn, if_pos hread]
    exact hgarbage
  rw [if_pos hany] at hcheck
  cases hcheck

/-- What is marked as unused counts as undefined. -/
theorem garbage_of_unused {op : Op} (hop : op ∈ p.analyse.ops) {c : Fin 4}
    (hc : op.info.unused c = true) : (op.info.known c).garbage = true := by
  obtain ⟨pre, rest, hops⟩ := List.append_of_mem hop
  rw [unused_analyse hops, Bool.not_eq_true'] at hc
  rw [info_analyse hops]
  simp only [Info.restrict, Quad.get_ofFn, hc, Bool.false_eq_true, if_false]
  rfl

/-- **Undefined registers never reach the output.** The program passes the check with what is known
about it, and its operations are linked to portable kernels. On a block whose input has room for the
pixels and the margin, registers of undefined components, which all unused ones are, may be
overwritten with anything before the first kernel and after each: the block stores the same bytes. -/
theorem garbage_never_stored {cpu : CpuSet} {matched : List Match} {chain : Chain}
    (hcheck : p.analyse.check = .ok (.ok ())) (htidy : ∀ op ∈ p.ops, op.Tidy)
    (hlink : Chain.link p.analyse Catalogue.portable cpu blockPixels = (matched, .ok chain))
    (b : Block) (hroom : ∀ r, p.analyse.source? = some r →
      Conversion.Room r b.input (r.bytesPerPlane blockPixels + chain.readMargin))
    (junk : Nat → Junk) (hjunk : DisturbsGarbage (Info.start :: p.analyse.ops.map Op.info) junk) :
    (∀ op ∈ p.analyse.ops, ∀ c, op.info.unused c = true → (op.info.known c).garbage = true) ∧
      ∃ out out', chain.run b = .ok out ∧ Kernel.runDisturbed junk chain.links b = .ok out' ∧
        out'.output = out.output := by
  refine ⟨fun op hop c hc => garbage_of_unused hop hc, ?_⟩
  obtain ⟨r, w, inner, hp, hwritten⟩ := check_eq_ok hcheck
  obtain ⟨ri, wi, hops⟩ := hp.ops
  have htidy := forall_of_codes Op.Tidy.congr (codes_analyse p).symm htidy
  have hfront : ∀ op ∈ Op.mk r.elem (.read r.layout) ri :: inner, ∀ l, op.kind ≠ .write l :=
    List.forall_mem_cons.mpr ⟨nofun, fun op hop => Op.not_write (hp.inner op hop)⟩
  have hend := written_defined hops rfl (Layout.wellFormed_iff.mp hp.write).2.1
    (List.cons_ne_nil _ _) hfront (hwritten rfl)
  have hann := annotated_analyse p
  have hks := Chain.kernels?_of_link hlink
  have hlinked := (Chain.link_portable hlink).1
  rw [Chain.usable_portable] at hks
  rw [hops] at htidy hann hks hlinked hjunk
  rw [Chain.run_eq_runAll]
  exact hann.runDisturbed_start rfl hp.read rfl hp.write (fun op hop => ⟨hp.inner op hop,
    htidy op (List.mem_cons_of_mem _ (List.mem_append_left _ hop))⟩) hend hks hlinked
    (hroom r hp.source?) hjunk

/-- The brightness of three bytes. -/
def brightness : Program :=
  .ofOps [.ofKind .u8 (.read ⟨3, true, 0⟩), .ofKind .u8 (.convert .f32 false),
    .ofKind .f32 (.affine (.ofRows { Affine.identity.rows with
      c0 := ⟨⟨⟨1, 4⟩, ⟨1, 2⟩, ⟨1, 4⟩, ⟨0, 1⟩⟩, ⟨0, 1⟩⟩ })),
    .ofKind .f32 (.convert .u8 false), .ofKind .u8 (.write ⟨1, false, 0⟩)]

/-- Spoils the fourth component wherever it can. -/
def spoiledFourth : Nat → Junk := fun _ _ => ⟨none, none, none, some 0xffffffff⟩

theorem brightness_never_stored : ∃ matched chain out out',
    Chain.link brightness.analyse Catalogue.portable CpuSet.none blockPixels = (matched, .ok chain) ∧
    chain.run (Block.start ⟨Bytes.zeros 97, #[], #[], #[]⟩ ⟨Bytes.zeros 32, #[], #[], #[]⟩ 0 0) =
      .ok out ∧
    Kernel.runDisturbed spoiledFourth chain.links
      (Block.start ⟨Bytes.zeros 97, #[], #[], #[]⟩ ⟨Bytes.zeros 32, #[], #[], #[]⟩ 0 0) = .ok out' ∧
    out'.output = out.output := by
  obtain ⟨matched, chain, hlink, hmargin⟩ := Chain.exists_link (p := brightness.analyse)
    (g := Chain.readMargin) (a := 1) CpuSet.none (by decide +kernel)
  have htidy : ∀ op ∈ brightness.ops, op.Tidy := by
    intro op hop
    simp only [brightness, ofOps, List.mem_cons, List.not_mem_nil, or_false] at hop
    rcases hop with rfl | rfl | rfl | rfl | rfl <;>
      exact ⟨(fun _ h => by cases h), (fun _ h => by cases h <;> rfl)⟩
  have hfourth : ∀ info ∈ Info.start :: brightness.analyse.ops.map Op.info,
      (info.known 3).garbage = true := by decide +kernel
  obtain ⟨-, out, out', hrun, hrun', houtput⟩ := garbage_never_stored rfl htidy hlink
    (Block.start ⟨Bytes.zeros 97, #[], #[], #[]⟩ ⟨Bytes.zeros 32, #[], #[], #[]⟩ 0 0)
    (fun r hr p hp => by
      cases hr
      rw [hmargin]
      obtain rfl : p = 0 := Fin.ext (Nat.lt_one_iff.mp hp)
      exact Nat.le_of_eq (Bytes.size_zeros 97).symm)
    spoiledFourth (fun n info hn i c hc => by
      have hc : c = 3 := by
        match c with
        | 0 | 1 | 2 => cases hc
        | 3 => rfl
      rw [hc]
      exact hfourth info (List.mem_of_getElem? hn))
  exact ⟨matched, chain, out, out', hlink, hrun, hrun', houtput⟩

end Program

end PixelConv
