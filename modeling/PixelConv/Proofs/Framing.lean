import PixelConv.Proofs.Narrowing
import PixelConv.Proofs.NormalForm
import PixelConv.Proofs.Preservation

/-!
# Rules keep the frame of a program

A rule that is not for transfers exchanges operations that transfer nothing (`Rewrites.exchange`);
the rules for transfers narrow the shape of the read or that of the write. So what a rule makes of a
framed program is framed again, by narrower shapes, unless it takes the whole program for a copy
(`Program.Framed.rewrite`). What steps keep, a program still has when it is simplified
(`Program.keeps_of_simplify`) or where its simplification breaks off (`Program.faults_of_simplify`).
-/

namespace PixelConv

/-! ## 1. Operations that end in a write -/

/-- The last operation is a write of shape `w`, and the others transfer nothing. -/
def EndsIn (w : Shape) (ops : List Op) : Prop :=
  ∃ inner wi, ops = inner ++ [⟨w.elem, .write w.layout, wi⟩] ∧ ∀ op ∈ inner, op.transfer? = none

namespace EndsIn

variable {w : Shape} {ops pre rest : List Op} {op : Op}

theorem cons (hop : op.transfer? = none) (h : EndsIn w ops) : EndsIn w (op :: ops) := by
  obtain ⟨inner, wi, rfl, hinner⟩ := h
  exact ⟨op :: inner, wi, rfl, List.forall_mem_cons.mpr ⟨hop, hinner⟩⟩

theorem append (hpre : ∀ op ∈ pre, op.transfer? = none) (h : EndsIn w ops) :
    EndsIn w (pre ++ ops) := by
  induction pre with
  | nil => exact h
  | cons op pre ih =>
    obtain ⟨hop, hpre⟩ := List.forall_mem_cons.mp hpre
    exact (ih hpre).cons hop

/-- The first operation is the write and nothing follows it, or it transfers nothing. -/
theorem cons_cases (h : EndsIn w (op :: rest)) :
    (∃ wi, op = ⟨w.elem, .write w.layout, wi⟩ ∧ rest = []) ∨
      op.transfer? = none ∧ EndsIn w rest := by
  obtain ⟨inner, wi, hops, hinner⟩ := h
  cases inner with
  | nil =>
    obtain ⟨rfl, rfl⟩ := List.cons.inj hops
    exact .inl ⟨wi, rfl, rfl⟩
  | cons a inner =>
    obtain ⟨rfl, rfl⟩ := List.cons.inj hops
    obtain ⟨ha, hinner⟩ := List.forall_mem_cons.mp hinner
    exact .inr ⟨ha, inner, wi, rfl, hinner⟩

/-- Before any operation there are only operations that transfer nothing. -/
theorem split (h : EndsIn w (pre ++ op :: rest)) :
    (∀ o ∈ pre, o.transfer? = none) ∧ EndsIn w (op :: rest) := by
  induction pre with
  | nil => exact ⟨fun _ ho => absurd ho List.not_mem_nil, h⟩
  | cons a pre ih =>
    rcases h.cons_cases with ⟨_, _, hnil⟩ | ⟨ha, hrest⟩
    · exact absurd hnil (List.append_ne_nil_of_right_ne_nil _ (List.cons_ne_nil _ _))
    · obtain ⟨hpre, hop⟩ := ih hrest
      exact ⟨List.forall_mem_cons.mpr ⟨ha, hpre⟩, hop⟩

/-- Operations that transfer nothing can be taken off the front. -/
theorem drop (hpre : ∀ o ∈ pre, o.transfer? = none) (h : EndsIn w (pre ++ ops)) : EndsIn w ops := by
  induction pre with
  | nil => exact h
  | cons a pre ih =>
    obtain ⟨ha, hpre⟩ := List.forall_mem_cons.mp hpre
    rcases h.cons_cases with ⟨_, rfl, _⟩ | ⟨_, hrest⟩
    · cases ha
    · exact ih hpre hrest

end EndsIn

namespace Program

variable {p : Program} {r w : Shape} {inner : List Op}

theorem Framed.endsIn (h : p.Framed r w inner) :
    ∃ ri rest, p.ops = ⟨r.elem, .read r.layout, ri⟩ :: rest ∧ EndsIn w rest := by
  obtain ⟨ri, wi, hops⟩ := h.ops
  exact ⟨ri, _, hops, inner, wi, rfl, h.inner⟩

theorem exists_framed {ri : Info} {rest : List Op}
    (hops : p.ops = ⟨r.elem, .read r.layout, ri⟩ :: rest) (hrest : EndsIn w rest)
    (hread : r.layout.wellFormed = true) (hwrite : w.layout.wellFormed = true) :
    ∃ inner, p.Framed r w inner := by
  obtain ⟨inner, wi, rfl, hinner⟩ := hrest
  exact ⟨inner, ⟨ri, wi, hops⟩, hinner, hread, hwrite⟩

end Program

/-! ## 2. What a rule exchanges -/

namespace Rewrites

variable {s : Site} {rule : Rule} {ops : List Op}

theorem transfer?_of_kind {op : Op} {k : Kind} (hk : op.kind = k) (hr : k.verb ≠ .read)
    (hw : k.verb ≠ .write) : op.transfer? = none := by
  rw [Op.transfer?, hk]
  cases k with
  | read => exact absurd rfl hr
  | write => exact absurd rfl hw
  | _ => rfl

theorem transfer?_of_componentwise {op : Op} (h : op.verb.isComponentwise = true) :
    op.transfer? = none := by
  refine transfer?_of_kind rfl (fun hv => ?_) fun hv => ?_
  · rw [Op.verb, hv] at h
    cases h
  · rw [Op.verb, hv] at h
    cases h

/-- The operation of the place, and the next one if the rule takes it, are exchanged for operations
that transfer nothing either. -/
theorem exchange (h : Rewrites s rule ops) (hs : s.op.transfer? = none) :
    ∃ olds news rest, s.op :: s.after = olds ++ rest ∧ ops = news ++ rest ∧
      (∀ op ∈ olds, op.transfer? = none) ∧ ∀ op ∈ news, op.transfer? = none := by
  have hnil : ∀ op ∈ ([] : List Op), op.transfer? = none := fun _ h => absurd h List.not_mem_nil
  have one : ∀ {a : Op}, a.transfer? = none → ∀ op ∈ [a], op.transfer? = none := fun ha =>
    List.forall_mem_cons.mpr ⟨ha, hnil⟩
  have two : ∀ {a b : Op}, a.transfer? = none → b.transfer? = none →
      ∀ op ∈ [a, b], op.transfer? = none := fun ha hb => List.forall_mem_cons.mpr ⟨ha, one hb⟩
  have drop₂ : ∀ {next : Op} {rest news : List Op}, s.after = next :: rest →
      next.transfer? = none → (∀ op ∈ news, op.transfer? = none) → ops = news ++ rest →
      ∃ olds news rest, s.op :: s.after = olds ++ rest ∧ ops = news ++ rest ∧
        (∀ op ∈ olds, op.transfer? = none) ∧ ∀ op ∈ news, op.transfer? = none := by
    intro next rest news ha hnext hnews hops
    exact ⟨[s.op, next], news, rest, by rw [ha]; rfl, hops, two hs hnext, hnews⟩
  cases h with
  | plainCopy hk | readSingleElement hk | readUnusedPlanes hk | writeSingleElement hk =>
    rw [Op.transfer?, hk] at hs
    cases hs
  | swapBytesNoop | shiftNoop | clearNoop | swizzleIdentity | convertNoop | ditherExact
  | affineIdentity | scaleNoop | clampAbove | clampBelow =>
    exact ⟨[s.op], [], s.after, rfl, rfl, one hs, hnil⟩
  | clearUnused | affineResetUnused | affineScalar | scaleShiftLeft | scaleShiftRight =>
    exact ⟨[s.op], [_], s.after, rfl, rfl, one hs, one rfl⟩
  | affineConstantRows | affineSwizzle =>
    exact ⟨[s.op], [_, _], s.after, rfl, rfl, one hs, two rfl rfl⟩
  | swapBytesPair _ ha _ hn | unpackPack _ ha _ hn =>
    exact drop₂ ha (by rw [Op.transfer?, hn]) hnil rfl
  | shiftPairOverflow ha _ hk =>
    refine drop₂ ha ?_ (one rfl) rfl
    rcases hk with ⟨-, hn⟩ | ⟨-, hn⟩
    · rw [Op.transfer?, hn]
    · rw [Op.transfer?, hn]
  | shiftPairLeft _ ha _ hn | shiftPairRight _ ha _ hn | affinePair _ ha _ hn
  | scalePair _ ha _ hn | convertPair _ ha _ hn | convertExpand _ ha _ hn =>
    exact drop₂ ha (by rw [Op.transfer?, hn]) (one rfl) rfl
  | clearPair _ ha hn | swizzlePair _ ha hn =>
    exact drop₂ ha (by rw [Op.transfer?, hn]) (one rfl) rfl
  | clearSwizzle _ ha hn | scaleAfterConvert _ ha _ hn =>
    have hnext := transfer?_of_kind hn (fun hv => Verb.noConfusion hv) fun hv => Verb.noConfusion hv
    exact drop₂ ha hnext (two hnext rfl) rfl
  | clearFold _ ha hv =>
    have hnext := transfer?_of_componentwise (Verb.isComponentwise_of_passesConstants hv)
    exact drop₂ ha hnext (two hnext rfl) rfl
  | swizzleCommute _ ha hn hm =>
    obtain ⟨-, hverb, -⟩ := Place.movedBefore?_eq_some hn hm
    refine drop₂ ha (transfer?_of_componentwise hn) (two (transfer?_of_componentwise ?_) rfl) rfl
    rw [hverb]
    exact hn

/-- A rule for transfers takes a read and a write together for a copy, or it narrows one of them. -/
theorem ofTransfer {l : Layout} (h : Rewrites s rule ops) (hs : s.op.transfer? = some l)
    (hl : 0 < l.count) :
    (rule = .plainCopy ∧ s.op.kind = .read l ∧
      ∃ next, s.after = next :: ops ∧ next.elem = s.op.target ∧ next.kind = .write l) ∨
    rule ≠ .plainCopy ∧ ∃ l', Shape.Narrows ⟨s.op.elem, l'⟩ ⟨s.op.elem, l⟩ ∧
      (s.op.kind = .read l ∧ ops = s.become (.read l') s.after ∨
        s.op.kind = .write l ∧ l'.count = l.count ∧ ops = s.become (.write l') s.after) := by
  have hother : ∀ k, s.op.kind = k → k.verb = .read ∨ k.verb = .write := by
    rintro k rfl
    cases hk : s.op.kind with
    | read => exact .inl rfl
    | write => exact .inr rfl
    | _ =>
      rw [Op.transfer?, hk] at hs
      cases hs
  cases h with
  | plainCopy hk ha he hn =>
    rw [Op.transfer?, hk] at hs
    cases hs
    exact .inl ⟨rfl, hk, _, ha, he, hn⟩
  | readSingleElement hk _ hc =>
    rw [Op.transfer?, hk] at hs
    cases hs
    exact .inr ⟨fun h => Rule.noConfusion h, { l with packed := false },
      ⟨rfl, rfl, hl, Nat.le_refl _, fun _ => rfl, .inr hc⟩, .inl ⟨hk, rfl⟩⟩
  | @readUnusedPlanes l' used hk hp hu hlt =>
    rw [Op.transfer?, hk] at hs
    cases hs
    exact .inr ⟨fun h => Rule.noConfusion h, { l with count := used },
      ⟨rfl, rfl, (Site.usedPlanes_eq_ok hu).1, Nat.le_of_lt hlt,
        fun h => absurd (hp.symm.trans h) Bool.false_ne_true, .inl rfl⟩, .inl ⟨hk, rfl⟩⟩
  | writeSingleElement hk _ hc =>
    rw [Op.transfer?, hk] at hs
    cases hs
    exact .inr ⟨fun h => Rule.noConfusion h, { l with packed := false },
      ⟨rfl, rfl, hl, Nat.le_refl _, fun _ => rfl, .inr hc⟩, .inr ⟨hk, rfl, rfl⟩⟩
  | shiftNoop hk =>
    rcases hk with hk | hk
    · rcases hother _ hk with hv | hv <;> cases hv
    · rcases hother _ hk with hv | hv <;> cases hv
  | shiftPairOverflow _ _ hk =>
    rcases hk with ⟨hk, -⟩ | ⟨hk, -⟩
    · rcases hother _ hk with hv | hv <;> cases hv
    · rcases hother _ hk with hv | hv <;> cases hv
  | swapBytesNoop hk | swapBytesPair hk | unpackPack hk | shiftPairLeft hk | shiftPairRight hk
  | clearNoop hk | clearUnused hk | clearPair hk | clearSwizzle hk | clearFold hk
  | swizzleIdentity hk | swizzlePair hk | swizzleCommute hk | convertNoop hk | convertPair hk
  | convertExpand hk | ditherExact hk | affineIdentity hk | affinePair hk | affineResetUnused hk
  | affineConstantRows hk | affineScalar hk | affineSwizzle hk | scaleNoop hk | scalePair hk
  | scaleAfterConvert hk | scaleShiftLeft hk | scaleShiftRight hk | clampAbove hk
  | clampBelow hk => rcases hother _ hk with hv | hv <;> cases hv

/-! ## 3. Frames -/

/-- After the read, a rule leaves operations that end in a write of as many components. -/
theorem endsIn {w : Shape} (h : Rewrites s rule ops) (hw : 0 < w.layout.count)
    (hends : EndsIn w (s.op :: s.after)) : rule ≠ .plainCopy ∧
      ∃ w', EndsIn w' ops ∧ w'.Narrows w ∧ w'.layout.count = w.layout.count := by
  rcases hends.cons_cases with ⟨wi, hop, hafter⟩ | ⟨hop, -⟩
  · have hkind : s.op.kind = .write w.layout := by rw [hop]
    have helem : s.op.elem = w.elem := by rw [hop]
    rcases h.ofTransfer (by rw [Op.transfer?, hkind]) hw with ⟨-, hk, -⟩ | ⟨hrule, l', hn, hk⟩
    · rw [hkind] at hk
      cases hk
    · rw [helem] at hn
      rcases hk with ⟨hk, -⟩ | ⟨-, hcount, rfl⟩
      · rw [hkind] at hk
        cases hk
      · refine ⟨hrule, ⟨w.elem, l'⟩, ⟨[], wi, ?_, ?_⟩, hn, hcount⟩
        · rw [Site.become, hop, hafter]
          rfl
        · exact fun _ ho => absurd ho List.not_mem_nil
  · obtain ⟨olds, news, rest, hold, hops, holds, hnews⟩ := h.exchange hop
    rw [hold] at hends
    refine ⟨?_, w, ?_, .refl hw, rfl⟩
    · rintro rfl
      cases h with
      | plainCopy hk =>
        rw [Op.transfer?, hk] at hop
        cases hop
    · rw [hops]
      exact (hends.drop holds).append hnews

/-- What becomes of the read: it is narrowed, or read and write together are a copy. -/
theorem ofRead {r w : Shape} {ri : Info} (h : Rewrites s rule ops)
    (hop : s.op = ⟨r.elem, .read r.layout, ri⟩) (hr : 0 < r.layout.count)
    (hends : EndsIn w s.after) :
    (rule = .plainCopy ∧ ops = [] ∧ r = w ∧ ∃ wi, s.after = [⟨w.elem, .write w.layout, wi⟩]) ∨
    rule ≠ .plainCopy ∧
      ∃ r' ri', ops = ⟨r'.elem, .read r'.layout, ri'⟩ :: s.after ∧ Shape.Narrows r' r := by
  have hkind : s.op.kind = .read r.layout := by rw [hop]
  have helem : s.op.elem = r.elem := by rw [hop]
  rcases h.ofTransfer (by rw [Op.transfer?, hkind]) hr with
    ⟨hrule, -, next, ha, he, hn⟩ | ⟨hrule, l', hn, hk⟩
  · rw [ha] at hends
    rcases hends.cons_cases with ⟨wi, rfl, rfl⟩ | ⟨hnext, -⟩
    · refine .inl ⟨hrule, rfl, ?_, wi, ha⟩
      have he : w.elem = r.elem := he.trans (by rw [hop]; rfl)
      have hl : w.layout = r.layout := Kind.write.inj hn
      obtain ⟨welem, wlayout⟩ := w
      obtain ⟨relem, rlayout⟩ := r
      cases he
      cases hl
      rfl
    · rw [Op.transfer?, hn] at hnext
      cases hnext
  · rw [helem] at hn
    rcases hk with ⟨-, rfl⟩ | ⟨hk, -⟩
    · refine .inr ⟨hrule, ⟨r.elem, l'⟩, ri, ?_, hn⟩
      rw [Site.become, hop]
    · rw [hkind] at hk
      cases hk

end Rewrites

/-- **What a rule makes of a framed program** is framed by narrower shapes, with as many components
written, unless the rule takes the whole of it for a copy. -/
theorem Program.Framed.rewrite {p : Program} {r w : Shape} {inner pre rest out : List Op} {op : Op}
    {before : Option Op} {rule : Rule} (hp : p.Framed r w inner) (hops : p.ops = pre ++ op :: rest)
    (h : Rewrites ⟨before, op, rest⟩ rule out) {q : Program} (hq : q.ops = pre ++ out) :
    (rule ≠ .plainCopy ∧ ∃ r' w' inner', q.Framed r' w' inner' ∧ r'.Narrows r ∧ w'.Narrows w ∧
      w'.layout.count = w.layout.count) ∨
    rule = .plainCopy ∧ q.ops = [] ∧ r = w ∧ inner = [] := by
  have hr : 0 < r.layout.count := (Layout.wellFormed_iff.mp hp.read).1
  have hw : 0 < w.layout.count := (Layout.wellFormed_iff.mp hp.write).1
  obtain ⟨ri, tail, htail, hends⟩ := hp.endsIn
  rw [hops] at htail
  cases pre with
  | nil =>
    obtain ⟨rfl, rfl⟩ := List.cons.inj htail
    rcases h.ofRead rfl hr hends with ⟨hrule, rfl, rfl, wi, hafter⟩ | ⟨hrule, r', ri', rfl, hn⟩
    · have hlen := hp.length
      have hafter : rest = [_] := hafter
      rw [hops, hafter, List.nil_append, List.length_cons, List.length_singleton] at hlen
      exact .inr ⟨hrule, hq, rfl, List.length_eq_zero_iff.mp (by omega)⟩
    · obtain ⟨inner', hq'⟩ := exists_framed hq hends (hn.wellFormed hp.read) hp.write
      exact .inl ⟨hrule, r', w, inner', hq', hn, .refl hw, rfl⟩
  | cons a pre =>
    obtain ⟨rfl, rfl⟩ := List.cons.inj htail
    obtain ⟨hpre, hop⟩ := hends.split
    obtain ⟨hrule, w', hout, hn, hcount⟩ := h.endsIn hw hop
    obtain ⟨inner', hq'⟩ := exists_framed hq (hout.append hpre) hp.read (hn.wellFormed hp.write)
    exact .inl ⟨hrule, r, w', inner', hq', .refl hr, hn, hcount⟩

/-! ## 4. Runs -/

namespace Program

variable {p q : Program} {r w : Shape}

/-- The frame of a program is that of its codes. -/
theorem Framed.congr {inner : List Op} (h : p.Framed r w inner) (hc : codes p.ops = codes q.ops) :
    ∃ inner', q.Framed r w inner' ∧ codes inner = codes inner' := by
  obtain ⟨ri, wi, hops⟩ := h.ops
  rw [hops, codes_cons, codes_append] at hc
  obtain ⟨a, rest, hq, ha, hrest⟩ := List.map_eq_cons_iff.mp hc.symm
  obtain ⟨inner', last, rfl, hinner, hlast⟩ := List.map_eq_append_iff.mp hrest
  obtain ⟨b, none, rfl, hb, hnil⟩ := List.map_eq_cons_iff.mp hlast
  obtain rfl := List.map_eq_nil_iff.mp hnil
  obtain ⟨ae, ak, ai⟩ := a
  obtain ⟨be, bk, bi⟩ := b
  cases ha
  cases hb
  refine ⟨inner', ⟨⟨ai, bi, hq⟩, ?_, h.read, h.write⟩, hinner.symm⟩
  exact forall_of_codes (fun hcode ha => (Op.transfer?_congr hcode).symm.trans ha) hinner.symm h.inner

/-- Before any operation of a framed program there is no write. -/
theorem Framed.not_write {inner pre rest : List Op} {op : Op} (h : q.Framed r w inner)
    (hops : q.ops = pre ++ op :: rest) : ∀ o ∈ pre, ∀ l, o.kind ≠ .write l := by
  obtain ⟨ri, tail, htail, hends⟩ := h.endsIn
  rw [hops] at htail
  intro o ho l hl
  cases pre with
  | nil => exact absurd ho List.not_mem_nil
  | cons a pre =>
    obtain ⟨rfl, rfl⟩ := List.cons.inj htail
    rcases List.mem_cons.mp ho with rfl | ho
    · cases hl
    · have hnone := hends.split.1 o ho
      rw [Op.transfer?, hl] at hnone
      cases hnone

/-- Only the first operation of a framed program reads. -/
theorem Framed.read_eq {inner : List Op} {op : Op} {l : Layout} (h : q.Framed r w inner)
    (hop : op ∈ q.ops) (hl : op.kind = .read l) :
    ∃ ri, op = ⟨r.elem, .read r.layout, ri⟩ := by
  obtain ⟨ri, wi, hops⟩ := h.ops
  rw [hops] at hop
  rcases List.mem_cons.mp hop with rfl | hop
  · exact ⟨ri, rfl⟩
  · rcases List.mem_append.mp hop with hop | hop
    · have hnone := h.inner op hop
      rw [Op.transfer?, hl] at hnone
      cases hnone
    · rw [List.mem_singleton.mp hop] at hl
      cases hl

/-- A step leads from a framed program to one that is framed by narrower shapes, or to nothing. -/
theorem Framed.step {inner : List Op} {applied : Applied} (hp : p.Framed r w inner)
    (hstep : p.analyse.step = .ok (some (applied, q))) :
    (∃ r' w' inner', q.Framed r' w' inner' ∧ r'.Narrows r ∧ w'.Narrows w) ∨ q.ops = [] := by
  obtain ⟨pre, op, rest, out, before, after, hops, rfl, -, hrule, -⟩ := step_eq_some hstep
  obtain ⟨inner', hpa, -⟩ := hp.congr (codes_analyse p).symm
  rcases hpa.rewrite hops (Rule.rewrites hrule)
    (q := { p.analyse with ops := pre ++ out, analysed := false }) rfl with
    ⟨-, r', w', inner'', hq, hr, hw, -⟩ | ⟨-, hnil, -⟩
  · exact .inl ⟨r', w', inner'', hq, hr, hw⟩
  · exact .inr hnil

/-- A step on a framed program faults only where constants cannot be moved past an operation. -/
theorem Framed.step_eq_error {inner : List Op} (hq : q.Framed r w inner) {f : Fault}
    (hf : q.analyse.step = .error f) : ∃ values op next, op ∈ q.analyse.ops ∧ next ∈ q.analyse.ops ∧
      op.kind = .clear values ∧ next.verb.passesConstants = true ∧
      next.foldConsts? values = .error f := by
  obtain ⟨inner', hqa, -⟩ := hq.congr (codes_analyse q).symm
  obtain ⟨pre, op, rest, before, hops, hfaults⟩ := Program.step_eq_error hf
  have hop : op ∈ q.analyse.ops := by
    rw [hops]
    exact List.mem_append_right _ List.mem_cons_self
  cases hfaults with
  | read hl hcount =>
    obtain ⟨ri, rfl⟩ := hqa.read_eq hop hl
    cases hl
    have hle := (Layout.wellFormed_iff.mp hqa.read).2.1
    omega
  | @fold values next rest' hk ha hv hfold =>
    obtain rfl : rest = next :: rest' := ha
    refine ⟨values, op, next, hop, ?_, hk, hv, hfold⟩
    rw [hops]
    exact List.mem_append_right _ (List.mem_cons_of_mem _ List.mem_cons_self)

theorem analyse_ops_of_nil (h : q.ops = []) : q.analyse.ops = [] := by
  have hcodes := codes_analyse q
  rw [h] at hcodes
  exact List.map_eq_nil_iff.mp hcodes

/-- Nothing fires on a program without operations. -/
theorem step_of_nil (h : q.ops = []) : q.analyse.step = .ok none := by
  rw [step, analyse_ops_of_nil h]
  rfl

/-- A run keeps what its steps keep, unless it ends in a program without operations. -/
theorem Reduces.keeps {I J : Program → Prop} (hempty : ∀ q, J q → q.ops = [])
    (hstep : ∀ q q' applied, I q → q.analyse.step = .ok (some (applied, q')) → I q' ∨ J q')
    {rules : List Applied} (hrun : p.Reduces rules q) (h : I p ∨ J p) : I q ∨ J q := by
  induction hrun with
  | refl => exact h
  | step first _ ih =>
    rcases h with h | h
    · exact ih (hstep _ _ _ h first)
    · rw [step_of_nil (hempty _ h)] at first
      cases first

/-- **What steps keep, simplification keeps**, unless it ends in a program without operations. -/
theorem keeps_of_simplify {I J : Program → Prop} (hempty : ∀ q, J q → q.ops = [])
    (hstep : ∀ q q' applied, I q → q.analyse.step = .ok (some (applied, q')) → I q' ∨ J q')
    (h : I p) {rules : List Applied} {t : Program} (hs : p.simplify = .ok (rules, t)) :
    ∃ q, t = q.analyse ∧ (I q ∨ J q) ∧ q.analyse.step = .ok none := by
  have hout := simplify_outcome p
  rw [hs] at hout
  obtain ⟨-, q, hrun, hend, rfl⟩ := hout
  exact ⟨q, rfl, hrun.keeps hempty hstep (.inl h), hend⟩

theorem measurable_of_nil (h : q.ops = []) : q.Measurable := by
  intro op hop
  rw [h] at hop
  cases hop

/-- **What steps keep, the program has with which simplification breaks off.** -/
theorem faults_of_simplify {I : Program → Prop}
    (hstep : ∀ q q' applied, I q → q.analyse.step = .ok (some (applied, q')) → I q' ∨ q'.ops = [])
    (h : I p) {f : Fault} (hs : p.simplify = .error f) : ∃ q, I q ∧ q.Faults f := by
  have hout := simplify_outcome p
  rw [hs] at hout
  obtain ⟨rules, q, hrun, hf⟩ := hout
  rcases hrun.keeps (J := fun q => q.ops = []) (fun _ hq => hq) hstep (.inl h) with hq | hq
  · exact ⟨q, hq, hf⟩
  · rcases hf with ⟨hnot, -⟩ | ⟨-, hf⟩
    · exact absurd (measurable_of_nil hq) hnot
    · rw [step_of_nil hq] at hf
      cases hf

/-- **Where steps keep what excludes faults, simplification comes to its end.** -/
theorem exists_simplify {I : Program → Prop}
    (hstep : ∀ q q' applied, I q → q.analyse.step = .ok (some (applied, q')) → I q' ∨ q'.ops = [])
    (hsafe : ∀ q f, I q → ¬q.Faults f) (h : I p) : ∃ rules q, p.simplify = .ok (rules, q) := by
  cases hs : p.simplify with
  | ok answer => exact ⟨answer.1, answer.2, rfl⟩
  | error f =>
    obtain ⟨q, hq, hf⟩ := faults_of_simplify hstep h hs
    exact absurd hf (hsafe q f hq)

/-- **What a framed program simplifies to** is framed by narrower shapes, or it is nothing. -/
theorem Framed.of_simplify {inner : List Op} (hp : p.Framed r w inner) {rules : List Applied}
    {t : Program} (hs : p.simplify = .ok (rules, t)) :
    t.ops = [] ∨ ∃ r' w' inner', t.Framed r' w' inner' ∧ r'.Narrows r ∧ w'.Narrows w := by
  have hr : 0 < r.layout.count := (Layout.wellFormed_iff.mp hp.read).1
  have hw : 0 < w.layout.count := (Layout.wellFormed_iff.mp hp.write).1
  have hstep : ∀ (q q' : Program) (applied : Applied),
      (∃ r' w' inner', q.Framed r' w' inner' ∧ r'.Narrows r ∧ w'.Narrows w) →
      q.analyse.step = .ok (some (applied, q')) →
      (∃ r' w' inner', q'.Framed r' w' inner' ∧ r'.Narrows r ∧ w'.Narrows w) ∨ q'.ops = [] := by
    rintro q q' applied ⟨r', w', inner', hq, hr', hw'⟩ hs
    rcases hq.step hs with ⟨r'', w'', inner'', hq', hr'', hw''⟩ | hnil
    · exact .inl ⟨r'', w'', inner'', hq', hr''.trans hr', hw''.trans hw'⟩
    · exact .inr hnil
  obtain ⟨q, rfl, hq, -⟩ := keeps_of_simplify (J := fun q => q.ops = []) (fun _ hq => hq) hstep
    ⟨r, w, inner, hp, .refl hr, .refl hw⟩ hs
  rcases hq with ⟨r', w', inner', hq, hr', hw'⟩ | hnil
  · obtain ⟨inner'', hqa, -⟩ := hq.congr (codes_analyse q).symm
    exact .inr ⟨r', w', inner'', hqa, hr', hw'⟩
  · exact .inl (analyse_ops_of_nil hnil)

end Program

end PixelConv
