import PixelConv.Program

/-!
# The structure of a checked program

A program that passes the structural check is a read, operations that are not transfers, and a
write, with layouts that exist (`Program.check_eq_ok`); its ends are those of the two transfers.
-/

namespace PixelConv

namespace Program

/-- The operations are a read of shape `r`, the operations `inner`, which transfer nothing, and a
write of shape `w`, and both layouts exist. -/
structure Framed (p : Program) (r w : Shape) (inner : List Op) : Prop where
  ops : ∃ ri wi, p.ops = ⟨r.elem, .read r.layout, ri⟩ :: (inner ++ [⟨w.elem, .write w.layout, wi⟩])
  inner : ∀ op ∈ inner, op.transfer? = none
  read : r.layout.wellFormed = true
  write : w.layout.wellFormed = true

theorem source?_eq_some {p : Program} {r : Shape} (h : p.source? = some r) :
    ∃ info rest, p.ops = ⟨r.elem, .read r.layout, info⟩ :: rest := by
  unfold source? at h
  cases hops : p.ops with
  | nil => simp [hops] at h
  | cons op rest =>
    rw [hops, List.head?_cons] at h
    obtain ⟨elem, kind, info⟩ := op
    cases kind with
    | read l =>
      cases h
      exact ⟨info, rest, rfl⟩
    | _ => cases h

theorem destination?_eq_some {p : Program} {w : Shape} (h : p.destination? = some w) :
    ∃ init info, p.ops = init ++ [⟨w.elem, .write w.layout, info⟩] := by
  unfold destination? at h
  cases hlast : p.ops.getLast? with
  | none => simp [hlast] at h
  | some op =>
    rw [hlast] at h
    obtain ⟨init, hinit⟩ := List.getLast?_eq_some_iff.mp hlast
    obtain ⟨elem, kind, info⟩ := op
    cases kind with
    | write l =>
      cases h
      exact ⟨init, info, hinit⟩
    | _ => cases h

/-- **What the structural check says about a program.** -/
theorem check_eq_ok {p : Program} (h : p.check = .ok (.ok ())) :
    ∃ r w inner, p.Framed r w inner ∧ (p.analysed = true → checkWritten p.ops = .ok (.ok ())) := by
  unfold check at h
  split at h
  · cases h
  rename_i hlen
  split at h
  · cases h
  rename_i hsource
  split at h
  · cases h
  rename_i hdest
  split at h
  · cases h
  rename_i hinner
  cases hw : (if p.analysed then checkWritten p.ops else .ok (.ok ())) with
  | error f => rw [hw] at h; cases h
  | ok written =>
    rw [hw] at h
    cases written with
    | error e => cases h
    | ok _ =>
      simp only [Except.ok.injEq] at h
      split at h
      · cases h
      rename_i hbad
      obtain ⟨r, hr⟩ : ∃ r, p.source? = some r :=
        Option.ne_none_iff_exists'.mp fun hn => hsource (by rw [hn]; rfl)
      obtain ⟨w, hw'⟩ : ∃ w, p.destination? = some w :=
        Option.ne_none_iff_exists'.mp fun hn => hdest (by rw [hn]; rfl)
      obtain ⟨ri, rest, hops⟩ := source?_eq_some hr
      obtain ⟨init, wi, hops'⟩ := destination?_eq_some hw'
      -- at least two operations, so the read is not the write
      have hinit : ∃ inner, init = ⟨r.elem, .read r.layout, ri⟩ :: inner := by
        cases init with
        | nil =>
          rw [hops', List.nil_append, List.length_singleton] at hlen
          omega
        | cons a inner =>
          rw [hops, List.cons_append] at hops'
          exact ⟨inner, by rw [(List.cons.inj hops').1]⟩
      obtain ⟨inner, rfl⟩ := hinit
      rw [List.cons_append] at hops'
      have hwf : ∀ op ∈ p.ops, ∀ l, op.transfer? = some l → l.wellFormed = true := by
        intro op hop l hl
        cases hwf : l.wellFormed with
        | true => rfl
        | false =>
          refine absurd (List.any_eq_true.mpr ⟨op, hop, ?_⟩) hbad
          rw [hl, Option.any_some, hwf]
          rfl
      refine ⟨r, w, inner, ⟨⟨ri, wi, hops'⟩, fun op hop => ?_, ?_, ?_⟩, fun ha => ?_⟩
      · cases ht : op.transfer? with
        | none => rfl
        | some l =>
          refine absurd (List.any_eq_true.mpr ⟨op, ?_, by rw [ht]; rfl⟩) hinner
          rw [Program.inner, hops', List.tail_cons, List.dropLast_concat]
          exact hop
      · exact hwf _ (by rw [hops']; exact List.mem_cons_self) _ rfl
      · exact hwf _ (by rw [hops']; exact List.mem_cons_of_mem _ (List.mem_append_right _
          (List.mem_singleton.mpr rfl))) _ rfl
      · rw [if_pos ha] at hw
        exact hw

variable {p : Program} {r w : Shape} {inner : List Op}

theorem Framed.source? (h : p.Framed r w inner) : p.source? = some r := by
  obtain ⟨ri, wi, hops⟩ := h.ops
  simp only [Program.source?, hops, List.head?_cons]

theorem Framed.destination? (h : p.Framed r w inner) : p.destination? = some w := by
  obtain ⟨ri, wi, hops⟩ := h.ops
  have hlast : p.ops.getLast? = some ⟨w.elem, .write w.layout, wi⟩ := by
    rw [hops, ← List.cons_append, List.getLast?_concat]
  simp only [Program.destination?, hlast]

theorem Framed.ends (h : p.Framed r w inner) : p.ends = .ok (r, w) := by
  simp only [Program.ends, h.source?, h.destination?]

theorem Framed.inner_eq (h : p.Framed r w inner) : p.inner = inner := by
  obtain ⟨ri, wi, hops⟩ := h.ops
  rw [Program.inner, hops, List.tail_cons, List.dropLast_concat]

theorem Framed.length (h : p.Framed r w inner) : p.ops.length = inner.length + 2 := by
  obtain ⟨ri, wi, hops⟩ := h.ops
  rw [hops, List.length_cons, List.length_append, List.length_singleton]

theorem Framed.isEmpty_ops (h : p.Framed r w inner) : p.ops.isEmpty = false := by
  obtain ⟨ri, wi, hops⟩ := h.ops
  rw [hops]
  rfl

/-- The check of a framed program comes down to the written components. -/
theorem Framed.check_eq (h : p.Framed r w inner) :
    p.check = if p.analysed then checkWritten p.ops else .ok (.ok ()) := by
  obtain ⟨ri, wi, hops⟩ := h.ops
  have hlen : ¬p.ops.length < 2 := by
    have := h.length
    omega
  have hinner : p.inner.any (·.transfer?.isSome) = false := by
    rw [h.inner_eq, List.any_eq_false]
    intro op hop
    rw [h.inner op hop]
    exact Bool.false_ne_true
  have hbad : p.hasBadLayout = false := by
    rw [hasBadLayout, hops, List.any_eq_false]
    intro op hop
    rcases List.mem_cons.mp hop with rfl | hop
    · rw [Op.transfer?, Option.any_some, h.read]
      exact Bool.false_ne_true
    · rcases List.mem_append.mp hop with hop | hop
      · rw [h.inner op hop]
        exact Bool.false_ne_true
      · rw [List.mem_singleton.mp hop, Op.transfer?, Option.any_some, h.write]
        exact Bool.false_ne_true
  rw [Program.check, if_neg hlen, h.source?, h.destination?, hinner, hbad]
  simp only [Option.isNone_some, Bool.false_eq_true, if_false]
  generalize (if p.analysed = true then checkWritten p.ops else .ok (.ok ())) = answer
  cases answer with
  | error f => rfl
  | ok result =>
    cases result with
    | error e => rfl
    | ok u => rfl

/-- Framed programs pass the check, provided that the written components are defined. -/
theorem Framed.check (h : p.Framed r w inner)
    (hwritten : p.analysed = true → checkWritten p.ops = .ok (.ok ())) : p.check = .ok (.ok ()) := by
  rw [h.check_eq]
  by_cases ha : p.analysed = true
  · rw [if_pos ha]
    exact hwritten ha
  · rw [if_neg ha]

end Program

end PixelConv
