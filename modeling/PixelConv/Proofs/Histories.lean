import Mathlib.Data.List.InsertIdx
import PixelConv.Proofs.NormalForm

/-!
# Histories of edits

Operations may come with information from anywhere, and the one flag of a program says whether what
they carry is current. A history starts with a list of operations and then edits, analyses and
simplifies in any order. Main statement: a program that calls itself analysed is analysed
(`Program.current_of_edited`). Its information is what a fresh analysis finds, whatever its
operations carried, and it would be the same had they carried none.
-/

namespace PixelConv

/-! ## 1. Edits -/

/-- A step of a history. -/
inductive Edit where
  | push (op : Op)
  | insertIdx (i : Nat) (op : Op)
  | removeIdx (i : Nat)
  | withDepths (depths : Depths)
  | analyse
  | simplify

/-- The program after an edit. -/
def Edit.apply (p : Program) : Edit → Checked Program
  | push op => .ok (p.push op)
  | insertIdx i op => p.insertIdx i op
  | removeIdx i => (p.removeIdx i).map Prod.snd
  | withDepths depths => .ok (p.withDepths depths)
  | analyse => p.analysis
  | simplify => p.simplify.map Prod.snd

/-- The program after a history. It breaks off at the first edit that faults. -/
def Program.edited (p : Program) (edits : List Edit) : Checked Program := edits.foldlM Edit.apply p

/-- The operation without what is known about it. -/
def Op.bare (op : Op) : Op := .ofKind op.elem op.kind

/-- The edit with its operation bare. -/
def Edit.bare : Edit → Edit
  | push op => push op.bare
  | insertIdx i op => insertIdx i op.bare
  | edit => edit

theorem codes_bare (ops : List Op) : codes (ops.map Op.bare) = codes ops := by
  rw [codes, List.map_map]
  rfl

namespace Program

variable {p q r : Program}

theorem edited_cons_eq_ok {edit : Edit} {edits : List Edit} (h : p.edited (edit :: edits) = .ok r) :
    ∃ q, edit.apply p = .ok q ∧ q.edited edits = .ok r := by
  rw [edited, List.foldlM_cons] at h
  cases hq : edit.apply p with
  | error f => rw [hq] at h; cases h
  | ok q => rw [hq] at h; exact ⟨q, rfl, h⟩

theorem edited_cons_of_eq_ok {edit : Edit} (edits : List Edit) (h : edit.apply p = .ok q) :
    p.edited (edit :: edits) = q.edited edits := by
  rw [edited, List.foldlM_cons, h]
  rfl

/-! ## 2. The flag -/

/-- A program that calls itself analysed carries what an analysis finds. -/
def Current (p : Program) : Prop := p.analysed = true → p.analyse = p

theorem current_of_stale (h : p.analysed = false) : p.Current := by
  intro ha
  rw [h] at ha
  cases ha

theorem current_analyse (p : Program) : p.analyse.Current := fun _ => analyse_analyse p

/-- **One edit**: it takes the flag away or leaves an analysed program. -/
theorem current_of_apply {edit : Edit} (h : edit.apply p = .ok q) : q.Current := by
  cases edit with
  | push op =>
    cases h
    exact current_of_stale rfl
  | insertIdx i op =>
    simp only [Edit.apply, insertIdx] at h
    split at h
    · cases h
      exact current_of_stale rfl
    · cases h
  | removeIdx i =>
    simp only [Edit.apply, removeIdx] at h
    split at h
    · cases h
      exact current_of_stale rfl
    · cases h
  | withDepths depths =>
    cases h
    exact current_of_stale rfl
  | analyse =>
    obtain ⟨-, rfl⟩ := analysis_eq_ok_iff.mp h
    exact current_analyse p
  | simplify =>
    have hout := simplify_outcome p
    cases hs : p.simplify with
    | error f =>
      rw [Edit.apply, hs] at h
      cases h
    | ok answer =>
      rw [Edit.apply, hs] at h
      rw [hs] at hout
      cases h
      obtain ⟨-, r, -, -, hq⟩ := hout
      rw [hq]
      exact current_analyse r

/-- **A history** keeps the flag right. -/
theorem Current.edited {edits : List Edit} (hp : p.Current) (h : p.edited edits = .ok r) :
    r.Current := by
  induction edits generalizing p with
  | nil =>
    cases h
    exact hp
  | cons edit edits ih =>
    obtain ⟨q, hq, hr⟩ := edited_cons_eq_ok h
    exact ih (current_of_apply hq) hr

/-! ## 3. What the operations carry -/

/-- The programs differ at most in the information of their operations. -/
structure SameCodes (p q : Program) : Prop where
  codes : codes p.ops = codes q.ops
  depths : p.depths = q.depths
  analysed : p.analysed = q.analysed

theorem SameCodes.analyse_eq (h : p.SameCodes q) : p.analyse = q.analyse :=
  analyse_congr h.codes h.depths

theorem SameCodes.analysis_eq (h : p.SameCodes q) : p.analysis = q.analysis := by
  by_cases hp : p.Measurable
  · rw [analysis_of_measurable hp, analysis_of_measurable (hp.congr h.codes h.depths), h.analyse_eq]
  · rw [analysis_of_not_measurable hp, analysis_of_not_measurable fun hq =>
      hp (hq.congr h.codes.symm h.depths.symm)]

/-- Analysed programs are known by their codes. -/
theorem SameCodes.eq_of_current (h : p.SameCodes q) (hp : p.Current) (hq : q.Current)
    (ha : p.analysed = true) : p = q :=
  calc p = p.analyse := (hp ha).symm
    _ = q.analyse := h.analyse_eq
    _ = q := hq (h.analysed ▸ ha)

/-- Simplification starts with an analysis, and its bound is a matter of the codes. -/
theorem SameCodes.simplify_eq (h : p.SameCodes q) : p.simplify = q.simplify := by
  have hbudget : p.budget = q.budget := by
    have hweight : p.weight = q.weight := weight_congr h.codes
    rw [budget, budget, hweight]
  rw [simplify, simplify, hbudget]
  cases q.budget with
  | zero => rw [steps, steps, h.analysis_eq]
  | succ fuel => rw [steps, steps, h.analysis_eq]

/-- **One edit** does not look at what operations carry. -/
theorem SameCodes.apply_bare {p' : Program} {edit : Edit} (h : p.SameCodes q)
    (hp : edit.apply p = .ok p') : ∃ q', edit.bare.apply q = .ok q' ∧ p'.SameCodes q' := by
  have hlength : p.ops.length = q.ops.length := by
    rw [← length_codes, h.codes, length_codes]
  cases edit with
  | push op =>
    cases hp
    refine ⟨_, rfl, ?_, h.depths, rfl⟩
    show PixelConv.codes (p.ops ++ [op]) = PixelConv.codes (q.ops ++ [op.bare])
    rw [codes_append, codes_append, h.codes]
    rfl
  | insertIdx i op =>
    simp only [Edit.apply, insertIdx] at hp
    split at hp
    · rename_i hi
      cases hp
      refine ⟨_, if_pos (hlength ▸ hi), ?_, h.depths, rfl⟩
      show (p.ops.insertIdx i op).map Op.code = (q.ops.insertIdx i op.bare).map Op.code
      rw [List.map_insertIdx, List.map_insertIdx]
      exact congrArg (List.insertIdx · i op.code) h.codes
    · cases hp
  | removeIdx i =>
    simp only [Edit.apply, removeIdx] at hp
    split at hp
    · rename_i op hop
      cases hp
      obtain ⟨hi, -⟩ := List.getElem?_eq_some_iff.mp hop
      refine ⟨{ q with ops := q.ops.eraseIdx i, analysed := false }, ?_, ?_, h.depths, rfl⟩
      · simp only [Edit.bare, Edit.apply, removeIdx, List.getElem?_eq_getElem (hlength ▸ hi)]
        rfl
      · show (p.ops.eraseIdx i).map Op.code = (q.ops.eraseIdx i).map Op.code
        rw [← List.eraseIdx_map, ← List.eraseIdx_map]
        exact congrArg (List.eraseIdx · i) h.codes
    · cases hp
  | withDepths depths =>
    cases hp
    exact ⟨_, rfl, h.codes, rfl, rfl⟩
  | analyse =>
    refine ⟨p', ?_, rfl, rfl, rfl⟩
    rw [← hp]
    exact h.analysis_eq.symm
  | simplify =>
    refine ⟨p', ?_, rfl, rfl, rfl⟩
    rw [← hp]
    simp only [Edit.bare, Edit.apply, h.simplify_eq]

/-- **A history** goes the same way with bare operations. -/
theorem SameCodes.edited_bare {p' : Program} {edits : List Edit} (h : p.SameCodes q)
    (hp : p.edited edits = .ok p') :
    ∃ q', q.edited (edits.map Edit.bare) = .ok q' ∧ p'.SameCodes q' := by
  induction edits generalizing p q with
  | nil =>
    cases hp
    exact ⟨q, rfl, h⟩
  | cons edit edits ih =>
    obtain ⟨p₁, hp₁, hrest⟩ := edited_cons_eq_ok hp
    obtain ⟨q₁, hq₁, h₁⟩ := h.apply_bare hp₁
    obtain ⟨q', hq', h'⟩ := ih h₁ hrest
    exact ⟨q', (edited_cons_of_eq_ok _ hq₁).trans hq', h'⟩

/-! ## 4. Information is never stale -/

/-- **A program that calls itself analysed is analysed**, whatever history led to it: analysing it
again leaves it as it is, so does analysing any program of the same codes and source depths, and the
same history with bare operations ends in the same program. -/
theorem current_of_edited {ops : List Op} {edits : List Edit}
    (h : (ofOps ops).edited edits = .ok p) (ha : p.analysed = true) :
    p.analyse = p ∧
      (∀ q : Program, codes q.ops = codes p.ops → q.depths = p.depths → q.analyse = p) ∧
      (ofOps (ops.map Op.bare)).edited (edits.map Edit.bare) = .ok p := by
  have hcurrent : p.Current := (current_of_stale rfl).edited h
  have hstart : (ofOps ops).SameCodes (ofOps (ops.map Op.bare)) :=
    ⟨(codes_bare ops).symm, rfl, rfl⟩
  obtain ⟨q, hq, hsame⟩ := hstart.edited_bare h
  have hqcurrent : q.Current := (current_of_stale rfl).edited hq
  refine ⟨hcurrent ha, fun q hcodes hdepths => ?_, ?_⟩
  · rw [analyse_congr hcodes hdepths]
    exact hcurrent ha
  · rw [hsame.eq_of_current hcurrent hqcurrent ha]
    exact hq

/-- A conversion that is put together, analysed, changed and simplified. Its operations carry the
wrong information: each calls its output zero and unused. -/
def reworked : List Op × List Edit :=
  let wrong (kind : Kind) : Op :=
    ⟨.u8, kind, ⟨Quad.const ⟨false, true, true⟩, Quad.const Bounds.unknown, Quad.const true⟩⟩
  ([wrong (.read ⟨1, false, 0⟩)],
    [.push (wrong .swapBytes), .push (wrong (.write ⟨1, false, 0⟩)), .analyse,
      .insertIdx 1 (wrong (.shiftRight 1)), .removeIdx 2, .withDepths (Quad.const 4), .simplify])

theorem reworked_is_current : ∃ p, (ofOps reworked.1).edited reworked.2 = .ok p ∧
    p.analysed = true ∧ p.analyse = p ∧
      (ofOps (reworked.1.map Op.bare)).edited (reworked.2.map Edit.bare) = .ok p := by
  have hrun : ((ofOps reworked.1).edited reworked.2).toOption.map Program.analysed = some true := by
    decide +kernel
  cases hp : (ofOps reworked.1).edited reworked.2 with
  | error f =>
    rw [hp] at hrun
    cases hrun
  | ok p =>
    rw [hp] at hrun
    have ha : p.analysed = true := Option.some.inj hrun
    obtain ⟨hagain, -, hbare⟩ := current_of_edited hp ha
    exact ⟨p, rfl, ha, hagain, hbare⟩

end Program

end PixelConv
