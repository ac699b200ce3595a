import PixelConv.Proofs.Fields
import PixelConv.Proofs.Knowledge

/-!
# What the analysis is certain about

The three certainties of a component, as a mixture and as an output of a transform has them
(`Known.foldl_merge`, `AffineRow.garbage_rowKnown` and its companions). Nothing else is known about
an undefined component (`Op.coherent_knownAfter`), and no operation reads one unless something
undefined is read of it (`Op.needs_defined`).
-/

namespace PixelConv

/-! ## 1. Mixtures -/

namespace Known

/-- **A mixture** is undefined if a part of it is, and whole or zero if all of its parts are. -/
theorem foldl_merge : ∀ (ks : List Known) (a : Known), ks.foldl merge a =
    ⟨a.garbage || ks.any garbage, a.exact && ks.all exact, a.zero && ks.all zero⟩
  | [], ⟨_, _, _⟩ => by
    simp only [List.foldl_nil, List.any_nil, List.all_nil, Bool.or_false, Bool.and_true]
  | k :: ks, a => by
    rw [List.foldl_cons, foldl_merge ks]
    simp only [merge, List.any_cons, List.all_cons, Bool.or_assoc, Bool.and_assoc]

end Known

namespace AffineRow

/-- The input has a weight, and is not known to be zero. -/
def mixes (r : AffineRow) (known : Quad Known) (j : Fin 4) : Bool :=
  !((r.weight j).isZero || (known j).zero)

variable (r : AffineRow) (known : Quad Known)

theorem foldl_rowKnown : ∀ (js : List (Fin 4)) (a : Known),
    js.foldl (fun acc j =>
      if (r.weight j).isZero || (known j).zero then acc
      else
        let acc := acc.merge (known j)
        if (r.weight j).isInteger then acc else acc.inexact) a =
    ⟨a.garbage || js.any fun j => r.mixes known j && (known j).garbage,
      a.exact && js.all fun j => !r.mixes known j || (known j).exact && (r.weight j).isInteger,
      a.zero && js.all fun j => !r.mixes known j⟩
  | [], ⟨_, _, _⟩ => by
    simp only [List.foldl_nil, List.any_nil, List.all_nil, Bool.or_false, Bool.and_true]
  | j :: js, a => by
    rw [List.foldl_cons, foldl_rowKnown js, List.any_cons, List.all_cons, List.all_cons]
    cases hmixes : r.mixes known j with
    | false =>
      have hskip : ((r.weight j).isZero || (known j).zero) = true := by
        rwa [mixes, Bool.not_eq_false'] at hmixes
      simp only [hskip, if_true, Bool.false_and, Bool.false_or, Bool.not_false, Bool.true_or,
        Bool.true_and]
    | true =>
      have hadd : ((r.weight j).isZero || (known j).zero) = false := by
        rwa [mixes, Bool.not_eq_true'] at hmixes
      have hzero : (known j).zero = false := (Bool.or_eq_false_iff.mp hadd).2
      simp only [hadd, Bool.false_eq_true, if_false, Bool.true_and, Bool.not_true, Bool.false_or]
      cases (r.weight j).isInteger <;>
        simp [Known.merge, Known.inexact, hzero, Bool.or_assoc, Bool.and_assoc]

theorem rowKnown_eq : Op.knownAfter.rowKnown r known =
    ⟨Quad.indices.any fun j => r.mixes known j && (known j).garbage,
      r.offset.isInteger &&
        Quad.indices.all fun j => !r.mixes known j || (known j).exact && (r.weight j).isInteger,
      r.offset.isZero && Quad.indices.all fun j => !r.mixes known j⟩ := by
  rw [Op.knownAfter.rowKnown, foldl_rowKnown]
  cases r.offset.isZero <;> cases r.offset.isInteger <;> rfl

variable {r known}

/-- An output is undefined if an input that it mixes is. -/
theorem garbage_rowKnown : (Op.knownAfter.rowKnown r known).garbage = true ↔
    ∃ j, r.mixes known j = true ∧ (known j).garbage = true := by
  rw [rowKnown_eq]
  simp only [Quad.any_indices, Bool.and_eq_true]

/-- An output is whole if the offset, the weights and the inputs that it mixes are. -/
theorem exact_rowKnown : (Op.knownAfter.rowKnown r known).exact = true ↔
    r.offset.isInteger = true ∧ ∀ j, r.mixes known j = true →
      (known j).exact = true ∧ (r.weight j).isInteger = true := by
  rw [rowKnown_eq]
  simp only [Quad.all_indices, Bool.and_eq_true, Bool.or_eq_true, Bool.not_eq_true',
    ← Bool.not_eq_true, Classical.or_iff_not_imp_left, Classical.not_not]

/-- An output is zero if nothing is added up. -/
theorem zero_rowKnown : (Op.knownAfter.rowKnown r known).zero = true ↔
    r.offset.isZero = true ∧ ∀ j, r.mixes known j = false := by
  rw [rowKnown_eq]
  simp only [Quad.all_indices, Bool.and_eq_true, Bool.not_eq_true']

end AffineRow

/-! ## 2. Nothing else is known about undefined components -/

namespace Known

/-- What is undefined is neither whole nor zero. -/
def Coherent (k : Known) : Prop := k.garbage = true → k = undefined

variable {k : Known}

theorem coherent_of_garbage (h : k.garbage = false) : k.Coherent := by
  intro hg
  rw [h] at hg
  cases hg

theorem Coherent.inexact (h : k.Coherent) : k.inexact.Coherent := by
  intro hg
  rw [h hg]
  rfl

theorem Coherent.nonzero (h : k.Coherent) : k.nonzero.Coherent := by
  intro hg
  rw [h hg]
  rfl

theorem Coherent.garbage_of_exact (h : k.Coherent) (he : k.exact = true) : k.garbage = false := by
  refine Bool.eq_false_iff.mpr fun hg => ?_
  rw [h hg] at he
  cases he

theorem Coherent.garbage_of_zero (h : k.Coherent) (hz : k.zero = true) : k.garbage = false := by
  refine Bool.eq_false_iff.mpr fun hg => ?_
  rw [h hg] at hz
  cases hz

end Known

/-- An undefined input spoils what is known about an output that mixes it. -/
theorem AffineRow.coherent_rowKnown {r : AffineRow} {known : Quad Known}
    (h : ∀ j, (known j).Coherent) : (Op.knownAfter.rowKnown r known).Coherent := by
  intro hg
  obtain ⟨j, hj, hgarbage⟩ := garbage_rowKnown.mp hg
  have hexact : (Op.knownAfter.rowKnown r known).exact = false := by
    refine Bool.eq_false_iff.mpr fun he => ?_
    rw [(h j).garbage_of_exact ((exact_rowKnown.mp he).2 j hj).1] at hgarbage
    cases hgarbage
  have hzero : (Op.knownAfter.rowKnown r known).zero = false := by
    refine Bool.eq_false_iff.mpr fun hz => ?_
    rw [(zero_rowKnown.mp hz).2 j] at hj
    cases hj
  generalize Op.knownAfter.rowKnown r known = k at hg hexact hzero
  obtain ⟨garbage, exact, zero⟩ := k
  cases hg
  cases hexact
  cases hzero
  rfl

theorem Info.coherent_start (i : Fin 4) : (Info.start.known i).Coherent := by
  rw [Info.known_start]
  exact fun _ => rfl

namespace Op

variable {op : Op} {prev : Info}

/-- **Every operation** forgets everything about what it leaves undefined. -/
theorem coherent_knownAfter (h : ∀ i, (prev.known i).Coherent) (i : Fin 4) :
    ((op.knownAfter prev) i).Coherent := by
  have hclamped : ∀ (bound : Option Fraction) (k : Known), k.Coherent →
      (knownAfter.clamped bound k).Coherent := by
    intro bound k hk
    cases bound with
    | none => exact hk
    | some b =>
      rw [knownAfter.clamped]
      split
      · exact hk
      · exact hk.inexact
  unfold knownAfter
  cases op.kind with
  | read l =>
    simp only [Quad.get_ofFn]
    split
    · split <;> exact Known.coherent_of_garbage rfl
    · exact h i
  | write | swapBytes | shiftLeft | shiftRight => exact h i
  | atMost bounds | atLeast bounds =>
    simp only [Quad.get_zipWith]
    exact hclamped _ _ (h i)
  | dither =>
    simp only [Quad.get_map]
    exact (h i).nonzero
  | unpack widths =>
    simp only [Quad.get_map]
    split
    · exact h 0
    · exact fun _ => rfl
  | pack widths =>
    match i with
    | 0 =>
      show (List.foldl Known.merge Known.null _).Coherent
      rw [Known.foldl_merge]
      intro hg
      obtain ⟨j, hj, hg⟩ := Quad.any_take.mp (show (List.take _ _).any _ = true from hg)
      have hmissing : ∀ t : Known → Bool, t Known.undefined = false →
          (prev.known.toList.take (BitField.count widths)).all t = false := by
        intro t ht
        refine Bool.eq_false_iff.mpr fun hall => ?_
        have := Quad.all_take.mp hall j hj
        rw [h j hg, ht] at this
        cases this
      rw [hmissing Known.exact rfl, hmissing Known.zero rfl,
        show (List.take _ _).any Known.garbage = true from Quad.any_take.mpr ⟨j, hj, hg⟩]
      rfl
    | 1 | 2 | 3 => exact fun _ => rfl
  | clear values =>
    simp only [Quad.get_zipWith]
    split
    · exact h i
    · split
      · exact Known.coherent_of_garbage rfl
      · split <;> exact Known.coherent_of_garbage rfl
  | swizzle s =>
    simp only [Swizzle.get_apply]
    exact h _
  | convert target expand =>
    simp only
    split
    · simp only [Quad.get_map]
      split
      · exact h i
      · exact Known.coherent_of_garbage (Bool.eq_false_iff.mpr ‹_›)
    · exact h i
  | affine t =>
    simp only [Quad.get_map]
    exact AffineRow.coherent_rowKnown h
  | scale factor =>
    simp only
    split
    · exact h i
    · rw [Quad.get_map]
      exact (h i).inexact

/-- **No operation reads an undefined component**, unless something undefined is read of it. -/
theorem needs_defined {out : Quad Bool} (hwrite : ∀ l, op.kind ≠ .write l)
    (hcoherent : ∀ i, (prev.known i).Coherent)
    (hout : ∀ i, out i = true → ((op.knownAfter prev) i).garbage = false) (j : Fin 4)
    (hj : (op.needs out) j = true) : (prev.known j).garbage = false := by
  unfold needs at hj
  unfold knownAfter at hout
  cases hk : op.kind with
  | write l => exact absurd hk (hwrite l)
  | read l =>
    simp only [hk, Quad.get_ofFn, Bool.and_eq_true, decide_eq_true_eq] at hj hout
    have := hout j hj.2
    rwa [if_neg (Nat.not_lt.mpr hj.1)] at this
  | swapBytes | shiftLeft | shiftRight =>
    simp only [hk] at hj hout
    exact hout j hj
  | atMost bounds | atLeast bounds =>
    simp only [hk, Quad.get_zipWith, garbage_clamped] at hj hout
    exact hout j hj
  | dither =>
    simp only [hk, Quad.get_map] at hj hout
    exact hout j hj
  | scale factor =>
    simp only [hk] at hj hout
    have := hout j hj
    split at this
    · exact this
    · rwa [Quad.get_map] at this
  | convert target expand =>
    simp only [hk] at hj hout
    have := hout j hj
    split at this
    · rw [Quad.get_map] at this
      split at this <;> exact this
    · exact this
  | clear values =>
    simp only [hk, Quad.get_ofFn, Bool.and_eq_true, Quad.get_zipWith] at hj hout
    have := hout j hj.1
    rwa [Option.isNone_iff_eq_none.mp hj.2] at this
  | swizzle s =>
    simp only [hk, Quad.get_ofFn, Swizzle.get_apply] at hj hout
    obtain ⟨i, hi⟩ := Quad.any_indices.mp hj
    obtain ⟨hsource, hi⟩ := Bool.and_eq_true_iff.mp hi
    rw [← of_decide_eq_true hsource]
    exact hout i hi
  | unpack widths =>
    simp only [hk, Quad.get_map] at hj hout
    match j with
    | 0 =>
      obtain ⟨i, hi, hread⟩ := Quad.any_take.mp (show (List.take _ _).any _ = true from hj)
      have := hout i hread
      rwa [if_pos (BitField.pos_of_lt_count hi)] at this
    | 1 | 2 | 3 => cases hj
  | pack widths =>
    simp only [hk, Quad.get_ofFn, Bool.and_eq_true, decide_eq_true_eq] at hj hout
    have hmerged := hout 0 hj.2
    rw [show (Quad.mk _ Known.undefined Known.undefined Known.undefined) 0 = _ from rfl,
      Known.foldl_merge] at hmerged
    refine Bool.eq_false_iff.mpr fun hg => ?_
    rw [show (List.take _ prev.known.toList).any Known.garbage = true from
      Quad.any_take.mpr ⟨j, hj.1, hg⟩] at hmerged
    cases hmerged
  | affine t =>
    simp only [hk, Quad.get_ofFn, Quad.get_map] at hj hout
    obtain ⟨i, hi⟩ := Quad.any_indices.mp hj
    obtain ⟨hi, hweight⟩ := Bool.and_eq_true_iff.mp hi
    cases hz : (prev.known j).zero with
    | true => exact (hcoherent j).garbage_of_zero hz
    | false =>
      refine Bool.eq_false_iff.mpr fun hg => ?_
      have hmixes : (t.rows i).mixes prev.known j = true := by
        rw [AffineRow.mixes, hz, Bool.or_false]
        exact hweight
      exact Bool.eq_false_iff.mp (hout i hi) (AffineRow.garbage_rowKnown.mpr ⟨j, hmixes, hg⟩)

end Op

theorem coherent_infoOf {depths : Option Depths} {ops : List Op} {prev : Info}
    (hcoherent : ∀ i, (prev.known i).Coherent) (c : Fin 4) :
    ((infoOf depths prev ops).known c).Coherent := by
  induction ops generalizing prev with
  | nil => exact hcoherent c
  | cons op ops ih =>
    rw [infoOf_cons]
    exact ih (Op.coherent_knownAfter hcoherent)

end PixelConv
