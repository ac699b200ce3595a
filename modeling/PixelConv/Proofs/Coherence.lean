import PixelConv.Proofs.Certainty
import PixelConv.Proofs.NormalForm

/-!
# Undefined components carry no knowledge

`Info.Coherent` says that what an operation carries about its components fits together: undefined
content has no certainties and no bounds, and content that nothing reads is undefined. The forward
pass makes such information whatever was known before (`coherent_forward`) and forgetting keeps it
so (`Info.Coherent.restrict`); so all information of an analysed program is coherent, and so is what
simplification leaves (`Program.garbage_excludes_knowledge`).
-/

namespace PixelConv

/-! ## 1. One operation -/

/-- What is said about the components of an operation fits together. -/
structure Info.Coherent (info : Info) : Prop where
  /-- Undefined content is neither whole nor zero. -/
  known : ∀ i, (info.known i).garbage = true →
    (info.known i).exact = false ∧ (info.known i).zero = false
  /-- Content that nothing reads is undefined. -/
  unused : ∀ i, info.unused i = true → (info.known i).garbage = true
  /-- Undefined content has no bounds. -/
  bounds : ∀ i, (info.known i).garbage = true →
    (info.bounds i).low.isDefined = false ∧ (info.bounds i).high.isDefined = false

theorem Known.Coherent.certainties {k : Known} (h : k.Coherent) (hg : k.garbage = true) :
    k.exact = false ∧ k.zero = false := by
  rw [h hg]
  exact ⟨rfl, rfl⟩

theorem Bounds.isDefined_unknown :
    unknown.low.isDefined = false ∧ unknown.high.isDefined = false := ⟨rfl, rfl⟩

/-- **One operation**: the bounds of what it leaves undefined are dropped. -/
theorem Op.coherent_infoAfter {op : Op} {depths : Option Depths} {prev : Info}
    (h : ∀ i, (prev.known i).Coherent) : (op.infoAfter depths prev).Coherent where
  known i := (coherent_knownAfter h i).certainties
  unused i hi := by
    rw [infoAfter, Quad.get_const] at hi
    cases hi
  bounds i hi := by
    have hbounds : (op.infoAfter depths prev).bounds i = Bounds.unknown := by
      rw [infoAfter, Quad.get_ofFn]
      exact if_pos hi
    rw [hbounds]
    exact Bounds.isDefined_unknown

section Restrict

variable {info : Info} {needed : Quad Bool} {i : Fin 4}

/-- A component that nothing reads is forgotten altogether. -/
theorem Info.restrict_of_not_needed (h : needed i = false) :
    (info.restrict needed).known i = Known.undefined ∧
      (info.restrict needed).bounds i = Bounds.unknown := by
  simp only [Info.restrict, Quad.get_ofFn, h]
  exact ⟨rfl, rfl⟩

theorem Info.restrict_of_needed (h : needed i = true) :
    (info.restrict needed).known i = info.known i ∧
      (info.restrict needed).bounds i = info.bounds i := by
  simp only [Info.restrict, Quad.get_ofFn, h]
  exact ⟨rfl, rfl⟩

/-- **Forgetting** the components that nothing reads makes them undefined and nothing else. -/
theorem Info.Coherent.restrict (h : info.Coherent) (needed : Quad Bool) :
    (info.restrict needed).Coherent := by
  refine ⟨fun i hi => ?_, fun i hi => ?_, fun i hi => ?_⟩
  · cases hn : needed i with
    | false =>
      rw [(restrict_of_not_needed hn).1]
      exact ⟨rfl, rfl⟩
    | true =>
      rw [(restrict_of_needed hn).1] at hi ⊢
      exact h.known i hi
  · rw [Info.restrict, Quad.get_map, Bool.not_eq_true'] at hi
    rw [(restrict_of_not_needed hi).1]
    rfl
  · cases hn : needed i with
    | false =>
      rw [(restrict_of_not_needed hn).2]
      exact Bounds.isDefined_unknown
    | true =>
      rw [(restrict_of_needed hn).1] at hi
      rw [(restrict_of_needed hn).2]
      exact h.bounds i hi

end Restrict

/-! ## 2. Both passes -/

/-- **The forward pass** makes coherent information, whatever the operations carried before. -/
theorem coherent_forward {depths : Option Depths} {ops : List Op} {prev : Info}
    (h : ∀ i, (prev.known i).Coherent) : ∀ op ∈ forward depths prev ops, op.info.Coherent := by
  induction ops generalizing prev with
  | nil => exact fun _ hop => absurd hop List.not_mem_nil
  | cons op ops ih =>
    exact List.forall_mem_cons.mpr
      ⟨Op.coherent_infoAfter h, ih fun i => Op.coherent_knownAfter h i⟩

/-- **The backward pass** keeps it. -/
theorem coherent_backward {ops : List Op} (h : ∀ op ∈ ops, op.info.Coherent) :
    ∀ op ∈ (backward ops).1, op.info.Coherent := by
  induction ops with
  | nil => exact fun _ hop => absurd hop List.not_mem_nil
  | cons op ops ih =>
    obtain ⟨hop, hops⟩ := List.forall_mem_cons.mp h
    exact List.forall_mem_cons.mpr ⟨hop.restrict (backward ops).2, ih hops⟩

namespace Program

theorem coherent_analyse (p : Program) : ∀ op ∈ p.analyse.ops, op.info.Coherent :=
  coherent_backward (coherent_forward Info.coherent_start)

/-- **Garbage excludes knowledge.** After an analysis the information of every operation is coherent:
an undefined component is neither whole nor zero and has no bounds, and a component that nothing reads
is undefined. A program whose steps do not fault simplifies to one of which the same holds. What the
operations carried before does not matter. -/
theorem garbage_excludes_knowledge (p : Program) :
    (∀ op ∈ p.analyse.ops, op.info.Coherent) ∧
    (p.Safe → ∃ rules q, p.simplify = .ok (rules, q) ∧ ∀ op ∈ q.ops, op.info.Coherent) := by
  refine ⟨coherent_analyse p, fun hsafe => ?_⟩
  have hout := simplify_outcome p
  cases hs : p.simplify with
  | error f =>
    rw [hs] at hout
    obtain ⟨rules, r, hrun, hf⟩ := hout
    exact absurd hf (hsafe rules r hrun f)
  | ok answer =>
    obtain ⟨rules, q⟩ := answer
    rw [hs] at hout
    obtain ⟨-, r, -, -, rfl⟩ := hout
    exact ⟨rules, r.analyse, rfl, coherent_analyse r⟩

/-- Darkens one byte and blackens another, of pixels of three. Its operations carry the wrong
information: each calls its outputs undefined and yet zero, and gives them bounds. -/
def misinformed : Program :=
  let wrong (kind : Kind) : Op :=
    ⟨.u8, kind, ⟨Quad.const ⟨true, true, true⟩, Quad.const ⟨Fraction.one, Fraction.one⟩,
      Quad.const true⟩⟩
  .ofOps [wrong (.read ⟨3, true, 0⟩), wrong (.shiftRight 1),
    wrong (.clear ⟨none, some Fraction.zero, none, none⟩), wrong (.write ⟨2, false, 0⟩)]

theorem misinformed_excludes_knowledge : misinformed.Safe ∧
    ∃ rules q, misinformed.simplify = .ok (rules, q) ∧ (∀ op ∈ q.ops, op.info.Coherent) ∧
      (q.ops.map fun op => op.info.known.map Known.toBits) =
        [⟨2, 1, 1, 1⟩, ⟨2, 1, 1, 1⟩, ⟨2, 6, 1, 1⟩, ⟨2, 6, 2, 1⟩] := by
  have hknown : (misinformed.simplify.toOption.map fun answer =>
      answer.2.ops.map fun op => op.info.known.map Known.toBits) =
        some [⟨2, 1, 1, 1⟩, ⟨2, 1, 1, 1⟩, ⟨2, 6, 1, 1⟩, ⟨2, 6, 2, 1⟩] := by
    decide +kernel
  have hsafe : misinformed.Safe := by
    cases hs : misinformed.simplify with
    | error f => rw [hs] at hknown; cases hknown
    | ok answer => exact safe_of_simplify hs
  obtain ⟨rules, q, hs, hcoherent⟩ := (garbage_excludes_knowledge misinformed).2 hsafe
  rw [hs] at hknown
  exact ⟨hsafe, rules, q, hs, hcoherent, Option.some.inj hknown⟩

end Program

end PixelConv
