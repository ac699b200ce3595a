import PixelConv.Proofs.Descent

/-!
# Normal forms

Simplification as a relation: `Program.Next` is one step, `Program.Reduces` a run of them with the
rules that fired. Every step lowers the rank, so no run is longer than `Program.budget`, and
`Program.simplify` follows its run to the end (`Program.steps_outcome`): either some analysis or some
step of it faults, or it ends in a program on which no rule fires, and simplifying that one changes
nothing.
-/

namespace PixelConv

/-! ## 1. The rank of a program -/

theorem map_verb_congr {l r : List Op} (h : codes l = codes r) :
    l.map Op.verb = r.map Op.verb := by
  have hv : ∀ ops : List Op, ops.map Op.verb = (codes ops).map fun c => c.2.verb := by
    intro ops
    rw [codes, List.map_map]
    rfl
  rw [hv, hv, h]

theorem weight_congr : ∀ {l r : List Op}, codes l = codes r → weight l = weight r
  | [], [], _ => rfl
  | [], _ :: _, h => by simp at h
  | _ :: _, [], h => by simp at h
  | a :: l, b :: r, h => by
    simp only [codes_cons, List.cons.injEq, Op.code, Prod.mk.injEq] at h
    obtain ⟨⟨-, hk⟩, hlr⟩ := h
    rw [weight_cons, weight_cons, weight_congr hlr]
    simp only [Op.weight, hk]

theorem constants_congr : ∀ {l r : List Op}, codes l = codes r → constants l = constants r
  | [], [], _ => rfl
  | [], _ :: _, h => by simp at h
  | _ :: _, [], h => by simp at h
  | a :: l, b :: r, h => by
    simp only [codes_cons, List.cons.injEq, Op.code, Prod.mk.injEq] at h
    obtain ⟨⟨-, hk⟩, hlr⟩ := h
    rw [constants_cons, constants_cons, constants_congr hlr]
    simp only [Op.constants, hk]

theorem rank_congr {n : Nat} {l r : List Op} (h : codes l = codes r) : rank n l = rank n r := by
  unfold rank
  rw [weight_congr h, scales_congr (map_verb_congr h), inversions_congr (map_verb_congr h),
    constants_congr h]

/-- The rank has no more values than the budget allows steps. -/
theorem rank_lt {n : Nat} {ops : List Op} (h : weight ops ≤ n) :
    rank n ops < (n + 1) * (n + 1) * (n * n + 1) * (4 * n + 1) := by
  have hlen : ops.length ≤ n := by have := length_le_weight ops; omega
  have hs : scales ops < n + 1 := by have := scales_le ops; omega
  have hi : inversions ops < n * n + 1 := by
    have := inversions_le ops
    have : ops.length * ops.length ≤ n * n := Nat.mul_le_mul hlen hlen
    omega
  have hc : constants ops < 4 * n + 1 := by have := constants_le ops; omega
  have hw : weight ops < n + 1 := by omega
  exact digit_lt (d := 0) (digit_lt (d := 0) (digit_lt (d := 0) hw hs) hi) hc

/-! ## 2. Steps and runs -/

namespace Program

/-- One step of simplification leads from the first program to the second. -/
def Next (p q : Program) : Prop := ∃ applied, p.analyse.step = .ok (some (applied, q))

/-- A run of simplification, with the rules that fired. -/
inductive Reduces : Program → List Applied → Program → Prop
  | refl (p : Program) : Reduces p [] p
  | step {p q r : Program} {applied : Applied} {rules : List Applied}
      (first : p.analyse.step = .ok (some (applied, q))) (rest : Reduces q rules r) :
      Reduces p (applied :: rules) r

/-- **A step lowers the rank**, and it adds no weight. -/
theorem rank_lt_of_step {p q : Program} {applied : Applied}
    (h : p.analyse.step = .ok (some (applied, q))) :
    q.weight ≤ p.weight ∧
      ∀ n, p.weight ≤ n → rank n q.ops < rank n p.ops := by
  obtain ⟨pre, op, rest, out, _, _, hops, rfl, _, hrule, _⟩ := step_eq_some h
  have hlow : Lowered (op :: rest) out := (Rule.rewrites hrule).lowered
  have hcodes : codes (pre ++ op :: rest) = codes p.ops := by rw [← hops, codes_analyse]
  have hweight : PixelConv.weight (pre ++ op :: rest) = p.weight := weight_congr hcodes
  refine ⟨?_, fun n hn => ?_⟩
  · rw [← hweight, weight_append]
    show PixelConv.weight (pre ++ out) ≤ _
    rw [weight_append]
    exact Nat.add_le_add_left hlow.weight_le _
  · rw [← rank_congr hcodes]
    refine hlow.rank_lt pre ?_
    rw [hweight]
    exact hn

/-- The steps of a run are at most as many as its rank falls. -/
theorem Reduces.length_add_rank_le {p q : Program} {rules : List Applied} (h : p.Reduces rules q) :
    ∀ n, p.weight ≤ n → rules.length + rank n q.ops ≤ rank n p.ops := by
  induction h with
  | refl p =>
    intro n _
    exact Nat.le_of_eq (by rw [List.length_nil, Nat.zero_add])
  | step first _ ih =>
    intro n hn
    obtain ⟨hle, hlt⟩ := rank_lt_of_step first
    have hrest := ih n (Nat.le_trans hle hn)
    have hfirst := hlt n hn
    rw [List.length_cons]
    omega

theorem Reduces.length_lt_budget {p q : Program} {rules : List Applied} (h : p.Reduces rules q) :
    rules.length < p.budget := by
  have hlen := h.length_add_rank_le p.weight (Nat.le_refl _)
  have hrank : rank p.weight p.ops < p.budget := rank_lt (Nat.le_refl _)
  omega

/-- **There is no infinite run.** -/
theorem wellFounded_next : WellFounded fun q p : Program => p.Next q := by
  -- the weight never grows, so the rank at the weight of the first program falls along the run
  have hacc : ∀ (n k : Nat) (p : Program), p.weight ≤ n → rank n p.ops ≤ k →
      Acc (fun q p : Program => p.Next q) p := by
    intro n k
    induction k with
    | zero =>
      intro p hn hk
      refine ⟨_, fun q hq => ?_⟩
      obtain ⟨applied, hstep⟩ := hq
      have := (rank_lt_of_step hstep).2 n hn
      omega
    | succ k ih =>
      intro p hn hk
      refine ⟨_, fun q hq => ?_⟩
      obtain ⟨applied, hstep⟩ := hq
      obtain ⟨hle, hlt⟩ := rank_lt_of_step hstep
      have := hlt n hn
      exact ih q (Nat.le_trans hle hn) (by omega)
  exact ⟨fun p => hacc p.weight (rank p.weight p.ops) p (Nat.le_refl _) (Nat.le_refl _)⟩

/-! ## 3. Simplification follows the run to its end -/

/-- The first thing that is done with a program faults: its analysis, or the step after it. -/
def Faults (p : Program) (f : Fault) : Prop :=
  ¬p.Measurable ∧ f = .overflow ∨ p.Measurable ∧ p.analyse.step = .error f

/-- No analysis and no step of the run faults. -/
def Safe (p : Program) : Prop := ∀ rules r, p.Reduces rules r → ∀ f, ¬r.Faults f

/-- A program is safe if its analysis and its step go well and lead to a safe one. -/
theorem Safe.of_step {p q : Program} {applied : Applied} (hp : p.Measurable)
    (hstep : p.analyse.step = .ok (some (applied, q))) (hq : q.Safe) : p.Safe := by
  intro rules r hrun f hf
  cases hrun with
  | refl =>
    rcases hf with ⟨hnot, -⟩ | ⟨-, hf⟩
    · exact hnot hp
    · rw [hstep] at hf
      cases hf
  | step first rest =>
    rw [hstep] at first
    cases first
    exact hq _ r rest f hf

/-- A program is safe if its analysis goes well and nothing fires on it. -/
theorem Safe.of_normal {p : Program} (hp : p.Measurable) (hstep : p.analyse.step = .ok none) :
    p.Safe := by
  intro rules r hrun f hf
  cases hrun with
  | refl =>
    rcases hf with ⟨hnot, -⟩ | ⟨-, hf⟩
    · exact hnot hp
    · rw [hstep] at hf
      cases hf
  | step first _ =>
    rw [hstep] at first
    cases first

/-- What simplifying a program may answer: the analysed end of its run, where no rule fires, if the
program is safe, and otherwise the fault with which the run breaks off. -/
def Outcome (p : Program) : Checked (List Applied × Program) → Prop
  | .ok (rules, q) => p.Safe ∧ ∃ r, p.Reduces rules r ∧ r.analyse.step = .ok none ∧ q = r.analyse
  | .error f => ∃ rules r, p.Reduces rules r ∧ r.Faults f

/-- With more fuel than the rank, the steps go on to the end of the run. -/
theorem steps_outcome {n : Nat} : ∀ (fuel : Nat) (p : Program), p.weight ≤ n →
    rank n p.ops < fuel → p.Outcome (p.steps fuel)
  | 0, _, _, h => absurd h (Nat.not_lt_zero _)
  | fuel + 1, p, hn, hfuel => by
    unfold steps
    by_cases hnot : ¬p.Measurable
    · rw [analysis_of_not_measurable hnot]
      exact ⟨[], p, .refl p, .inl ⟨hnot, rfl⟩⟩
    have hp : p.Measurable := Classical.not_not.mp hnot
    rw [analysis_of_measurable hp]
    simp only
    split
    · rename_i f hstep
      exact ⟨[], p, .refl p, .inr ⟨hp, hstep⟩⟩
    · rename_i hstep
      exact ⟨.of_normal hp hstep, p, .refl p, hstep, rfl⟩
    · rename_i applied q hstep
      obtain ⟨hle, hlt⟩ := rank_lt_of_step hstep
      have hrank := hlt n hn
      have ih := steps_outcome fuel q (Nat.le_trans hle hn) (by omega)
      split
      · rename_i f hrest
        rw [hrest] at ih
        obtain ⟨rules, r, hrun, hend⟩ := ih
        exact ⟨applied :: rules, r, .step hstep hrun, hend⟩
      · rename_i rules q' hrest
        rw [hrest] at ih
        obtain ⟨hsafe, r, hrun, hend, hq⟩ := ih
        exact ⟨.of_step hp hstep hsafe, r, .step hstep hrun, hend, hq⟩

theorem simplify_outcome (p : Program) : p.Outcome p.simplify :=
  steps_outcome p.budget p (Nat.le_refl _) (rank_lt (Nat.le_refl _))

/-- What a program simplifies to is known from the operations without their information. -/
theorem simplify_eq_of_codes {p q : Program}
    (h : (p.simplify.toOption.map fun answer => (codes answer.2.ops, answer.2.depths)) =
      some (codes q.ops, q.depths)) : ∃ rules, p.simplify = .ok (rules, q.analyse) := by
  have hout := simplify_outcome p
  cases hs : p.simplify with
  | error f =>
    rw [hs] at h
    cases h
  | ok answer =>
    obtain ⟨rules, t⟩ := answer
    rw [hs] at h hout
    obtain ⟨-, r, -, -, rfl⟩ := hout
    obtain ⟨hcodes, hdepths⟩ := Prod.mk.inj (Option.some.inj h)
    rw [codes_analyse] at hcodes
    exact ⟨rules, by rw [analyse_congr hcodes hdepths]⟩

/-- A program that simplifies is safe. -/
theorem safe_of_simplify {p q : Program} {rules : List Applied}
    (h : p.simplify = .ok (rules, q)) : p.Safe := by
  have hout := simplify_outcome p
  rw [h] at hout
  exact hout.1

/-- A program on which no rule fires simplifies to its analysis. -/
theorem simplify_of_normal {p : Program} (hp : p.Measurable) (h : p.analyse.step = .ok none) :
    p.simplify = .ok ([], p.analyse) := by
  have hb : 0 < p.budget := (Reduces.refl p).length_lt_budget
  obtain ⟨n, hn⟩ := Nat.exists_eq_succ_of_ne_zero (Nat.ne_of_gt hb)
  unfold simplify
  rw [hn]
  unfold steps
  simp only [analysis_of_measurable hp, h]

/-- **Simplification terminates in a normal form.** No run is infinite, and none from `p` has more
steps than its budget. A program of which no analysis and no step faults simplifies to the analysed
end of its run, where no rule fires; simplifying that again gives the very same program, information
included. -/
theorem simplify_reaches_fixed_point :
    (WellFounded fun q p : Program => p.Next q) ∧
    ∀ p : Program, (∀ rules r, p.Reduces rules r → rules.length < p.budget) ∧
      (p.Safe → ∃ rules r, p.Reduces rules r ∧ p.simplify = .ok (rules, r.analyse) ∧
        r.analyse.step = .ok none ∧ r.analyse.simplify = .ok ([], r.analyse)) := by
  refine ⟨wellFounded_next, fun p => ⟨fun rules r h => h.length_lt_budget, fun safe => ?_⟩⟩
  have hout := simplify_outcome p
  cases hs : p.simplify with
  | error f =>
    rw [hs] at hout
    obtain ⟨rules, r, hrun, hf⟩ := hout
    exact absurd hf (safe rules r hrun f)
  | ok answer =>
    obtain ⟨rules, q⟩ := answer
    rw [hs] at hout
    obtain ⟨-, r, hrun, hend, rfl⟩ := hout
    refine ⟨rules, r, hrun, rfl, hend, ?_⟩
    have hr : r.Measurable := Classical.byContradiction fun h =>
      safe rules r hrun _ (.inl ⟨h, rfl⟩)
    have hend' : r.analyse.analyse.step = .ok none := by rw [analyse_analyse, hend]
    have := simplify_of_normal hr.analyse hend'
    rw [analyse_analyse] at this
    exact this

/-- A program whose transform has a constant row and a row that only moves a component: taking both
out makes it longer before it is done. -/
def channelMix : Program :=
  let row (a b c d e : Int) : AffineRow := ⟨⟨⟨a, 1⟩, ⟨b, 1⟩, ⟨c, 1⟩, ⟨d, 1⟩⟩, ⟨e, 1⟩⟩
  .ofOps [.ofKind .u8 (.read ⟨3, true, 0⟩),
    .ofKind .u8 (.convert .f32 false),
    .ofKind .f32 (.affine (.ofRows
      ⟨row 0 0 2 0 1, row 1 0 0 0 0, row 0 0 0 0 7, row 0 0 0 1 0⟩)),
    .ofKind .f32 (.convert .u8 false),
    .ofKind .u8 (.write ⟨3, true, 0⟩)]

theorem channelMix_reaches_fixed_point :
    channelMix.Safe ∧ ∃ rules r, channelMix.Reduces rules r ∧
      rules.map Applied.rule = [.affineConstantRows, .affineSwizzle, .clearCommute] ∧
      channelMix.simplify = .ok (rules, r.analyse) ∧
      r.analyse.simplify = .ok ([], r.analyse) := by
  have hrules : channelMix.simplify.toOption.map (fun answer => answer.1.map Applied.rule) =
      some [.affineConstantRows, .affineSwizzle, .clearCommute] := by
    decide +kernel
  have hsafe : channelMix.Safe := by
    cases hs : channelMix.simplify with
    | error f => rw [hs] at hrules; cases hrules
    | ok answer => exact safe_of_simplify hs
  obtain ⟨rules, r, hrun, hs, -, hfix⟩ := (simplify_reaches_fixed_point.2 channelMix).2 hsafe
  rw [hs] at hrules
  exact ⟨hsafe, rules, r, hrun, Option.some.inj hrules, hs, hfix⟩

end Program

end PixelConv
