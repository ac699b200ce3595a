import PixelConv.Proofs.Analysis
import PixelConv.Simplify

/-!
# One step of simplification

What a step can do, said once: it cuts the program at the place of an operation, applies the first
rule that fires there, and keeps everything before that place (`Program.step_at`). It faults only on
a read of more components than there are, or where constants cannot be moved past an operation
(`Program.step_eq_error`).
-/

namespace PixelConv

/-- **The first rule that fires at a place**: it gives the new operations, and no rule before it in
the list fires. -/
theorem Site.first_eq_some {s : Site} {rule : Rule} {ops : List Op} :
    ∀ {rules : List Rule}, s.first rules = .ok (some (rule, ops)) →
      ∃ before after, rules = before ++ rule :: after ∧ rule.apply s = .ok (some ops) ∧
        ∀ r ∈ before, r.apply s = .ok none
  | [], h => by simp [Site.first] at h
  | r :: rules, h => by
    unfold Site.first at h
    split at h
    · cases h
    · rename_i ops' hr
      simp only [Except.ok.injEq, Option.some.injEq, Prod.mk.injEq] at h
      obtain ⟨rfl, rfl⟩ := h
      exact ⟨[], rules, rfl, hr, fun r hr => absurd hr List.not_mem_nil⟩
    · rename_i hr
      obtain ⟨before, after, hrules, hrule, hbefore⟩ := Site.first_eq_some h
      refine ⟨r :: before, after, by rw [hrules]; rfl, hrule, fun r' hr' => ?_⟩
      rcases List.mem_cons.mp hr' with rfl | hr'
      · exact hr
      · exact hbefore r' hr'

/-- A rule that fires where no rule before it does is the first one. -/
theorem Site.first_of_fires {s : Site} {rule : Rule} {ops : List Op} {after : List Rule}
    (h : rule.apply s = .ok (some ops)) : ∀ {before : List Rule},
      (∀ r ∈ before, r.apply s = .ok none) →
        s.first (before ++ rule :: after) = .ok (some (rule, ops))
  | [], _ => by rw [List.nil_append, Site.first, h]
  | r :: before, hbefore => by
    obtain ⟨hr, hrest⟩ := List.forall_mem_cons.mp hbefore
    rw [List.cons_append, Site.first, hr]
    exact Site.first_of_fires h hrest

/-- A place in a list of operations: what comes before it, and the site there. The operation right
before it is the last one of `pre`, or `before` if there is none. -/
theorem stepFrom_eq_some {applied : Applied} {new : List Op} :
    ∀ {ops : List Op} {before : Option Op}, stepFrom before ops = .ok (some (applied, new)) →
      ∃ pre op rest out, ops = pre ++ op :: rest ∧ new = pre ++ out ∧ pre.length = applied.index ∧
        (Site.mk (pre.getLast?.or before) op rest).first Rule.order =
          .ok (some (applied.rule, out))
  | [], _, h => by simp [stepFrom] at h
  | op :: rest, before, h => by
    unfold stepFrom at h
    split at h
    · cases h
    · rename_i rule out hs
      simp only [Except.ok.injEq, Option.some.injEq, Prod.mk.injEq] at h
      obtain ⟨rfl, rfl⟩ := h
      exact ⟨[], op, rest, out, rfl, rfl, rfl, hs⟩
    · split at h
      · cases h
      · rename_i a ops hrest
        simp only [Except.ok.injEq, Option.some.injEq, Prod.mk.injEq] at h
        obtain ⟨rfl, rfl⟩ := h
        obtain ⟨pre, op', rest', out, hops, hnew, hindex, hfirst⟩ := stepFrom_eq_some hrest
        refine ⟨op :: pre, op', rest', out, by rw [hops]; rfl, by rw [hnew]; rfl,
          congrArg (· + 1) hindex, ?_⟩
        have hlast : (op :: pre).getLast?.or before = pre.getLast?.or (some op) := by
          cases pre with
          | nil => rfl
          | cons a l =>
            rw [List.getLast?_cons_cons, List.getLast?_eq_some_getLast (List.cons_ne_nil a l)]
            rfl
        rw [hlast]
        exact hfirst
      · cases h

/-- **What a step does**: the operations before the place that it reports stay, and the first rule
that fires there gives the others. -/
theorem Program.step_at {p q : Program} {applied : Applied}
    (h : p.step = .ok (some (applied, q))) :
    ∃ pre op rest out before after, p.ops = pre ++ op :: rest ∧ pre.length = applied.index ∧
      q = { p with ops := pre ++ out, analysed := false } ∧
      Rule.order = before ++ applied.rule :: after ∧
      applied.rule.apply ⟨pre.getLast?, op, rest⟩ = .ok (some out) ∧
      ∀ r ∈ before, r.apply ⟨pre.getLast?, op, rest⟩ = .ok none := by
  unfold Program.step at h
  split at h
  · cases h
  · rename_i a new hs
    simp only [Except.ok.injEq, Option.some.injEq, Prod.mk.injEq] at h
    obtain ⟨rfl, rfl⟩ := h
    obtain ⟨pre, op, rest, out, hops, rfl, hindex, hfirst⟩ := stepFrom_eq_some hs
    rw [Option.or_none] at hfirst
    obtain ⟨before, after, hrules, hrule, hbefore⟩ := Site.first_eq_some hfirst
    exact ⟨pre, op, rest, out, before, after, hops, hindex, rfl, hrules, hrule, hbefore⟩
  · cases h

/-- What a step does, at some place. -/
theorem Program.step_eq_some {p q : Program} {applied : Applied}
    (h : p.step = .ok (some (applied, q))) :
    ∃ pre op rest out before after, p.ops = pre ++ op :: rest ∧
      q = { p with ops := pre ++ out, analysed := false } ∧
      Rule.order = before ++ applied.rule :: after ∧
      applied.rule.apply ⟨pre.getLast?, op, rest⟩ = .ok (some out) ∧
      ∀ r ∈ before, r.apply ⟨pre.getLast?, op, rest⟩ = .ok none := by
  obtain ⟨pre, op, rest, out, before, after, hops, -, hstep⟩ := step_at h
  exact ⟨pre, op, rest, out, before, after, hops, hstep⟩

theorem Site.first_eq_none {s : Site} : ∀ {rules : List Rule}, s.first rules = .ok none →
    ∀ rule ∈ rules, rule.apply s = .ok none
  | [], _, _, hr => absurd hr List.not_mem_nil
  | r :: rules, h, rule, hr => by
    unfold Site.first at h
    split at h
    · cases h
    · cases h
    · rename_i hnone
      rcases List.mem_cons.mp hr with rfl | hr
      · exact hnone
      · exact Site.first_eq_none h rule hr

theorem stepFrom_eq_none {op : Op} {rest : List Op} :
    ∀ {pre ops : List Op} {before : Option Op}, stepFrom before ops = .ok none →
      ops = pre ++ op :: rest → ∃ before', (Site.mk before' op rest).first Rule.order = .ok none
  | pre, [], _, _, hops => absurd hops.symm (List.append_ne_nil_of_right_ne_nil _ (List.cons_ne_nil _ _))
  | pre, a :: ops, before, h, hops => by
    unfold stepFrom at h
    split at h
    · cases h
    · cases h
    rename_i hfirst
    split at h
    · cases h
    · cases h
    rename_i hrest
    cases pre with
    | nil =>
      obtain ⟨rfl, rfl⟩ := List.cons.inj hops
      exact ⟨before, hfirst⟩
    | cons b pre => exact stepFrom_eq_none hrest (List.cons.inj hops).2

/-- **Where no step is left, no rule fires anywhere.** -/
theorem Program.step_eq_none {p : Program} (h : p.step = .ok none) {op : Op} (hop : op ∈ p.ops) :
    ∃ before rest, ∀ rule ∈ Rule.order, rule.apply ⟨before, op, rest⟩ = .ok none := by
  unfold Program.step at h
  split at h
  · cases h
  · cases h
  rename_i hs
  obtain ⟨pre, rest, hops⟩ := List.append_of_mem hop
  obtain ⟨before, hfirst⟩ := stepFrom_eq_none hs hops
  exact ⟨before, rest, Site.first_eq_none hfirst⟩

/-- Rules that are tried before another one are among those that did not fire. -/
theorem Rule.mem_before {first rule : Rule} {before after : List Rule}
    (hfirst : first ∈ Rule.order.takeWhile (· != rule))
    (h : Rule.order = before ++ rule :: after) : first ∈ before := by
  have hnodup : Rule.order.Nodup := by decide
  rw [h] at hfirst hnodup
  have hbefore : ∀ r ∈ before, (r != rule) = true := fun r hr =>
    bne_iff_ne.mpr ((List.nodup_append.mp hnodup).2.2 r hr rule List.mem_cons_self)
  rw [List.takeWhile_append_of_pos hbefore, List.takeWhile_cons_of_neg (by simp),
    List.append_nil] at hfirst
  exact hfirst

/-! ## Faults -/

/-- What makes a rule fault: a read with too many components, of which the planes are looked at, or
constants that cannot be moved past the operation after them. -/
inductive Site.Faults (s : Site) (f : Fault) : Prop
  | read {l : Layout} (hk : s.op.kind = .read l) (hcount : 4 < l.count)
  | fold {values : Constants} {next : Op} {rest : List Op} (hk : s.op.kind = .clear values)
      (ha : s.after = next :: rest) (hv : next.verb.passesConstants = true)
      (hf : next.foldConsts? values = .error f)

theorem Site.clearCommute_eq_error {s : Site} {f : Fault} (h : s.clearCommute = .error f) :
    s.Faults f := by
  unfold clearCommute at h
  split at h
  · rename_i values next rest hk ha
    simp only at h
    split at h
    · cases h
    · split at h
      · rename_i hv
        cases hf : next.foldConsts? values with
        | error f' =>
          rw [hf] at h
          cases h
          exact .fold hk ha hv hf
        | ok moved? =>
          rw [hf] at h
          cases h
      · cases h
  · cases h

/-- Two rules can fault. -/
theorem Rule.apply_eq_error {s : Site} {rule : Rule} {f : Fault} (h : rule.apply s = .error f) :
    s.Faults f := by
  cases rule with
  | clearCommute => exact Site.clearCommute_eq_error h
  | readUnusedPlanes =>
    have h : s.readUnusedPlanes = .error f := h
    unfold Site.readUnusedPlanes at h
    split at h
    · rename_i l hk
      split at h
      · cases h
      · refine .read hk (Nat.lt_of_not_le fun hle => ?_)
        rw [Site.usedPlanes, if_pos hle] at h
        cases h
    · cases h
  | _ => cases h

theorem Site.first_eq_error {s : Site} {f : Fault} :
    ∀ {rules : List Rule}, s.first rules = .error f → ∃ rule : Rule, rule.apply s = .error f
  | [], h => by cases h
  | r :: rules, h => by
    unfold Site.first at h
    split at h
    · rename_i hr
      cases h
      exact ⟨r, hr⟩
    · cases h
    · exact Site.first_eq_error h

theorem stepFrom_eq_error {f : Fault} :
    ∀ {ops : List Op} {before : Option Op}, stepFrom before ops = .error f →
      ∃ pre op rest before', ops = pre ++ op :: rest ∧ (Site.mk before' op rest).Faults f
  | [], _, h => by cases h
  | op :: rest, before, h => by
    unfold stepFrom at h
    split at h
    · rename_i hs
      obtain ⟨rule, hrule⟩ := Site.first_eq_error hs
      cases h
      exact ⟨[], op, rest, before, rfl, Rule.apply_eq_error hrule⟩
    · cases h
    · split at h
      · rename_i hrest
        obtain ⟨pre, o, rest', before', hops, hfaults⟩ := stepFrom_eq_error hrest
        cases h
        exact ⟨op :: pre, o, rest', before', by rw [hops]; rfl, hfaults⟩
      · cases h
      · cases h

/-- **Where a step faults, there is a place that makes a rule fault.** -/
theorem Program.step_eq_error {p : Program} {f : Fault} (h : p.step = .error f) :
    ∃ pre op rest before, p.ops = pre ++ op :: rest ∧ (Site.mk before op rest).Faults f := by
  unfold Program.step at h
  split at h
  · rename_i hs
    cases h
    exact stepFrom_eq_error hs
  · cases h
  · cases h

end PixelConv
