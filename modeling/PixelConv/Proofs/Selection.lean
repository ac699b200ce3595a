import PixelConv.Proofs.Linking

/-!
# The kernels of a list of operations

`Table.kernels?` is the search for kernels alone, for lists of any length; a chain that is linked
consists of what it finds (`Chain.kernels?_of_link`). The general table gives each operation the
kernel of its verb (`Catalogue.generic_of_find?`), and the portable tables compute a transform from
components that may be undefined only where its weights are zero (`Catalogue.affine_of_find?`).
-/

namespace PixelConv

/-! ## 1. Searching for all of them -/

namespace Table

/-- The kernels that the tables have for a list of operations. The components in `unread` may be
undefined before the first of them. -/
def kernels? (tables : List Table) (unread : Quad Bool) : List Op → Option (List Kernel)
  | [] => some []
  | op :: rest =>
    match op.onWords with
    | .error _ => none
    | .ok word =>
      match find? tables word unread with
      | none => none
      | some (entry, _) =>
        match entry.setup word with
        | .error _ => none
        | .ok k => (kernels? tables word.info.unused rest).map (k :: ·)

/-- **What is found for the first operation.** -/
theorem kernels?_cons {tables : List Table} {unread : Quad Bool} {op : Op} {rest : List Op}
    {ks : List Kernel} (h : kernels? tables unread (op :: rest) = some ks) :
    ∃ word e t k ks', op.onWords = .ok word ∧ find? tables word unread = some (e, t) ∧
      e.setup word = .ok k ∧ kernels? tables word.info.unused rest = some ks' ∧ ks = k :: ks' := by
  unfold kernels? at h
  split at h
  · cases h
  rename_i word hword
  split at h
  · cases h
  rename_i e t hfind
  split at h
  · cases h
  rename_i k hk
  obtain ⟨ks', hks', rfl⟩ := Option.map_eq_some_iff.mp h
  exact ⟨word, e, t, k, ks', hword, hfind, hk, hks', rfl⟩

/-- The kernels of a list, one after the other. -/
theorem kernels?_of_cons {tables : List Table} {unread : Quad Bool} {op word : Op} {rest : List Op}
    {e : Entry} {t : Table} {k : Kernel} {ks : List Kernel} (hword : op.onWords = .ok word)
    (hfind : find? tables word unread = some (e, t)) (hk : e.setup word = .ok k)
    (hks : kernels? tables word.info.unused rest = some ks) :
    kernels? tables unread (op :: rest) = some (k :: ks) := by
  unfold kernels?
  simp only [hword, hfind, hk, hks, Option.map_some]

end Table

namespace Chain

theorem kernels?_of_linkFrom {tables : List Table} : ∀ {ops : List Op} {index : Nat}
    {unread : Quad Bool} {chain chain' : Chain} {matched : List Match},
    linkFrom tables index unread chain ops = (matched, .ok chain') →
    ∃ ks, Table.kernels? tables unread ops = some ks ∧ chain'.links = chain.links ++ ks
  | [], _, _, chain, chain', matched, h => by
    simp only [linkFrom, Prod.mk.injEq, Except.ok.injEq] at h
    obtain ⟨-, rfl⟩ := h
    exact ⟨[], rfl, (List.append_nil _).symm⟩
  | op :: ops, _, unread, chain, chain', matched, h => by
    obtain ⟨word, e, t, k, matched', hword, hfind, hk, -, hrest⟩ := linkFrom_cons_eq_ok h
    obtain ⟨ks, hks, hlinks⟩ := kernels?_of_linkFrom hrest
    refine ⟨k :: ks, Table.kernels?_of_cons hword hfind hk hks, ?_⟩
    rw [hlinks, require, List.append_assoc, List.singleton_append]

/-- **A chain that is linked consists of the kernels that are found.** -/
theorem kernels?_of_link {p : Program} {tables : List Table} {cpu : CpuSet} {blockSize : Nat}
    {matched : List Match} {chain : Chain}
    (h : link p tables cpu blockSize = (matched, .ok chain)) :
    Table.kernels? (usable tables cpu blockSize) (Quad.const true) p.ops = some chain.links := by
  obtain ⟨ks, hks, hlinks⟩ := kernels?_of_linkFrom h
  rw [hks, show chain.links = ks from hlinks]

end Chain

namespace Kernel

/-- Runs kernels one after the other. -/
def runAll (ks : List Kernel) (b : Block) : Checked Block := ks.foldlM (fun b k => k.run b) b

theorem runAll_cons (k : Kernel) (ks : List Kernel) (b : Block) :
    runAll (k :: ks) b = k.run b >>= runAll ks := rfl

theorem runAll_of_run {k : Kernel} {ks : List Kernel} {b c : Block} (h : k.run b = .ok c) :
    runAll (k :: ks) b = runAll ks c := by
  rw [runAll_cons, h]
  rfl

end Kernel

theorem Chain.run_eq_runAll (c : Chain) (b : Block) : c.run b = Kernel.runAll c.links b := rfl

/-! ## 2. The portable tables -/

namespace Catalogue

variable {op : Op} {unread : Quad Bool} {e : Entry} {t : Table} {k : Kernel}

/-- The general table gives an operation the kernel of its verb. -/
theorem generic_of_find? (h : Table.find? [generic] op unread = some (e, t)) :
    op.generic? = some e.setup := by
  obtain ⟨⟨table, htable, he⟩, hpos⟩ := entry_of_find? h
  rw [List.mem_singleton.mp htable] at he
  exact (generic_entry he hpos).1

/-- **The kernel of a transform**: the rows that differ from the identity, or the first row alone
where nothing else is read and the components that it multiplies are defined. -/
theorem affine_of_find? {a : Affine} (hop : op.kind = .affine a)
    (h : Table.find? portable op unread = some (e, t)) (hk : e.setup op = .ok k) :
    k = .compute (.affine (Quad.ofFn fun i => if EntryMask.meets a.mask (EntryMask.row i.val) then
        some (Setup.floatRow (a.rows i)) else none)) ∨
      k = .compute (.dot3 (Setup.floatRow a.rows.c0)) ∧
        (∀ i : Fin 4, i ≠ 0 → op.info.unused i = true) ∧
        ∀ j : Fin 4, j.val < 3 → unread j = false := by
  obtain ⟨⟨table, htable, he⟩, hpos⟩ := entry_of_find? h
  simp only [portable, List.mem_cons, List.not_mem_nil, or_false] at htable
  obtain ⟨elem, kind, info⟩ := op
  cases hop
  rcases htable with rfl | rfl
  · obtain ⟨hverb, -, hunused, hreads, -⟩ := Entry.of_score_pos hpos
    simp only [Entry.readsUndefined] at hreads
    right
    simp only [specialized, List.mem_cons, List.not_mem_nil, or_false] at he
    rcases he with rfl | rfl | rfl | rfl | rfl | rfl
    all_goals cases hverb
    cases hk
    refine ⟨rfl, fun i hi => hunused i ?_, fun j hj => ?_⟩
    · revert i
      decide
    · cases hu : unread j with
      | false => rfl
      | true =>
        refine absurd (Quad.any_indices.mpr ⟨j, ?_⟩) (Bool.eq_false_iff.mp hreads)
        rw [hu, Bool.and_true]
        clear hu
        revert j
        decide
  · left
    have hs := (generic_entry he hpos).1
    have hsetup : e.setup = Setup.affine := by
      cases elem <;> first | exact (Option.some.inj hs).symm | cases hs
    rw [hsetup] at hk
    exact (Except.ok.inj hk).symm

end Catalogue

end PixelConv
