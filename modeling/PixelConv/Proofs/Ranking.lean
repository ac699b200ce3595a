import PixelConv.Proofs.Linking

/-!
# Which entry is chosen

The search for a kernel takes the first entry of the highest score, table by table and entry by entry
(`Table.FirstBest`). A general entry scores below ten, every other one that scores at all at least ten,
whatever components it demands and whatever its mask leaves out; so a general entry is chosen only
where no other entry implements the operation. Main statement: `Table.find?_is_first_best`.
-/

namespace PixelConv

/-! ## 1. Masks -/

namespace EntryMask

theorem meets_of_getLsbD {m n : EntryMask} {k : Nat} (hm : m.getLsbD k = true)
    (hn : n.getLsbD k = true) : meets m n = true := by
  rw [meets, bne_iff_ne]
  intro hzero
  have hbit : (m &&& n).getLsbD k = true := by rw [BitVec.getLsbD_and, hm, hn]; rfl
  rw [hzero, BitVec.getLsbD_zero] at hbit
  cases hbit

theorem getLsbD_of_subset {m n : EntryMask} (h : subset m n = true) {k : Nat}
    (hm : m.getLsbD k = true) : n.getLsbD k = true := by
  have hbit : (m &&& ~~~n).getLsbD k = false := by rw [beq_iff_eq.mp h, BitVec.getLsbD_zero]
  rw [BitVec.getLsbD_and, BitVec.getLsbD_not, hm, decide_eq_true (BitVec.lt_of_getLsbD hm),
    Bool.true_and, Bool.true_and, Bool.not_eq_false'] at hbit
  exact hbit

theorem getLsbD_col (i j : Fin 4) : (col j.val).getLsbD (5 * i.val + j.val) = true := by
  revert i j
  decide

end EntryMask

/-! ## 2. Scores -/

namespace Entry

variable {e : Entry} {op : Op} {unread : Quad Bool}

/-- General entries score below ten, since there are four components to demand. -/
theorem score_lt_of_general (h : e.general = true) : e.score op unread < 10 := by
  have hcount : e.unused.toList.countP id ≤ 4 := List.countP_le_length
  rcases Nat.eq_zero_or_pos (e.score op unread) with hzero | hpos
  · omega
  · obtain ⟨-, -, -, -, ⟨-, hscore⟩ | ⟨hother, -⟩⟩ := of_score_pos hpos
    · omega
    · rw [h] at hother
      cases hother

/-- All others score at least ten, if at all. -/
theorem le_score_of_not_general (h : e.general = false) (hpos : 0 < e.score op unread) :
    10 ≤ e.score op unread := by
  obtain ⟨-, -, -, -, ⟨hgeneral, -⟩ | ⟨-, bonus, -, hscore⟩⟩ := of_score_pos hpos
  · rw [h] at hgeneral
    cases hgeneral
  · omega

/-- What an entry has to meet to take part in the choice: it is for the verb of the operation and leaves
undefined only what nothing reads. A kernel with a mask multiplies none of the components that may be
undefined, and one that is made for its mask has every entry of the transform in it. -/
structure Suits (e : Entry) (op : Op) (unread : Quad Bool) : Prop where
  verb : e.verb = op.verb
  unused : ∀ i, e.unused i = true → op.info.unused i = true
  columns : ∀ t m, op.kind = .affine t → e.params = .affineMask m →
    ∀ i j : Fin 4, m.getLsbD (5 * i.val + j.val) = true → unread j = false
  mask : ∀ t m, op.kind = .affine t → e.params = .affineMask m → e.general = false →
    ∀ k, t.mask.getLsbD k = true → m.getLsbD k = true

theorem suits_of_score_pos (h : 0 < e.score op unread) : e.Suits op unread := by
  obtain ⟨hverb, -, hunused, hreads, hscore⟩ := of_score_pos h
  refine ⟨hverb, hunused, fun t m hk hm i j hbit => ?_, fun t m hk hm hgeneral k hbit => ?_⟩
  · rw [readsUndefined, hk] at hreads
    refine Bool.eq_false_iff.mpr fun hj => Bool.eq_false_iff.mp hreads ?_
    have hmeets : EntryMask.meets e.mask (EntryMask.col j.val) = true := by
      rw [mask, hm]
      exact EntryMask.meets_of_getLsbD hbit (EntryMask.getLsbD_col i j)
    exact Quad.any_indices.mpr ⟨j, by rw [hmeets, hj]; rfl⟩
  · rcases hscore with ⟨hother, -⟩ | ⟨-, bonus, hbonus, -⟩
    · rw [hgeneral] at hother
      cases hother
    · simp only [paramsScore?, hk, hm] at hbonus
      split at hbonus
      · rename_i hsubset
        exact EntryMask.getLsbD_of_subset hsubset hbit
      · cases hbonus

end Entry

/-! ## 3. The first of the highest score -/

namespace Table

/-- The entry `e` of the table `t` scores, and it is the first of the highest score: entries of earlier
tables and earlier entries of `t` score lower, and later ones no higher. -/
structure FirstBest (tables : List Table) (op : Op) (unread : Quad Bool) (e : Entry) (t : Table) :
    Prop where
  scores : 0 < e.score op unread
  place : ∃ above below before after, tables = above ++ t :: below ∧
    t.entries = before ++ e :: after ∧
    (∀ d, (∃ u ∈ above, d ∈ u.entries) ∨ d ∈ before → d.score op unread < e.score op unread) ∧
    ∀ d, d ∈ after ∨ (∃ u ∈ below, d ∈ u.entries) → d.score op unread ≤ e.score op unread

theorem mem_candidates {tables : List Table} {c : Entry × Table} :
    c ∈ candidates tables ↔ c.2 ∈ tables ∧ c.1 ∈ c.2.entries := by
  simp only [candidates, List.mem_flatMap, List.mem_map]
  constructor
  · rintro ⟨t, ht, e, he, rfl⟩
    exact ⟨ht, he⟩
  · rintro ⟨ht, he⟩
    exact ⟨c.2, ht, c.1, he, rfl⟩

/-- A place among the candidates is a place among the tables and one among the entries of that table. -/
theorem candidates_eq_append {tables : List Table} {e : Entry} {t : Table}
    {pre post : List (Entry × Table)} (h : candidates tables = pre ++ (e, t) :: post) :
    ∃ above below before after, tables = above ++ t :: below ∧ t.entries = before ++ e :: after ∧
      pre = candidates above ++ before.map (·, t) ∧ post = after.map (·, t) ++ candidates below := by
  induction tables generalizing pre with
  | nil => exact absurd h.symm (List.append_ne_nil_of_right_ne_nil _ (List.cons_ne_nil _ _))
  | cons u tables ih =>
    -- the place lies in a later table
    have hlater : ∀ {rest}, candidates tables = rest ++ (e, t) :: post →
        pre = u.entries.map (·, u) ++ rest → ∃ above below before after,
          u :: tables = above ++ t :: below ∧ t.entries = before ++ e :: after ∧
          pre = candidates above ++ before.map (·, t) ∧ post = after.map (·, t) ++ candidates below := by
      intro rest hrest hpre
      obtain ⟨above, below, before, after, rfl, hentries, rfl, hpost⟩ := ih hrest
      exact ⟨u :: above, below, before, after, rfl, hentries,
        hpre.trans (List.append_assoc _ _ _).symm, hpost⟩
    rcases List.append_eq_append_iff.mp (show u.entries.map (·, u) ++ candidates tables = _ from h) with
      ⟨rest, hpre, hrest⟩ | ⟨back, hback, hrest⟩
    · exact hlater hrest hpre
    · cases back with
      | nil => exact @hlater [] hrest.symm (by rw [hback, List.append_nil, List.append_nil])
      | cons c back =>
        obtain ⟨hc, rfl⟩ := List.cons.inj hrest
        subst hc
        obtain ⟨before, rest, hentries, rfl, hafter⟩ := List.map_eq_append_iff.mp hback
        obtain ⟨d, after, rfl, hd, rfl⟩ := List.map_eq_cons_iff.mp hafter
        obtain ⟨rfl, rfl⟩ := Prod.mk.inj hd
        exact ⟨[], tables, before, after, rfl, hentries, rfl, rfl⟩

theorem candidates_append_cons (above below : List Table) {before after : List Entry} {e : Entry}
    {t : Table} (h : t.entries = before ++ e :: after) :
    candidates (above ++ t :: below) =
      (candidates above ++ before.map (·, t)) ++ (e, t) :: (after.map (·, t) ++ candidates below) := by
  simp only [candidates, List.flatMap_append, List.flatMap_cons, h, List.map_append, List.map_cons,
    List.append_assoc, List.cons_append]

variable {tables : List Table} {op : Op} {unread : Quad Bool} {e : Entry} {t : Table}

/-- **The search gives the first entry of the highest score.** -/
theorem find?_eq_some_iff : find? tables op unread = some (e, t) ↔ FirstBest tables op unread e t := by
  rw [find?_eq_some_iff_append]
  constructor
  · rintro ⟨hpos, pre, post, hlist, hpre, hpost⟩
    obtain ⟨above, below, before, after, htables, hentries, rfl, rfl⟩ := candidates_eq_append hlist
    refine ⟨hpos, above, below, before, after, htables, hentries, fun d hd => ?_, fun d hd => ?_⟩
    · rcases hd with ⟨u, hu, hd⟩ | hd
      · exact hpre (d, u) (List.mem_append_left _ (mem_candidates.mpr ⟨hu, hd⟩))
      · exact hpre (d, t) (List.mem_append_right _ (List.mem_map_of_mem hd))
    · rcases hd with hd | ⟨u, hu, hd⟩
      · exact hpost (d, t) (List.mem_append_left _ (List.mem_map_of_mem hd))
      · exact hpost (d, u) (List.mem_append_right _ (mem_candidates.mpr ⟨hu, hd⟩))
  · rintro ⟨hpos, above, below, before, after, rfl, hentries, hlower, hupper⟩
    refine ⟨hpos, _, _, candidates_append_cons above below hentries, ?_, ?_⟩
    · refine List.forall_mem_append.mpr ⟨fun d hd => ?_, List.forall_mem_map.mpr fun d hd => ?_⟩
      · obtain ⟨hu, hd⟩ := mem_candidates.mp hd
        exact hlower d.1 (.inl ⟨d.2, hu, hd⟩)
      · exact hlower d (.inr hd)
    · refine List.forall_mem_append.mpr ⟨List.forall_mem_map.mpr fun d hd => ?_, fun d hd => ?_⟩
      · exact hupper d (.inl hd)
      · obtain ⟨hu, hd⟩ := mem_candidates.mp hd
        exact hupper d.1 (.inr ⟨d.2, hu, hd⟩)

theorem find?_eq_none_iff :
    find? tables op unread = none ↔ ∀ t ∈ tables, ∀ e ∈ t.entries, e.score op unread = 0 := by
  constructor
  · intro h t ht e he
    exact find?_eq_none h (e, t) (mem_candidates.mpr ⟨ht, he⟩)
  · intro h
    cases hfind : find? tables op unread with
    | none => rfl
    | some c =>
      obtain ⟨hmem, hpos, -⟩ := find?_eq_some hfind
      obtain ⟨ht, he⟩ := mem_candidates.mp hmem
      exact absurd (h c.2 ht c.1 he) (Nat.ne_of_gt hpos)

/-- A general entry that is found scores below ten, so no entry that would score more is there. -/
theorem score_eq_zero_of_general (h : find? tables op unread = some (e, t)) (he : e.general = true)
    {u : Table} (hu : u ∈ tables) {d : Entry} (hd : d ∈ u.entries) (hother : d.general = false) :
    d.score op unread = 0 := by
  obtain ⟨-, -, hbest⟩ := find?_eq_some h
  have hle : d.score op unread ≤ e.score op unread :=
    hbest (d, u) (mem_candidates.mpr ⟨hu, hd⟩)
  have hlt : e.score op unread < 10 := Entry.score_lt_of_general he
  refine Nat.eq_zero_of_not_pos fun hpos => ?_
  have := Entry.le_score_of_not_general hother hpos
  omega

/-- **The search is safe and takes the best entry.** For every list of tables, every operation with any
information and every set of components that may be undefined before it: nothing is found exactly if
no entry scores, and an entry is found exactly if it is the first of the highest score. It suits the
operation, and it is a general one only if no other entry scores. -/
theorem find?_is_first_best (tables : List Table) (op : Op) (unread : Quad Bool) :
    (find? tables op unread = none ↔ ∀ t ∈ tables, ∀ e ∈ t.entries, e.score op unread = 0) ∧
    ∀ e t, (find? tables op unread = some (e, t) ↔ FirstBest tables op unread e t) ∧
      (find? tables op unread = some (e, t) → e.Suits op unread ∧
        (e.general = true → ∀ u ∈ tables, ∀ d ∈ u.entries, d.general = false →
          d.score op unread = 0)) := by
  refine ⟨find?_eq_none_iff, fun e t => ⟨find?_eq_some_iff, fun h => ⟨?_, ?_⟩⟩⟩
  · obtain ⟨-, hpos, -⟩ := find?_eq_some h
    exact Entry.suits_of_score_pos hpos
  · exact fun he u hu d hd => score_eq_zero_of_general h he hu hd

/-- The weighted sum of three components; the first output alone is read. -/
def weighing : Op :=
  ⟨.f32, .affine (.ofRows { Affine.identity.rows with
      c0 := ⟨⟨⟨299, 1000⟩, ⟨587, 1000⟩, ⟨57, 500⟩, Fraction.zero⟩, Fraction.zero⟩ }),
    { Info.blank with unused := ⟨false, true, true, true⟩ }⟩

/-- A kernel for the transforms within a mask. -/
def masked (name : String) (mask : EntryMask) (unused : Quad Bool) : Entry where
  name := name
  verb := .affine
  elem := .f32
  unused := unused
  params := .affineMask mask
  setup := Setup.dot3

/-- A kernel that only computes the first output, from three components. -/
def firstOnly (name : String) : Entry :=
  masked name (EntryMask.row 0 &&& ~~~EntryMask.col 3) ⟨false, true, true, true⟩

/-- A kernel that multiplies all four components. -/
def fourByFour : Entry := masked "matrix" EntryMask.full (Quad.const false)

/-- A general kernel. -/
def anyTransform : Entry where
  name := "affine"
  verb := .affine
  elem := .f32
  general := true
  setup := Setup.affine

def wideTable : Table := ⟨"wide", CpuSet.none, 0, [anyTransform, fourByFour]⟩

def narrowTable : Table := ⟨"narrow", CpuSet.none, 0, [firstOnly "first", firstOnly "second"]⟩

/-- The fourth component alone may be undefined. -/
def fourthUnread : Quad Bool := ⟨false, false, false, true⟩

/-- The kernel for all four components is out, as the fourth may be undefined. The narrow ones outrank
the general one before them, and the first of them is taken; without them it is the general one. -/
theorem weighing_is_first_best :
    FirstBest [wideTable, narrowTable] weighing fourthUnread (firstOnly "first") narrowTable ∧
    (firstOnly "first").Suits weighing fourthUnread ∧
    find? [wideTable] weighing fourthUnread = some (anyTransform, wideTable) ∧
    fourByFour.score weighing fourthUnread = 0 := by
  have hnarrow := (find?_is_first_best [wideTable, narrowTable] weighing fourthUnread).2
    (firstOnly "first") narrowTable
  have hwide := (find?_is_first_best [wideTable] weighing fourthUnread).2 anyTransform wideTable
  have hfound : find? [wideTable, narrowTable] weighing fourthUnread =
      some (firstOnly "first", narrowTable) := rfl
  have hgeneral : find? [wideTable] weighing fourthUnread = some (anyTransform, wideTable) := rfl
  refine ⟨hnarrow.1.mp hfound, (hnarrow.2 hfound).1, hgeneral, ?_⟩
  exact (hwide.2 hgeneral).2 rfl wideTable List.mem_cons_self _
    (List.mem_cons_of_mem _ List.mem_cons_self) rfl

end Table

end PixelConv
