import PixelConv.Chain
import PixelConv.Kernel.Catalogue

/-!
# How a program is linked

What the search for kernels can choose, said once. `Table.find?` gives an entry of the highest
score (`Table.find?_eq_some`), `Chosen` lists the kernels that the portable tables have for an
operation, and `Linked` is the list of kernels of a whole program with the margins they need;
`Chain.link_portable` says that every chain that is built from the portable tables is one.
-/

namespace PixelConv

/-! ## 1. The best entry -/

namespace Table

variable {op : Op} {unread : Quad Bool}

/-- **Looking through candidates** with the best one so far at hand: either none of them scores higher
than that one, or the first of the highest score among them takes its place. -/
theorem foldl_better (l : List (Entry × Table)) (best : Nat × Option (Entry × Table)) :
    (l.foldl (better op unread) best = best ∧ ∀ d ∈ l, d.1.score op unread ≤ best.1) ∨
    ∃ pre c post, l = pre ++ c :: post ∧
      l.foldl (better op unread) best = (c.1.score op unread, some c) ∧
      best.1 < c.1.score op unread ∧ (∀ d ∈ pre, d.1.score op unread < c.1.score op unread) ∧
      ∀ d ∈ post, d.1.score op unread ≤ c.1.score op unread := by
  induction l generalizing best with
  | nil => exact .inl ⟨rfl, fun _ h => absurd h List.not_mem_nil⟩
  | cons d l ih =>
    rw [List.foldl_cons]
    by_cases hlt : best.1 < d.1.score op unread
    · rw [show better op unread best d = (d.1.score op unread, some d) from if_pos hlt]
      refine .inr ?_
      rcases ih (d.1.score op unread, some d) with ⟨hfold, hle⟩ |
        ⟨pre, c, post, rfl, hfold, hbest, hpre, hpost⟩
      · exact ⟨[], d, l, rfl, hfold, hlt, fun _ h => absurd h List.not_mem_nil, hle⟩
      · exact ⟨d :: pre, c, post, rfl, hfold, Nat.lt_trans hlt hbest,
          List.forall_mem_cons.mpr ⟨hbest, hpre⟩, hpost⟩
    · rw [show better op unread best d = best from if_neg hlt]
      have hd : d.1.score op unread ≤ best.1 := Nat.not_lt.mp hlt
      rcases ih best with ⟨hfold, hle⟩ | ⟨pre, c, post, rfl, hfold, hbest, hpre, hpost⟩
      · exact .inl ⟨hfold, List.forall_mem_cons.mpr ⟨hd, hle⟩⟩
      · exact .inr ⟨d :: pre, c, post, rfl, hfold, hbest,
          List.forall_mem_cons.mpr ⟨Nat.lt_of_le_of_lt hd hbest, hpre⟩, hpost⟩

/-- **The entry that is found** is the one that scores, that no entry before it equals and that no
entry after it outscores. -/
theorem find?_eq_some_iff_append {tables : List Table} {c : Entry × Table} :
    find? tables op unread = some c ↔ 0 < c.1.score op unread ∧
      ∃ pre post, candidates tables = pre ++ c :: post ∧
        (∀ d ∈ pre, d.1.score op unread < c.1.score op unread) ∧
        ∀ d ∈ post, d.1.score op unread ≤ c.1.score op unread := by
  unfold find?
  constructor
  · intro h
    rcases @foldl_better op unread (candidates tables) (0, none) with ⟨hfold, -⟩ |
      ⟨pre, d, post, hlist, hfold, hpos, hpre, hpost⟩
    · rw [hfold] at h
      cases h
    · rw [hfold] at h
      cases h
      exact ⟨hpos, pre, post, hlist, hpre, hpost⟩
  · rintro ⟨hpos, pre, post, hlist, hpre, hpost⟩
    have hbest : (pre.foldl (better op unread) (0, none)).1 < c.1.score op unread := by
      rcases @foldl_better op unread pre (0, none) with ⟨hfold, -⟩ |
        ⟨front, d, back, rfl, hfold, -⟩
      · rw [hfold]
        exact hpos
      · rw [hfold]
        exact hpre d (List.mem_append_right _ List.mem_cons_self)
    rw [hlist, List.foldl_append, List.foldl_cons, better, if_pos hbest]
    rcases @foldl_better op unread post (c.1.score op unread, some c) with ⟨hfold, -⟩ |
      ⟨front, d, back, rfl, -, hlt, -⟩
    · rw [hfold]
    · exact absurd (hpost d (List.mem_append_right _ List.mem_cons_self)) (Nat.not_le.mpr hlt)

/-- **The entry that is found scores, and none scores higher.** -/
theorem find?_eq_some {tables : List Table} {c : Entry × Table}
    (h : find? tables op unread = some c) :
    c ∈ candidates tables ∧ 0 < c.1.score op unread ∧
      ∀ d ∈ candidates tables, d.1.score op unread ≤ c.1.score op unread := by
  obtain ⟨hpos, pre, post, hlist, hpre, hpost⟩ := find?_eq_some_iff_append.mp h
  rw [hlist]
  refine ⟨List.mem_append_right _ List.mem_cons_self, hpos, ?_⟩
  exact List.forall_mem_append.mpr ⟨fun d hd => Nat.le_of_lt (hpre d hd),
    List.forall_mem_cons.mpr ⟨Nat.le_refl _, hpost⟩⟩

/-- Nothing is found exactly if no entry scores. -/
theorem find?_eq_none {tables : List Table} (h : find? tables op unread = none) :
    ∀ c ∈ candidates tables, c.1.score op unread = 0 := by
  unfold find? at h
  rcases @foldl_better op unread (candidates tables) (0, none) with ⟨-, hle⟩ |
    ⟨pre, d, post, -, hfold, -⟩
  · exact fun c hc => Nat.le_zero.mp (hle c hc)
  · rw [hfold] at h
    cases h

end Table

namespace Entry

/-- **What an entry that scores promises**, and what its score is: ten and one for each component that
it demands to be unused, five less for a general entry, and a bonus for the parameters of another. -/
theorem of_score_pos {e : Entry} {op : Op} {unread : Quad Bool} (h : 0 < e.score op unread) :
    e.verb = op.verb ∧ e.elemMatches op = true ∧
      (∀ i, e.unused i = true → op.info.unused i = true) ∧ e.readsUndefined op unread = false ∧
      (e.general = true ∧ e.score op unread = 10 + e.unused.toList.countP id - 5 ∨
        e.general = false ∧ ∃ bonus, e.paramsScore? op = some bonus ∧
          e.score op unread = 10 + e.unused.toList.countP id + bonus) := by
  unfold score at h ⊢
  simp only at h ⊢
  split at h
  · exact absurd h (Nat.lt_irrefl 0)
  rename_i hverb
  split at h
  · exact absurd h (Nat.lt_irrefl 0)
  rename_i helem
  split at h
  · exact absurd h (Nat.lt_irrefl 0)
  rename_i hunused
  split at h
  · exact absurd h (Nat.lt_irrefl 0)
  rename_i hreads
  rw [if_neg hverb, if_neg helem, if_neg hunused, if_neg hreads]
  refine ⟨Decidable.not_not.mp hverb, ?_, fun i hi => ?_, Bool.eq_false_iff.mpr hreads, ?_⟩
  · cases hm : e.elemMatches op with
    | true => rfl
    | false => rw [hm] at helem; exact absurd rfl helem
  · cases hu : op.info.unused i with
    | true => rfl
    | false =>
      refine absurd (Quad.any_indices.mpr ⟨i, ?_⟩) hunused
      rw [hi, hu]
      rfl
  · split at h
    · rename_i hgeneral
      exact .inl ⟨hgeneral, if_pos hgeneral⟩
    · rename_i hgeneral
      rw [if_neg hgeneral]
      split at h
      · rename_i bonus hbonus
        exact .inr ⟨Bool.eq_false_iff.mpr hgeneral, bonus, hbonus, rfl⟩
      · exact absurd h (Nat.lt_irrefl 0)

end Entry

/-! ## 2. The portable tables -/

/-- The set-up of the general kernel for an operation, if there is one. -/
def Op.generic? (op : Op) : Option Setup :=
  match op.verb with
  | .read => some (Setup.load op.elem.size)
  | .write => some (Setup.store op.elem.size)
  | .swapBytes => match op.elem with
    | .u8 => none
    | .u16 => some (Setup.fixed (.compute .swap16))
    | .u32 | .f32 => some (Setup.fixed (.compute .swap32))
  | .unpack | .pack => if op.elem.isInt then some Setup.pattern else none
  | .clear => some Setup.clear
  | .shiftLeft | .shiftRight => if op.elem.isInt then some Setup.shift else none
  | .swizzle => some Setup.swizzle
  | .convert => some Setup.convert
  | .dither => if op.elem.isInt then none else some Setup.dither
  | .affine => if op.elem.isInt then none else some Setup.affine
  | .scale => if op.elem.isInt then some Setup.scaleInt else some Setup.scaleFloat
  | .atMost | .atLeast => if op.elem.isInt then some Setup.clampInt else some Setup.clampFloat

section Integers

variable {op : Op} (hi : op.elem.isInt = true)
include hi

theorem Op.generic?_shift (hv : op.verb = .shiftLeft ∨ op.verb = .shiftRight) :
    op.generic? = some Setup.shift := by
  unfold Op.generic?
  rcases hv with hv | hv
  · rw [hv]
    exact if_pos hi
  · rw [hv]
    exact if_pos hi

theorem Op.generic?_scale (hv : op.verb = .scale) : op.generic? = some Setup.scaleInt := by
  unfold Op.generic?
  rw [hv]
  exact if_pos hi

theorem Op.generic?_clamp (hv : op.verb = .atMost ∨ op.verb = .atLeast) :
    op.generic? = some Setup.clampInt := by
  unfold Op.generic?
  rcases hv with hv | hv
  · rw [hv]
    exact if_pos hi
  · rw [hv]
    exact if_pos hi

end Integers

/-- The kernels that the portable tables have for an operation on words, with the margins that they
read and write. -/
inductive Chosen (op : Op) : Kernel → Nat → Nat → Prop
  /-- The general kernel of its verb. -/
  | generic {setup : Setup} {k : Kernel} (hs : op.generic? = some setup) (hk : setup op = .ok k) :
      Chosen op k 0 0
  | loadTriples (hk : op.kind = .read ⟨3, true, 0⟩) (he : op.elem = .u8) :
      Chosen op .loadTriples 1 0
  | storeTriples (hk : op.kind = .write ⟨3, true, 0⟩) (he : op.elem = .u8) :
      Chosen op .storeTriples 0 1
  /-- Sets the fourth component to 255, when no other constant is read later. -/
  | clearAlpha {values words : Constants} (hk : op.kind = .clear values)
      (hw : values.words? op.elem = some words)
      (h : ∀ i, op.info.unused i = false →
        words i = (⟨none, none, none, some (Fraction.ofNat 255)⟩ : Constants) i) :
      Chosen op (.compute (.clear ⟨none, none, none, some 255⟩)) 0 0
  /-- Exchanges the first and the third component. -/
  | swapEnds {s : Swizzle} (hk : op.kind = .swizzle s)
      (h : ∀ i, op.info.unused i = false → s.order i = (⟨2, 1, 0, 3⟩ : Quad Nat) i) :
      Chosen op (.compute (.swizzle ⟨2, 1, 0, 3⟩)) 0 0
  | toUnit (hk : op.kind = .convert .f32 true) (he : op.elem = .u8) :
      Chosen op (.compute (.toUnit 255.0)) 0 0
  /-- Computes the first component alone, from the first three. -/
  | dot3 {t : Affine} (hk : op.kind = .affine t) (he : op.elem = .f32)
      (hm : EntryMask.subset t.mask (EntryMask.row 0 &&& ~~~EntryMask.col 3) = true)
      (hu : ∀ i : Fin 4, i ≠ 0 → op.info.unused i = true) :
      Chosen op (.compute (.dot3 (Setup.floatRow t.rows.c0))) 0 0

namespace Catalogue

/-- An entry of the general table that scores is the one of the operation's verb. -/
theorem generic_entry {e : Entry} (he : e ∈ generic.entries) {op : Op} {unread : Quad Bool}
    (h : 0 < e.score op unread) :
    op.generic? = some e.setup ∧ e.readMargin = 0 ∧ e.writeMargin = 0 := by
  obtain ⟨hverb, helem, -⟩ := Entry.of_score_pos h
  unfold Op.generic?
  rw [← hverb]
  simp only [generic, List.mem_cons, List.not_mem_nil, or_false] at he
  obtain ⟨elem, kind, info⟩ := op
  rcases he with rfl | rfl | rfl | rfl | rfl | rfl | rfl | rfl | rfl | rfl | rfl | rfl | rfl | rfl |
    rfl | rfl | rfl | rfl | rfl | rfl | rfl | rfl | rfl | rfl | rfl | rfl | rfl | rfl | rfl | rfl |
    rfl | rfl | rfl | rfl | rfl | rfl | rfl | rfl | rfl | rfl <;>
  cases elem <;> first | exact ⟨rfl, rfl, rfl⟩ | cases helem

/-- An entry of the general table scores with every operation of its verb and element. -/
theorem generic_score_pos {e : Entry} (he : e ∈ generic.entries) {op : Op} (unread : Quad Bool)
    (hverb : e.verb = op.verb) (helem : e.elemMatches op = true) : 0 < e.score op unread := by
  have hrest : e.unused = Quad.const false ∧ e.params = .none ∧
      (e.general = true ∨ e.verb = .swapBytes) := by
    simp only [generic, List.mem_cons, List.not_mem_nil, or_false] at he
    rcases he with rfl | rfl | rfl | rfl | rfl | rfl | rfl | rfl | rfl | rfl | rfl | rfl | rfl |
      rfl | rfl | rfl | rfl | rfl | rfl | rfl | rfl | rfl | rfl | rfl | rfl | rfl | rfl | rfl |
      rfl | rfl | rfl | rfl | rfl | rfl | rfl | rfl | rfl | rfl | rfl | rfl <;>
    exact ⟨rfl, rfl, by decide⟩
  obtain ⟨hunused, hparams, hgeneral⟩ := hrest
  have hreads : e.readsUndefined op unread = false := by
    unfold Entry.readsUndefined
    split
    · have hmask : e.mask = 0#32 := by simp only [Entry.mask, hparams]
      simp only [hmask, EntryMask.meets, BitVec.zero_and, bne_self_eq_false, Bool.false_and]
      rfl
    · rfl
  have hany : (Quad.indices.any fun i => e.unused i && !op.info.unused i) = false := by
    simp only [hunused, Quad.get_const, Bool.false_and]
    rfl
  unfold Entry.score
  simp only [hverb, helem, hreads, hany, ne_eq, not_true_eq_false, if_false, Bool.not_true,
    Bool.false_eq_true]
  rw [hunused]
  rcases hgeneral with hgeneral | hswap
  · rw [if_pos hgeneral]
    decide
  · have hkind : op.kind = .swapBytes := by
      rw [hverb] at hswap
      unfold Op.verb at hswap
      cases hk : op.kind <;> rw [hk] at hswap <;> first | rfl | cases hswap
    have hbonus : e.paramsScore? op = some 0 := by
      simp only [Entry.paramsScore?, hkind, hparams]
    rw [hbonus]
    cases e.general <;> decide

/-- Every operation that has a general kernel scores with some entry. -/
theorem exists_generic {op : Op} {setup : Setup} (h : op.generic? = some setup)
    (unread : Quad Bool) : ∃ e ∈ generic.entries, 0 < e.score op unread := by
  have hany : generic.entries.any (fun e => decide (e.verb = op.verb) && e.elemMatches op) =
      true := by
    obtain ⟨elem, kind, info⟩ := op
    cases kind <;> cases elem <;> first | rfl | cases h
  obtain ⟨e, he, hm⟩ := List.any_eq_true.mp hany
  rw [Bool.and_eq_true, decide_eq_true_eq] at hm
  exact ⟨e, he, generic_score_pos he unread hm.1 hm.2⟩

theorem agreeOnUsed_spec {α : Type} [DecidableEq α] {op : Op} {a b : Quad α}
    (h : Entry.agreeOnUsed op a b = true) (i : Fin 4) (hi : op.info.unused i = false) :
    a i = b i := by
  have := Quad.all_indices.mp h i
  rw [hi, Bool.false_or] at this
  exact of_decide_eq_true this

theorem layoutMatches_triple {l : Layout}
    (h : Entry.paramsScore?.layoutMatches l (.interleaved 3) = true) : l = ⟨3, true, 0⟩ := by
  obtain ⟨count, packed, frac⟩ := l
  simp only [Entry.paramsScore?.layoutMatches, Layout.interleaved, Bool.and_eq_true, beq_iff_eq,
    Bool.or_eq_true] at h
  obtain ⟨⟨rfl, rfl⟩, hp⟩ := h
  rcases hp with hp | rfl
  · cases hp
  · rfl

/-- An entry of the special table that scores gives one of the special kernels. -/
theorem specialized_entry {e : Entry} (he : e ∈ specialized.entries) {op : Op} {unread : Quad Bool}
    (h : 0 < e.score op unread) {k : Kernel} (hk : e.setup op = .ok k) :
    Chosen op k e.readMargin e.writeMargin := by
  obtain ⟨hverb, helem, hunused, -, hparams⟩ := Entry.of_score_pos h
  clear h
  simp only [specialized, List.mem_cons, List.not_mem_nil, or_false] at he
  obtain ⟨elem, kind, info⟩ := op
  rcases he with rfl | rfl | rfl | rfl | rfl | rfl
  -- none of them is general, and each has the kind of its verb
  all_goals
    rcases hparams with ⟨hgeneral, -⟩ | ⟨-, bonus, hparams, -⟩
    · cases hgeneral
    cases kind <;> try cases hverb
    simp only [Entry.paramsScore?] at hparams
  · split at hparams
    · rename_i hl
      have helem : elem = .u8 := by cases elem <;> first | rfl | cases helem
      cases hk
      exact .loadTriples (congrArg Kind.read (layoutMatches_triple hl)) helem
    · cases hparams
  · split at hparams
    · rename_i hl
      have helem : elem = .u8 := by cases elem <;> first | rfl | cases helem
      cases hk
      exact .storeTriples (congrArg Kind.write (layoutMatches_triple hl)) helem
    · cases hparams
  · split at hparams
    · rename_i words mine hw hmine
      split at hparams
      · rename_i hagree
        cases hk
        have : mine = ⟨none, none, none, some (Fraction.ofNat 255)⟩ := by
          have := hmine.symm.trans (show _ = some _ from rfl)
          exact Option.some.inj this
        subst this
        exact .clearAlpha rfl hw (agreeOnUsed_spec hagree)
      · cases hparams
    · cases hparams
  · split at hparams
    · rename_i hagree
      cases hk
      exact .swapEnds rfl (agreeOnUsed_spec hagree)
    · cases hparams
  · split at hparams
    · rename_i htarget
      have hu8 : elem = .u8 := by cases elem <;> first | rfl | cases helem
      simp only [Bool.and_eq_true, decide_eq_true_eq] at htarget
      obtain ⟨rfl, rfl⟩ := htarget
      cases hk
      exact .toUnit rfl hu8
    · cases hparams
  · split at hparams
    · rename_i hmask
      have helem : elem = .f32 := by cases elem <;> first | rfl | cases helem
      cases hk
      refine .dot3 rfl helem hmask fun i hi => hunused i ?_
      match i with
      | 0 => exact absurd rfl hi
      | 1 | 2 | 3 => rfl
    · cases hparams

/-- An entry that is found is one of the tables', and it scores. -/
theorem entry_of_find? {tables : List Table} {op : Op} {unread : Quad Bool} {e : Entry} {t : Table}
    (h : Table.find? tables op unread = some (e, t)) :
    (∃ table ∈ tables, e ∈ table.entries) ∧ 0 < e.score op unread := by
  obtain ⟨hmem, hpos, -⟩ := Table.find?_eq_some h
  obtain ⟨table, htable, hmem⟩ := List.mem_flatMap.mp hmem
  obtain ⟨e', he', heq⟩ := List.mem_map.mp hmem
  cases heq
  exact ⟨⟨t, htable, he'⟩, hpos⟩

/-- **The kernel that the portable tables give for an operation.** -/
theorem chosen_of_find? {op : Op} {unread : Quad Bool} {e : Entry} {t : Table} {k : Kernel}
    (h : Table.find? portable op unread = some (e, t)) (hk : e.setup op = .ok k) :
    Chosen op k e.readMargin e.writeMargin := by
  obtain ⟨⟨table, htable, he⟩, hpos⟩ := entry_of_find? h
  simp only [portable, List.mem_cons, List.not_mem_nil, or_false] at htable
  rcases htable with rfl | rfl
  · exact specialized_entry he hpos hk
  · obtain ⟨hs, hr, hw⟩ := generic_entry he hpos
    rw [hr, hw]
    exact .generic hs hk

/-- An operation with a general kernel gets a kernel. -/
theorem find?_isSome {op : Op} {setup : Setup} (h : op.generic? = some setup)
    (unread : Quad Bool) : ∃ e t, Table.find? portable op unread = some (e, t) := by
  obtain ⟨e, he, hpos⟩ := exists_generic h unread
  cases hf : Table.find? portable op unread with
  | some c => exact ⟨c.1, c.2, rfl⟩
  | none =>
    have hmem : (e, generic) ∈ Table.candidates portable :=
      List.mem_flatMap.mpr ⟨generic, List.mem_cons_of_mem _ List.mem_cons_self, List.mem_map.mpr ⟨e, he, rfl⟩⟩
    have := Table.find?_eq_none hf _ hmem
    simp only at this
    omega

/-- The entry that is found takes the operation when the general kernel does. -/
theorem setup_of_find? {op : Op} {unread : Quad Bool} {e : Entry} {t : Table} {setup : Setup}
    {k : Kernel} (h : Table.find? portable op unread = some (e, t)) (hs : op.generic? = some setup)
    (hk : setup op = .ok k) : ∃ k', e.setup op = .ok k' := by
  obtain ⟨⟨table, htable, he⟩, hpos⟩ := entry_of_find? h
  simp only [portable, List.mem_cons, List.not_mem_nil, or_false] at htable
  rcases htable with rfl | rfl
  · obtain ⟨hverb, -⟩ := Entry.of_score_pos hpos
    simp only [specialized, List.mem_cons, List.not_mem_nil, or_false] at he
    rcases he with rfl | rfl | rfl | rfl | rfl | rfl
    · exact ⟨_, rfl⟩
    · exact ⟨_, rfl⟩
    · exact ⟨_, rfl⟩
    · exact ⟨_, rfl⟩
    · exact ⟨_, rfl⟩
    · obtain ⟨elem, kind, info⟩ := op
      cases kind <;> first | exact ⟨_, rfl⟩ | cases hverb
  · obtain ⟨hs', -⟩ := generic_entry he hpos
    rw [hs] at hs'
    cases hs'
    exact ⟨k, hk⟩

end Catalogue

/-! ## 3. Chains -/

/-- The kernels of a list of operations, with the margins that they read and write altogether. -/
inductive Linked : List Op → List Kernel → Nat → Nat → Prop
  | nil : Linked [] [] 0 0
  | cons {op word : Op} {ops : List Op} {k : Kernel} {ks : List Kernel} {r w rs ws : Nat}
      (hop : op.onWords = .ok word) (hk : Chosen word k r w) (rest : Linked ops ks rs ws) :
      Linked (op :: ops) (k :: ks) (max r rs) (max w ws)

theorem Linked.length_eq {ops : List Op} {ks : List Kernel} {r w : Nat} (h : Linked ops ks r w) :
    ks.length = ops.length := by
  induction h with
  | nil => rfl
  | cons _ _ _ ih => rw [List.length_cons, List.length_cons, ih]

namespace Chain

theorem push_eq_ok {c c' : Chain} {k : Kernel} (h : c.push k = .ok c') :
    c.links.length < maxLength ∧ c' = { c with links := c.links ++ [k] } := by
  unfold push at h
  split at h
  · rename_i hlt
    exact ⟨hlt, (Except.ok.inj h).symm⟩
  · cases h

/-- Only kernels of the portable tables are found in the tables. -/
def ChoosesPortable (tables : List Table) : Prop :=
  ∀ ⦃op : Op⦄ ⦃unread : Quad Bool⦄ ⦃e : Entry⦄ ⦃t : Table⦄ ⦃k : Kernel⦄,
    Table.find? tables op unread = some (e, t) → e.setup op = .ok k →
      Chosen op k e.readMargin e.writeMargin

/-- What is done for the first of some operations that are linked. -/
theorem linkFrom_cons_eq_ok {tables : List Table} {index : Nat} {unread : Quad Bool}
    {chain chain' : Chain} {op : Op} {ops : List Op} {matched : List Match}
    (h : linkFrom tables index unread chain (op :: ops) = (matched, .ok chain')) :
    ∃ word e t k matched', op.onWords = .ok word ∧ Table.find? tables word unread = some (e, t) ∧
      e.setup word = .ok k ∧ chain.links.length < maxLength ∧
      linkFrom tables (index + 1) word.info.unused
        (({ chain with links := chain.links ++ [k] } : Chain).require e t) ops =
          (matched', .ok chain') := by
  unfold linkFrom at h
  split at h
  · cases (Prod.mk.inj h).2
  rename_i word hword
  split at h
  · cases (Prod.mk.inj h).2
  rename_i e t hfind
  split at h
  · cases (Prod.mk.inj h).2
  rename_i pushed hpushed
  obtain ⟨k, hsetup, hpush⟩ : ∃ k, e.setup word = .ok k ∧ chain.push k = .ok pushed := by
    cases hs : e.setup word with
    | error err => rw [hs] at hpushed; cases hpushed
    | ok k => rw [hs] at hpushed; exact ⟨k, rfl, hpushed⟩
  obtain ⟨hlt, rfl⟩ := push_eq_ok hpush
  exact ⟨word, e, t, k, _, hword, hfind, hsetup, hlt, Prod.ext rfl (Prod.mk.inj h).2⟩

/-- **What linking appends to a chain.** -/
theorem linkFrom_linked {tables : List Table} (htables : ChoosesPortable tables) :
    ∀ {ops : List Op} {index : Nat} {unread : Quad Bool} {chain chain' : Chain}
      {matched : List Match}, linkFrom tables index unread chain ops = (matched, .ok chain') →
    ∃ ks r w, Linked ops ks r w ∧ chain'.links = chain.links ++ ks ∧
      chain'.readMargin = max chain.readMargin r ∧ chain'.writeMargin = max chain.writeMargin w ∧
      (chain.links.length ≤ maxLength → chain'.links.length ≤ maxLength)
  | [], index, unread, chain, chain', matched, h => by
    simp only [linkFrom, Prod.mk.injEq, Except.ok.injEq] at h
    obtain ⟨-, rfl⟩ := h
    refine ⟨[], 0, 0, .nil, (List.append_nil _).symm, ?_, ?_, id⟩ <;> omega
  | op :: ops, index, unread, chain, chain', matched, h => by
    obtain ⟨word, e, t, k, matched', hword, hfind, hsetup, hlt, hrest⟩ := linkFrom_cons_eq_ok h
    obtain ⟨ks, r, w, hlinked, hlinks, hr, hw, hlen⟩ := linkFrom_linked htables hrest
    refine ⟨k :: ks, _, _, .cons hword (htables hfind hsetup) hlinked, ?_, ?_, ?_,
      fun _ => hlen ?_⟩
    · rw [hlinks, require, List.append_assoc, List.singleton_append]
    · rw [hr, require, Nat.max_assoc]
    · rw [hw, require, Nat.max_assoc]
    · rw [require, List.length_append, List.length_singleton]
      exact hlt

/-- Both portable tables can always be used. -/
theorem usable_portable (cpu : CpuSet) : usable Catalogue.portable cpu blockPixels = Catalogue.portable :=
  rfl

/-- **Every chain of portable kernels.** -/
theorem linked_of_link {p : Program} {tables : List Table} {cpu : CpuSet} {blockSize : Nat}
    {matched : List Match} {chain : Chain} (htables : ChoosesPortable (usable tables cpu blockSize))
    (h : link p tables cpu blockSize = (matched, .ok chain)) :
    Linked p.ops chain.links chain.readMargin chain.writeMargin ∧ p.ops.length ≤ maxLength := by
  obtain ⟨ks, r, w, hlinked, hlinks, hr, hw, hlen⟩ := linkFrom_linked htables h
  have hlinks : chain.links = ks := hlinks
  have hr : chain.readMargin = r := hr.trans (Nat.zero_max r)
  have hw : chain.writeMargin = w := hw.trans (Nat.zero_max w)
  rw [hlinks, hr, hw]
  refine ⟨hlinked, ?_⟩
  rw [← hlinked.length_eq, ← hlinks]
  exact hlen (by decide)

theorem link_portable {p : Program} {cpu : CpuSet} {matched : List Match} {chain : Chain}
    (h : link p Catalogue.portable cpu blockPixels = (matched, .ok chain)) :
    Linked p.ops chain.links chain.readMargin chain.writeMargin ∧ p.ops.length ≤ maxLength := by
  refine linked_of_link ?_ h
  rw [usable_portable]
  exact fun _ _ _ _ _ => Catalogue.chosen_of_find?

/-- **What linking comes to** where every operation that can be moved onto words has a general kernel
that takes it: a chain, or a refusal since there are too many operations or since some operation
cannot be moved. -/
theorem linkFrom_outcome : ∀ {ops : List Op} (index : Nat) (unread : Quad Bool) (chain : Chain),
    (∀ op ∈ ops, ∀ word, op.onWords = .ok word → ∃ setup k, word.generic? = some setup ∧
      setup word = .ok k) →
    ∃ matched result, linkFrom Catalogue.portable index unread chain ops = (matched, result) ∧
      ((∃ chain', result = .ok chain') ∨
        result = .error (.unsupported .chainFull) ∧ maxLength < chain.links.length + ops.length ∨
        ∃ op ∈ ops, ∃ e, op.onWords = .error e ∧ result = .error e)
  | [], _, _, chain, _ => ⟨[], .ok chain, rfl, .inl ⟨chain, rfl⟩⟩
  | op :: ops, index, unread, chain, hops => by
    cases hword : op.onWords with
    | error e =>
      refine ⟨[], .error e, ?_, .inr (.inr ⟨op, List.mem_cons_self, e, hword, rfl⟩)⟩
      simp only [linkFrom, hword]
    | ok word =>
      obtain ⟨setup, k, hs, hk⟩ := hops op List.mem_cons_self word hword
      obtain ⟨e, t, hfind⟩ := Catalogue.find?_isSome hs unread
      obtain ⟨k', hk'⟩ := Catalogue.setup_of_find? hfind hs hk
      have hbind : (e.setup word >>= chain.push) = chain.push k' := by
        rw [hk']
        rfl
      by_cases hlen : chain.links.length < maxLength
      · have hpush : chain.push k' = .ok { chain with links := chain.links ++ [k'] } := if_pos hlen
        obtain ⟨matched, result, hrest, hresult⟩ := linkFrom_outcome (index + 1) word.info.unused
          (({ chain with links := chain.links ++ [k'] } : Chain).require e t)
          (fun op hop => hops op (List.mem_cons_of_mem _ hop))
        refine ⟨⟨index, e.name, t.name⟩ :: matched, result, ?_, ?_⟩
        · simp only [linkFrom, hword, hfind, hbind, hpush, hrest]
        · rw [require, List.length_append, List.length_singleton] at hresult
          rw [List.length_cons]
          rcases hresult with hok | ⟨hfull, hlt⟩ | ⟨op', hop', he⟩
          · exact .inl hok
          · exact .inr (.inl ⟨hfull, by omega⟩)
          · exact .inr (.inr ⟨op', List.mem_cons_of_mem _ hop', he⟩)
      · have hpush : chain.push k' = .error (.unsupported .chainFull) := if_neg hlen
        refine ⟨[⟨index, e.name, t.name⟩], .error (.unsupported .chainFull), ?_,
          .inr (.inl ⟨rfl, ?_⟩)⟩
        · simp only [linkFrom, hword, hfind, hbind, hpush]
        · rw [List.length_cons]
          omega

end Chain

end PixelConv
