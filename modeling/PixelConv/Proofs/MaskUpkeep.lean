import PixelConv.Proofs.AffineRules
import PixelConv.Proofs.Step

/-!
# Masks stay in step

A transform carries its mask beside its matrix. Composing computes the mask anew, while resetting a
row or a column only takes a pattern of bits out of it. `Affine.Change` is one such step, and a mask
that is the one of the rows is so again after it (`Affine.Masked.apply`). Main statement: after
every history of changes the mask is the set of the entries that differ from the identity, and the
rule for identities removes a transform exactly if it is one (`Affine.mask_of_changed`).
-/

namespace PixelConv

/-! ## 1. What a computed mask says -/

/-- A row is known by its entries. -/
theorem AffineRow.ext_entry {r r' : AffineRow} (h : ∀ j, r.entry j = r'.entry j) : r = r' := by
  have hweight : r.weight = r'.weight := Quad.ext_get fun i => by
    rw [← entry_castSucc, ← entry_castSucc, h]
  have hoffset : r.offset = r'.offset := h (Fin.last 4)
  cases r
  cases r'
  exact AffineRow.mk.injEq .. ▸ ⟨hweight, hoffset⟩

namespace Affine

variable {t u : Affine}

/-- The mask is the one of the rows. Entries may be undefined. -/
def Masked (t : Affine) : Prop := t.mask = maskOf t.rows

theorem masked_ofRows (rows : Quad AffineRow) : (ofRows rows).Masked := rfl

namespace Masked

theorem getLsbD_entry (h : t.Masked) (i : Fin 4) (j : Fin 5) :
    t.mask.getLsbD (5 * i.val + j.val) = true ↔ t.entry i j ≠ unit i j := by
  rw [h, getLsbD_maskOf]
  constructor
  · rintro ⟨a, b, hplace, hne⟩
    -- a bit belongs to one entry, since columns are numbered below five
    have hj := j.isLt
    have hb := b.isLt
    have hrow : i = a := Fin.ext (by omega)
    have hcol : j = b := Fin.ext (by omega)
    rw [hrow, hcol]
    exact hne
  · exact fun hne => ⟨i, j, rfl, hne⟩

theorem getLsbD_beyond (h : t.Masked) {k : Nat} (hk : 20 ≤ k) : t.mask.getLsbD k = false := by
  rw [h]
  exact maskOf_bounded t.rows k hk

/-- **An empty mask** is that of the identity. -/
theorem mask_eq_zero_iff (h : t.Masked) : t.mask = 0#32 ↔ t = identity := by
  constructor
  · intro hzero
    have hentry : ∀ i j, t.entry i j = unit i j := by
      intro i j
      refine Decidable.byContradiction fun hne => ?_
      have hbit := (h.getLsbD_entry i j).mpr hne
      rw [hzero, BitVec.getLsbD_zero] at hbit
      cases hbit
    have hrows : t.rows = Quad.ofFn unitRow := by
      refine Quad.ext_get fun i => AffineRow.ext_entry fun j => ?_
      rw [Quad.get_ofFn, unitRow, AffineRow.entry_ofFn]
      exact hentry i j
    cases t
    exact Affine.mk.injEq .. ▸ ⟨hrows, hzero⟩
  · rintro rfl
    rfl

end Masked

/-! ## 2. Changes -/

/-- A step in the history of a transform. -/
inductive Change where
  | andThen (u : Affine)
  | after (u : Affine)
  | withUnitRow (i : Nat)
  | withUnitCol (j : Nat)
  | withMask

/-- The transform after a change. Other transforms may come with any mask. -/
def Change.apply (t : Affine) : Change → Checked Affine
  | andThen u => .ok (t.andThen u)
  | after u => .ok (u.andThen t)
  | withUnitRow i => t.withUnitRowAt i
  | withUnitCol j => t.withUnitColAt j
  | withMask => .ok t.withMask

/-- The row or the column is one of the matrix; the offsets are a column too. -/
def Change.inRange : Change → Bool
  | withUnitRow i => i < 4
  | withUnitCol j => j < 5
  | _ => true

/-- The transform after a history. It breaks off at the first change that faults. -/
def changed (t : Affine) (changes : List Change) : Checked Affine := changes.foldlM Change.apply t

namespace Masked

/-- **One change** keeps the mask in step. -/
theorem apply {c : Change} (ht : t.Masked) (hc : c.inRange = true) :
    ∃ u, c.apply t = .ok u ∧ u.Masked := by
  cases c with
  | andThen | after | withMask => exact ⟨_, rfl, masked_ofRows _⟩
  | withUnitRow i =>
    refine ⟨_, dif_pos (of_decide_eq_true hc), ?_⟩
    rw [Masked, maskOf_withUnitRow, ← ht]
    rfl
  | withUnitCol j =>
    refine ⟨_, dif_pos (of_decide_eq_true hc), ?_⟩
    rw [Masked, maskOf_withUnitCol, ← ht]
    rfl

/-- **A history** keeps the mask in step. -/
theorem changed {changes : List Change} (ht : t.Masked)
    (hrange : ∀ c ∈ changes, c.inRange = true) :
    ∃ u, t.changed changes = .ok u ∧ u.Masked := by
  induction changes generalizing t with
  | nil => exact ⟨t, rfl, ht⟩
  | cons c changes ih =>
    obtain ⟨hc, hrest⟩ := List.forall_mem_cons.mp hrange
    obtain ⟨u, hu, hmasked⟩ := ht.apply hc
    rw [Affine.changed, List.foldlM_cons, hu]
    exact ih hmasked hrest

end Masked

end Affine

/-! ## 3. The rule for identities -/

section Identities

variable {s : Site} {t : Affine} (hk : s.op.kind = .affine t)

include hk

/-- No rule that is tried before the one for identities looks at a transform. -/
theorem Rule.apply_before_affineIdentity {rule : Rule}
    (hrule : rule ∈ Rule.order.takeWhile (· != .affineIdentity)) : rule.apply s = .ok none := by
  cases happly : rule.apply s with
  | error f =>
    cases Rule.apply_eq_error happly with
    | read hl => rw [hk] at hl; cases hl
    | fold hl => rw [hk] at hl; cases hl
  | ok answer =>
    cases answer with
    | none => rfl
    | some ops =>
      have hpair : rule ≠ .affinePair := by
        rintro rfl
        exact absurd hrule (by decide)
      rcases (Rule.rewrites happly).of_affine hk hpair with ⟨rfl, -⟩ | ⟨rfl, -⟩ | ⟨rfl, -⟩ |
        ⟨rfl, -⟩ | ⟨rfl, -⟩
      all_goals exact absurd hrule (by decide)

/-- **The rule for identities** is the one that fires at a transform exactly if its mask is
empty. -/
theorem Site.first_affineIdentity_iff :
    s.first Rule.order = .ok (some (.affineIdentity, s.after)) ↔ t.mask = 0#32 := by
  have happly : Rule.affineIdentity.apply s =
      .ok (if t.mask = 0#32 then some s.after else none) := by
    rw [Rule.apply, Site.affineIdentity, hk]
  constructor
  · intro h
    obtain ⟨-, -, -, hrule, -⟩ := Site.first_eq_some h
    refine Decidable.byContradiction fun hm => ?_
    rw [happly, if_neg hm] at hrule
    cases hrule
  · intro hm
    rw [if_pos hm] at happly
    have horder : Rule.order = Rule.order.takeWhile (· != .affineIdentity) ++
        .affineIdentity :: (Rule.order.dropWhile (· != .affineIdentity)).tail := by decide
    rw [horder]
    exact Site.first_of_fires happly fun r hr => Rule.apply_before_affineIdentity hk hr

end Identities

/-! ## 4. Histories -/

namespace Affine

/-- **The mask is always the set of entries that differ from the identity.** Whatever matrix a
transform starts from, and whatever history of compositions, resets and new masks it goes through,
no change faults, the mask has the bits of these entries and no others, it is empty exactly for the
identity, and the identity is what its rule removes from a program. -/
theorem mask_of_changed (rows : Quad AffineRow) {changes : List Change}
    (hrange : ∀ c ∈ changes, c.inRange = true) :
    ∃ t, (ofRows rows).changed changes = .ok t ∧
      (∀ (i : Fin 4) (j : Fin 5),
        t.mask.getLsbD (5 * i.val + j.val) = true ↔ t.entry i j ≠ unit i j) ∧
      (∀ k, 20 ≤ k → t.mask.getLsbD k = false) ∧
      (t.mask = 0#32 ↔ t = identity) ∧
      ∀ s : Site, s.op.kind = .affine t →
        (s.first Rule.order = .ok (some (.affineIdentity, s.after)) ↔ t = identity) := by
  obtain ⟨t, ht, hmasked⟩ := (masked_ofRows rows).changed hrange
  refine ⟨t, ht, hmasked.getLsbD_entry, fun k hk => hmasked.getLsbD_beyond hk,
    hmasked.mask_eq_zero_iff, fun s hs => ?_⟩
  rw [Site.first_affineIdentity_iff hs, hmasked.mask_eq_zero_iff]

/-- A matrix with an undefined weight, a constant row and offsets. -/
def uneven : Quad AffineRow :=
  ⟨⟨⟨⟨2, 1⟩, .undefined, ⟨0, 1⟩, ⟨0, 1⟩⟩, ⟨1, 2⟩⟩, unitRow 1,
    ⟨⟨⟨0, 1⟩, ⟨0, 1⟩, ⟨0, 1⟩, ⟨0, 1⟩⟩, ⟨3, 1⟩⟩, ⟨⟨⟨0, 1⟩, ⟨0, 1⟩, ⟨0, 1⟩, ⟨1, 1⟩⟩, ⟨-1, 3⟩⟩⟩

/-- The products spread the undefined weight, first over its column and then over two rows. -/
def spread : List Change :=
  [.withUnitCol 4, .andThen identity, .withUnitRow 0, .after identity, .withUnitRow 2, .withMask]

/-- Two rows are left in the mask, and when they are reset the transform is removed. -/
theorem spread_mask :
    (∃ t, (ofRows uneven).changed spread = .ok t ∧ t.mask = EntryMask.row 1 ||| EntryMask.row 3 ∧
      t.entry 3 0 ≠ unit 3 0 ∧ t.entry 0 1 = unit 0 1) ∧
    ∃ t, (ofRows uneven).changed (spread ++ [.withUnitRow 1, .withUnitRow 3]) = .ok t ∧
      t = identity ∧ (Site.mk none (.ofKind .f32 (.affine t)) []).first Rule.order =
        .ok (some (.affineIdentity, [])) := by
  constructor
  · obtain ⟨t, ht, hentry, -⟩ := @mask_of_changed uneven spread (by decide)
    have hrun : ((ofRows uneven).changed spread).toOption.map Affine.mask =
        some (EntryMask.row 1 ||| EntryMask.row 3) := by decide +kernel
    rw [ht] at hrun
    have hmask : t.mask = EntryMask.row 1 ||| EntryMask.row 3 := Option.some.inj hrun
    refine ⟨t, ht, hmask, (hentry 3 0).mp (by rw [hmask]; decide), ?_⟩
    refine Decidable.byContradiction fun hne => ?_
    have hbit := (hentry 0 1).mpr hne
    rw [hmask] at hbit
    exact absurd hbit (by decide)
  · obtain ⟨t, ht, -, -, hzero, hrule⟩ :=
      @mask_of_changed uneven (spread ++ [.withUnitRow 1, .withUnitRow 3]) (by decide)
    have hrun : ((ofRows uneven).changed (spread ++ [.withUnitRow 1, .withUnitRow 3])).toOption.map
        Affine.mask = some 0#32 := by decide +kernel
    rw [ht] at hrun
    have hidentity : t = identity := hzero.mp (Option.some.inj hrun)
    exact ⟨t, ht, hidentity, (hrule _ rfl).mpr hidentity⟩

end Affine

end PixelConv
