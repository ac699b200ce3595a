import PixelConv.Proofs.Analysis
import PixelConv.Proofs.Fields
import PixelConv.Proofs.Matrices
import PixelConv.Proofs.Rewrites

/-!
# Demand

What operations read of what comes before them, and which of their outputs are ever defined. Main
statement: a rule of the simplifier exchanges operations for others that read no more, and reads no
component after one of them that it never defines (`Rewrites.eases`).
-/

namespace PixelConv

/-! ## 1. Outputs -/

/-- The operation works on bit fields. -/
def Verb.hasFields : Verb → Bool
  | unpack | pack => true
  | _ => false

theorem Verb.hasFields_of_isComponentwise {v : Verb} (h : v.isComponentwise = true) :
    v.hasFields = false := by
  cases v <;> first | rfl | cases h

/-- The operation defines the output if what it reads is defined. Components without a field and
those that were packed into the first one are never defined. -/
def Op.Fills (op : Op) (i : Fin 4) : Prop :=
  match op.kind with
  | .unpack widths => i.val < BitField.count widths
  | .pack _ => i = 0
  | _ => True

theorem Op.fills_of_verb {op : Op} (h : op.verb.hasFields = false) (i : Fin 4) : op.Fills i := by
  obtain ⟨elem, kind, info⟩ := op
  cases kind with
  | unpack | pack => cases h
  | _ => exact True.intro

/-- Every component that is read after an operation is one of its outputs. -/
def Filled : List Op → Prop
  | [] => True
  | op :: rest => (∀ i, needed rest i = true → op.Fills i) ∧ Filled rest

theorem Op.Fills.congr {a b : Op} (h : a.code = b.code) {i : Fin 4} (ha : a.Fills i) : b.Fills i :=
  Op.of_code (P := fun op => op.Fills i) (fun _ h => h) h ha

theorem Filled.congr : ∀ {l r : List Op}, codes l = codes r → Filled l → Filled r
  | [], [], _, h => h
  | [], _ :: _, hc, _ => by simp at hc
  | _ :: _, [], hc, _ => by simp at hc
  | a :: l, b :: r, hc, h => by
    rw [codes_cons, codes_cons] at hc
    obtain ⟨hab, hlr⟩ := List.cons.inj hc
    refine ⟨fun i hi => (h.1 i ?_).congr hab, Filled.congr hlr h.2⟩
    rwa [needed_congr hlr]

/-! ## 2. Exchanging operations -/

/-- In place of operations of which only outputs are read, the new ones read no more, and only
outputs of them are read. -/
def Eases (old new : List Op) : Prop :=
  Filled old → Filled new ∧ ∀ i, needed new i = true → needed old i = true

theorem Filled.drop {olds rest : List Op} (h : Filled (olds ++ rest)) : Filled rest := by
  induction olds with
  | nil => exact h
  | cons op olds ih => exact ih h.2

theorem Filled.append {news rest : List Op} (hnews : ∀ op ∈ news, ∀ i, op.Fills i)
    (h : Filled rest) : Filled (news ++ rest) := by
  induction news with
  | nil => exact h
  | cons op news ih =>
    obtain ⟨hop, hnews⟩ := List.forall_mem_cons.mp hnews
    exact ⟨fun i _ => hop i, ih hnews⟩

namespace Eases

variable {old new : List Op}

/-- What comes before a place stays as it is. -/
theorem append (h : Eases old new) (pre : List Op) : Eases (pre ++ old) (pre ++ new) := by
  induction pre with
  | nil => exact h
  | cons op pre ih =>
    intro hfilled
    obtain ⟨hnew, hneeds⟩ := ih hfilled.2
    exact ⟨⟨fun i hi => hfilled.1 i (hneeds i hi), hnew⟩, fun i hi => Op.needs_mono hneeds hi⟩

/-- Operations that define all of their outputs. -/
theorem of_needs (olds news rest : List Op) (hnews : ∀ op ∈ news, ∀ i, op.Fills i)
    (h : ∀ i, needed (news ++ rest) i = true → needed (olds ++ rest) i = true) :
    Eases (olds ++ rest) (news ++ rest) :=
  fun hfilled => ⟨hfilled.drop.append hnews, h⟩

/-- Operations on each component alone read what is read of them. -/
theorem of_componentwise (olds news rest : List Op)
    (holds : ∀ op ∈ olds, op.verb.isComponentwise = true)
    (hnews : ∀ op ∈ news, op.verb.isComponentwise = true) :
    Eases (olds ++ rest) (news ++ rest) := by
  refine of_needs olds news rest
    (fun op hop => Op.fills_of_verb (Verb.hasFields_of_isComponentwise (hnews op hop))) fun i hi => ?_
  rw [needed_componentwise holds]
  rwa [needed_componentwise hnews] at hi

end Eases

/-! ## 3. Proper operations -/

/-- The fields of a pattern come first and there is one, and transforms are regular. -/
structure Op.Proper (op : Op) : Prop where
  fields : ∀ widths, op.kind = .unpack widths ∨ op.kind = .pack widths →
    0 < widths 0 ∧ BitField.Leading widths
  transform : ∀ t, op.kind = .affine t → t.Regular

namespace Op.Proper

variable {op : Op}

theorem congr {a b : Op} (h : a.code = b.code) (ha : a.Proper) : b.Proper :=
  of_code (fun _ h => ⟨h.fields, h.transform⟩) h ha

theorem of_verb (hfields : op.verb.hasFields = false) (haffine : (op.verb == .affine) = false) :
    op.Proper := by
  obtain ⟨elem, kind, info⟩ := op
  refine ⟨fun widths h => ?_, fun t h => ?_⟩
  · rcases h with h | h
    · cases h
      cases hfields
    · cases h
      cases hfields
  · cases h
    cases haffine

theorem of_componentwise (h : op.verb.isComponentwise = true) : op.Proper := by
  refine of_verb (Verb.hasFields_of_isComponentwise h) ?_
  cases hv : op.verb == .affine with
  | false => rfl
  | true =>
    rw [beq_iff_eq.mp hv] at h
    cases h

theorem of_unpack {widths : Quad Nat} (hk : op.kind = .unpack widths) (hpos : 0 < widths 0)
    (hleading : BitField.Leading widths) : op.Proper := by
  refine ⟨fun later h => ?_, fun t h => ?_⟩
  · rw [hk] at h
    rcases h with h | h
    · obtain rfl := Kind.unpack.inj h
      exact ⟨hpos, hleading⟩
    · cases h
  · rw [hk] at h
    cases h

theorem of_affine {t : Affine} (hk : op.kind = .affine t) (ht : t.Regular) : op.Proper := by
  refine ⟨fun widths h => ?_, fun u h => ?_⟩
  · rw [hk] at h
    rcases h with h | h <;> cases h
  · rw [hk] at h
    cases h
    exact ht

end Op.Proper

/-! ## 4. Rules -/

/-- What a rule sees of an analysed program is what later operations read. -/
structure Site.Surveyed (s : Site) : Prop where
  unused : ∀ i, s.op.info.unused i = !needed s.after i
  zero : ∀ i, (s.input.known i).zero = true → needed (s.op :: s.after) i = true

namespace Site.Surveyed

variable {s : Site}

theorem used_of_needed (h : s.Surveyed) {i : Fin 4} (hi : needed s.after i = true) :
    s.op.info.unused i = false := by
  rw [h.unused, hi]
  rfl

theorem needed_of_null (h : s.Surveyed) {j : Fin 4} (hj : s.nullInputs j = true) :
    needed (s.op :: s.after) j = true := by
  rw [Site.nullInputs, Quad.get_map] at hj
  exact h.zero j hj

/-- A constant is given up only if nothing reads it. -/
theorem pruned_eq (h : s.Surveyed) {values : Constants} (hk : s.op.kind = .clear values) {i : Fin 4}
    (hi : needed s.after i = true) :
    (values.pruned s.op.info.unused s.input.known) i = values i := by
  simp only [Constants.pruned, Quad.get_ofFn, h.used_of_needed hi, Bool.false_or]
  cases hv : values i with
  | none => rfl
  | some q =>
    -- what a constant replaces is not read, so it is not known to be zero
    have hzero : (s.input.known i).zero = false := by
      cases hz : (s.input.known i).zero with
      | false => rfl
      | true =>
        have := ((Op.needs_clear hk _ i).mp (h.zero i hz)).2
        rw [hv] at this
        cases this
    simp only [hzero, Bool.and_false, Bool.false_eq_true, if_false]

end Site.Surveyed

namespace Eases

variable {s : Site} {next : Op} {rest : List Op}

/-- Constants of which none is read go away. -/
theorem clearNoop (h : s.Surveyed) {values : Constants} (hk : s.op.kind = .clear values)
    (hp : (values.pruned s.op.info.unused s.input.known).all Option.isNone = true) :
    Eases (s.op :: s.after) s.after := by
  refine of_needs [s.op] [] s.after (fun _ h => absurd h List.not_mem_nil) fun i hi => ?_
  refine (Op.needs_clear hk _ i).mpr ⟨hi, ?_⟩
  rw [← h.pruned_eq hk hi]
  exact Option.isNone_iff_eq_none.mp (Quad.get_of_all hp i)

theorem clearUnused (h : s.Surveyed) {values : Constants} (hk : s.op.kind = .clear values) :
    Eases (s.op :: s.after)
      (s.become (.clear (values.pruned s.op.info.unused s.input.known)) s.after) := by
  refine of_needs [s.op] [{ s.op with kind := .clear _ }] s.after
    (List.forall_mem_singleton.mpr fun _ => True.intro) fun i hi => ?_
  obtain ⟨hi, hnone⟩ := (Op.needs_clear rfl _ i).mp hi
  rw [h.pruned_eq hk hi] at hnone
  exact (Op.needs_clear hk _ i).mpr ⟨hi, hnone⟩

/-- Planes after the last one that is read need not be loaded. -/
theorem readUnusedPlanes (h : s.Surveyed) {l : Layout} {used : Nat} (hk : s.op.kind = .read l)
    (hu : Site.usedPlanes s.op.info.unused l.count = .ok used) :
    Eases (s.op :: s.after) (s.become (.read { l with count := used }) s.after) := by
  refine of_needs [s.op] [{ s.op with kind := .read _ }] s.after
    (List.forall_mem_singleton.mpr fun _ => True.intro) fun i hi => ?_
  rw [List.singleton_append, needed_cons, Op.needs] at hi ⊢
  simp only [hk, Quad.get_ofFn, Bool.and_eq_true, decide_eq_true_eq] at hi ⊢
  refine ⟨Nat.le_of_not_lt fun hlt => ?_, hi.2⟩
  have := (Site.usedPlanes_eq_ok hu).2 i hlt (h.used_of_needed hi.2)
  omega

/-- Packing what was unpacked the same way: only the first component is read of it, and the pattern
has a field that is made from it. -/
theorem unpackPack {widths : Quad Nat} (hk : s.op.kind = .unpack widths)
    (ha : s.after = next :: rest) (hn : next.kind = .pack widths) (hpos : 0 < widths 0)
    (hlead : BitField.Leading widths) : Eases (s.op :: s.after) rest := by
  rw [ha]
  rintro ⟨-, hpack, hrest⟩
  refine ⟨hrest, fun i hi => ?_⟩
  have hfirst := hpack i hi
  rw [Op.Fills, hn] at hfirst
  obtain rfl : i = 0 := hfirst
  have hcount : (0 : Fin 4).val < BitField.count widths := BitField.lt_count_of_pos hlead hpos
  have hfield : (next.needs (needed rest)) 0 = true := by
    simp only [Op.needs, hn, Quad.get_ofFn, Bool.and_eq_true]
    exact ⟨decide_eq_true hcount, hi⟩
  rw [needed_cons, needed_cons, Op.needs, hk]
  exact Quad.any_take.mpr ⟨0, hcount, hfield⟩

/-- Constants move past a swizzle. -/
theorem clearSwizzle {values : Constants} {w : Swizzle} (hk : s.op.kind = .clear values)
    (ha : s.after = next :: rest) (hn : next.kind = .swizzle w) :
    Eases (s.op :: s.after) (next :: Op.ofKind next.target (.clear (w.apply values)) :: rest) := by
  rw [ha]
  refine of_needs [s.op, next] [next, Op.ofKind next.target (.clear _)] rest
    (List.forall_mem_cons.mpr ⟨Op.fills_of_verb (by rw [Op.verb, hn]; rfl),
      List.forall_mem_singleton.mpr fun _ => True.intro⟩) fun j hj => ?_
  simp only [List.cons_append, List.nil_append, needed_cons] at hj ⊢
  obtain ⟨i, hsource, hi⟩ := (Op.needs_swizzle hn _ j).mp hj
  obtain ⟨hi, hnone⟩ := (Op.needs_clear rfl _ i).mp hi
  rw [Swizzle.get_apply, hsource] at hnone
  exact (Op.needs_clear hk _ j).mpr ⟨(Op.needs_swizzle hn _ j).mpr ⟨i, hsource, hi⟩, hnone⟩

/-- Constants move past an operation on each component alone. -/
theorem clearFold {values moved : Constants} (hk : s.op.kind = .clear values)
    (ha : s.after = next :: rest) (hv : next.verb.passesConstants = true)
    (hf : next.foldConsts? values = .ok (some moved)) :
    Eases (s.op :: s.after) (next :: Op.ofKind next.target (.clear moved) :: rest) := by
  have hcw := Verb.isComponentwise_of_passesConstants hv
  rw [ha]
  refine of_needs [s.op, next] [next, Op.ofKind next.target (.clear _)] rest
    (List.forall_mem_cons.mpr ⟨Op.fills_of_verb (Verb.hasFields_of_isComponentwise hcw),
      List.forall_mem_singleton.mpr fun _ => True.intro⟩) fun i hi => ?_
  simp only [List.cons_append, List.nil_append, needed_cons] at hi ⊢
  rw [Op.needs_componentwise hcw] at hi ⊢
  obtain ⟨hi, hnone⟩ := (Op.needs_clear rfl _ i).mp hi
  refine (Op.needs_clear hk _ i).mpr ⟨hi, ?_⟩
  rcases Op.foldConsts?_eq_some hf i with ⟨hvi, -⟩ | ⟨q, -, -, hmoved, -⟩
  · exact hvi
  · rw [hmoved] at hnone
    cases hnone

/-- Of two constants in a row the later one counts. -/
theorem clearPair {values later : Constants} (hk : s.op.kind = .clear values)
    (ha : s.after = next :: rest) (hn : next.kind = .clear later) :
    Eases (s.op :: s.after)
      (s.become (.clear (Quad.zipWith (fun l v => l <|> v) later values)) rest) := by
  rw [ha]
  refine of_needs [s.op, next] [{ s.op with kind := .clear _ }] rest
    (List.forall_mem_singleton.mpr fun _ => True.intro) fun i hi => ?_
  obtain ⟨hi, hnone⟩ := (Op.needs_clear rfl _ i).mp hi
  rw [Quad.get_zipWith] at hnone
  have hboth : later i = none ∧ values i = none := by
    cases hl : later i with
    | none =>
      rw [hl] at hnone
      exact ⟨rfl, hnone⟩
    | some q =>
      rw [hl] at hnone
      cases hnone
  exact (Op.needs_clear hk _ i).mpr ⟨(Op.needs_clear hn _ i).mpr ⟨hi, hboth.1⟩, hboth.2⟩

/-- A swizzle that moves nothing that is read. -/
theorem swizzleIdentity (h : s.Surveyed) {w : Swizzle} (hk : s.op.kind = .swizzle w)
    (hw : ∀ i, s.op.info.unused i = true ∨ w.order i = i.val) : Eases (s.op :: s.after) s.after := by
  refine of_needs [s.op] [] s.after (fun _ h => absurd h List.not_mem_nil) fun i hi => ?_
  refine (Op.needs_swizzle hk _ i).mpr ⟨i, ?_, hi⟩
  rcases hw i with hu | ho
  · rw [h.used_of_needed hi] at hu
    cases hu
  · rw [Swizzle.source, ho]
    exact Fin.ofNat_val_eq_self i

theorem swizzlePair {w later : Swizzle} (hk : s.op.kind = .swizzle w)
    (ha : s.after = next :: rest) (hn : next.kind = .swizzle later) :
    Eases (s.op :: s.after) (s.become (.swizzle (w.andThen later)) rest) := by
  rw [ha]
  refine of_needs [s.op, next] [{ s.op with kind := .swizzle _ }] rest
    (List.forall_mem_singleton.mpr fun _ => True.intro) fun j hj => ?_
  obtain ⟨i, hsource, hi⟩ := (Op.needs_swizzle rfl _ j).mp hj
  rw [Swizzle.source_andThen] at hsource
  exact (Op.needs_swizzle hk _ j).mpr
    ⟨later.source i, hsource, (Op.needs_swizzle hn _ _).mpr ⟨i, rfl, hi⟩⟩

theorem swizzleCommute {w : Swizzle} {moved : Op} (hk : s.op.kind = .swizzle w)
    (ha : s.after = next :: rest) (hn : next.verb.isComponentwise = true)
    (hm : s.movedBefore? w next = some moved) :
    Eases (s.op :: s.after) (moved :: Op.ofKind next.target (.swizzle w) :: rest) := by
  have hcw : moved.verb.isComponentwise = true := by
    rw [(Site.movedBefore?_verb hm).1]
    exact hn
  rw [ha]
  refine of_needs [s.op, next] [moved, Op.ofKind next.target (.swizzle w)] rest
    (List.forall_mem_cons.mpr ⟨Op.fills_of_verb (Verb.hasFields_of_isComponentwise hcw),
      List.forall_mem_singleton.mpr fun _ => True.intro⟩) fun j hj => ?_
  simp only [List.cons_append, List.nil_append, needed_cons] at hj ⊢
  rw [Op.needs_componentwise hcw] at hj
  rw [Op.needs_componentwise hn]
  exact (Op.needs_swizzle hk _ j).mpr ((Op.needs_swizzle rfl _ j).mp hj)

/-! ### Transforms -/

theorem affineIdentity {t : Affine} (hk : s.op.kind = .affine t) (ht : t.Regular)
    (hm : t.mask = 0#32) : Eases (s.op :: s.after) s.after := by
  refine of_needs [s.op] [] s.after (fun _ h => absurd h List.not_mem_nil) fun i hi => ?_
  refine (Op.needs_affine hk _ i).mpr ⟨i, hi, ?_⟩
  rw [ht.weight_of_mask hm, if_pos rfl]
  rfl

theorem affinePair {t later : Affine} (hk : s.op.kind = .affine t) (ha : s.after = next :: rest)
    (hn : next.kind = .affine later) (ht : t.Regular) (hlater : later.Regular) :
    Eases (s.op :: s.after) (s.become (.affine (t.andThen later)) rest) := by
  rw [ha]
  refine of_needs [s.op, next] [{ s.op with kind := .affine _ }] rest
    (List.forall_mem_singleton.mpr fun _ => True.intro) fun j hj => ?_
  obtain ⟨i, hi, hweight⟩ := (Op.needs_affine rfl _ j).mp hj
  obtain ⟨k, hik, hkj⟩ := Affine.exists_path ht hlater hweight
  exact (Op.needs_affine hk _ j).mpr ⟨k, (Op.needs_affine hn _ k).mpr ⟨i, hi, hik⟩, hkj⟩

/-- Only columns of inputs that are known to be zero are reset for a row that is read, and those
inputs are read as they are. -/
theorem affineResetUnused (h : s.Surveyed) {t : Affine} (hk : s.op.kind = .affine t) :
    Eases (s.op :: s.after)
      (s.become (.affine (t.restricted s.nullInputs s.op.info.unused)) s.after) := by
  refine of_needs [s.op] [{ s.op with kind := .affine _ }] s.after
    (List.forall_mem_singleton.mpr fun _ => True.intro) fun j hj => ?_
  obtain ⟨i, hi, hweight⟩ := (Op.needs_affine rfl _ j).mp hj
  rcases (t.restricted_row s.nullInputs s.op.info.unused (h.used_of_needed hi)).2 j with
    hsame | ⟨hnull, -⟩
  · rw [hsame] at hweight
    exact (Op.needs_affine hk _ j).mpr ⟨i, hi, hweight⟩
  · exact h.needed_of_null hnull

/-- Constant rows are not read any more after they were split off. -/
theorem affineConstantRows {t remaining : Affine} {values : Constants} (hk : s.op.kind = .affine t)
    (hc : t.constantRows? s.nullInputs s.op.info.unused = some (remaining, values)) :
    Eases (s.op :: s.after)
      (s.become (.affine remaining) (Op.ofKind s.op.elem (.clear values) :: s.after)) := by
  refine of_needs [s.op] [{ s.op with kind := .affine remaining },
    Op.ofKind s.op.elem (.clear values)] s.after
    (List.forall_mem_cons.mpr ⟨fun _ => True.intro, List.forall_mem_singleton.mpr fun _ => True.intro⟩)
    fun j hj => ?_
  obtain ⟨i, hi, hweight⟩ := (Op.needs_affine rfl _ j).mp hj
  obtain ⟨hi, hnone⟩ := (Op.needs_clear rfl _ i).mp hi
  rw [(Affine.constantRows?_eq_some hc).2 i hnone] at hweight
  exact (Op.needs_affine hk _ j).mpr ⟨i, hi, hweight⟩

/-- A factor for every component takes each row that is read for its own input. Rows without any
input were split off before, unless their input is known to be zero. -/
theorem affineScalar (h : s.Surveyed) {t : Affine} {factor : Fraction} (hk : s.op.kind = .affine t)
    (ht : t.Regular) (hf : t.scalar? s.nullInputs s.op.info.unused = some factor)
    (hc : t.constantRows? s.nullInputs s.op.info.unused = none) :
    Eases (s.op :: s.after) (s.become (.scale factor) s.after) := by
  refine of_needs [s.op] [{ s.op with kind := .scale factor }] s.after
    (List.forall_mem_singleton.mpr fun _ => True.intro) fun i hi => ?_
  have hi : needed s.after i = true := hi
  have hused := h.used_of_needed hi
  cases hnull : s.nullInputs i with
  | true => exact h.needed_of_null hnull
  | false =>
    refine (Op.needs_affine hk _ i).mpr ⟨i, hi, Bool.eq_false_iff.mpr fun hzero => ?_⟩
    -- nothing contributes to the row, so it is a constant one
    have hconst := Affine.not_constant_of_constantRows? hc i
    obtain ⟨hsilent, hoffset⟩ := Affine.scalar?_diagonal hf hused
    have hmeets : EntryMask.meets t.mask (EntryMask.row i.val) = true := by
      refine Bool.not_eq_false _ ▸ fun hm => ?_
      rw [ht.mask] at hm
      have hunit := Affine.entry_of_not_meets hm i.castSucc
      rw [AffineRow.entry_castSucc] at hunit
      rw [hunit, Affine.unit, if_pos (Fin.val_castSucc i).symm] at hzero
      cases hzero
    have hall : ∀ j, Affine.silent (t.rows i) s.nullInputs j = true := by
      intro j
      by_cases hj : j = i
      · rw [hj, Affine.silent, hzero, Bool.true_or]
      · exact hsilent j hj
    have hwhole : (t.rows i).offset.isInteger = true := (ht.entries i 4).isInteger hoffset
    exact Bool.eq_false_iff.mp hconst
      (Affine.isConstantRow_iff.mpr ⟨⟨hused, hmeets⟩, hall, hwhole⟩)

theorem affineSwizzle (h : s.Surveyed) {t remaining : Affine} {w : Swizzle}
    (hk : s.op.kind = .affine t)
    (hw : t.swizzle? s.nullInputs s.op.info.unused = some (w, remaining)) :
    Eases (s.op :: s.after)
      (Op.ofKind s.op.elem (.swizzle w) :: s.become (.affine remaining) s.after) := by
  refine of_needs [s.op] [Op.ofKind s.op.elem (.swizzle w),
    { s.op with kind := .affine remaining }] s.after
    (List.forall_mem_cons.mpr ⟨fun _ => True.intro, List.forall_mem_singleton.mpr fun _ => True.intro⟩)
    fun j hj => ?_
  obtain ⟨k, hsource, hneeds⟩ := (Op.needs_swizzle rfl _ j).mp hj
  obtain ⟨i, hi, hweight⟩ := (Op.needs_affine rfl _ k).mp hneeds
  obtain ⟨rfl, hweight⟩ := (Affine.swizzle?_eq_some hw).2 i (h.used_of_needed hi) k hweight
  rw [hsource] at hweight
  exact (Op.needs_affine hk _ j).mpr ⟨k, hi, hweight⟩

end Eases

namespace Rewrites

variable {s : Site} {rule : Rule} {ops : List Op}

/-- **Rules ease what comes before a place**, with the exception of a plain copy, which leaves nothing
to be read. -/
theorem eases (h : Rewrites s rule ops) (hs : s.Surveyed)
    (hproper : ∀ op ∈ s.op :: s.after, op.Proper) (hcopy : rule ≠ .plainCopy)
    (hscalar : rule = .affineScalar → s.affineConstantRows = none) :
    Eases (s.op :: s.after) ops := by
  have hop := hproper s.op List.mem_cons_self
  have hnil : ∀ op ∈ ([] : List Op), op.verb.isComponentwise = true := fun _ h =>
    absurd h List.not_mem_nil
  have one : ∀ {a : Op}, a.verb.isComponentwise = true →
      ∀ op ∈ [a], op.verb.isComponentwise = true := fun ha => List.forall_mem_singleton.mpr ha
  have two : ∀ {a b : Op}, a.verb.isComponentwise = true → b.verb.isComponentwise = true →
      ∀ op ∈ [a, b], op.verb.isComponentwise = true := fun ha hb =>
    List.forall_mem_cons.mpr ⟨ha, one hb⟩
  have cw : ∀ {a : Op} {k : Kind}, a.kind = k → k.verb.isComponentwise = true →
      a.verb.isComponentwise = true := fun hk hv => by rw [Op.verb, hk]; exact hv
  have hdrop : s.op.verb.isComponentwise = true → Eases (s.op :: s.after) s.after := fun hv =>
    Eases.of_componentwise [s.op] [] s.after (one hv) hnil
  cases h with
  | plainCopy => exact absurd rfl hcopy
  | readSingleElement hk =>
    refine Eases.of_needs [s.op] [{ s.op with kind := .read _ }] s.after
      (List.forall_mem_singleton.mpr fun _ => True.intro) fun i hi => ?_
    rw [List.singleton_append, needed_cons, Op.needs, hk]
    exact hi
  | readUnusedPlanes hk _ hu => exact .readUnusedPlanes hs hk hu
  | writeSingleElement hk =>
    refine Eases.of_needs [s.op] [{ s.op with kind := .write _ }] s.after
      (List.forall_mem_singleton.mpr fun _ => True.intro) fun i hi => ?_
    rw [List.singleton_append, needed_cons, Op.needs, hk]
    exact hi
  | swapBytesNoop hk | convertNoop hk | ditherExact hk | scaleNoop hk | clampAbove hk
  | clampBelow hk => exact hdrop (cw hk rfl)
  | shiftNoop hk =>
    rcases hk with hk | hk
    · exact hdrop (cw hk rfl)
    · exact hdrop (cw hk rfl)
  | swapBytesPair hk ha _ hn =>
    rw [ha]
    exact Eases.of_componentwise [s.op, _] [] _ (two (cw hk rfl) (cw hn rfl)) hnil
  | shiftPairLeft hk ha _ hn | shiftPairRight hk ha _ hn | convertPair hk ha _ hn
  | convertExpand hk ha _ hn | scalePair hk ha _ hn =>
    rw [ha]
    exact Eases.of_componentwise [s.op, _] [{ s.op with kind := _ }] _
      (two (cw hk rfl) (cw hn rfl)) (one rfl)
  | scaleAfterConvert hk ha _ hn =>
    rw [ha]
    exact Eases.of_componentwise [s.op, _] [_, Op.ofKind _ (.scale _)] _
      (two (cw hk rfl) (cw hn rfl)) (two (cw hn rfl) rfl)
  | scaleShiftLeft hk | scaleShiftRight hk =>
    exact Eases.of_componentwise [s.op] [{ s.op with kind := _ }] _ (one (cw hk rfl)) (one rfl)
  | shiftPairOverflow ha =>
    rw [ha]
    refine Eases.of_needs [s.op, _] [Op.ofKind s.op.elem (.clear _)] _
      (List.forall_mem_singleton.mpr fun _ => True.intro) fun i hi => ?_
    have hnone := ((Op.needs_clear rfl _ i).mp hi).2
    rw [Quad.get_const] at hnone
    cases hnone
  | unpackPack hk ha _ hn =>
    obtain ⟨hpos, hlead⟩ := hop.fields _ (.inl hk)
    exact .unpackPack hk ha hn hpos hlead
  | clearNoop hk hp => exact .clearNoop hs hk hp
  | clearUnused hk => exact .clearUnused hs hk
  | clearPair hk ha hn => exact .clearPair hk ha hn
  | clearSwizzle hk ha hn => exact .clearSwizzle hk ha hn
  | clearFold hk ha hv hf => exact .clearFold hk ha hv hf
  | swizzleIdentity hk hw => exact .swizzleIdentity hs hk hw
  | swizzlePair hk ha hn => exact .swizzlePair hk ha hn
  | swizzleCommute hk ha hn hm => exact .swizzleCommute hk ha hn hm
  | affineIdentity hk hm => exact .affineIdentity hk (hop.transform _ hk) hm
  | affinePair hk ha _ hn =>
    have hnext := hproper _ (List.mem_cons_of_mem _ (by rw [ha]; exact List.mem_cons_self))
    exact .affinePair hk ha hn (hop.transform _ hk) (hnext.transform _ hn)
  | affineResetUnused hk => exact .affineResetUnused hs hk
  | affineConstantRows hk hc => exact .affineConstantRows hk hc
  | affineScalar hk hf =>
    refine .affineScalar hs hk (hop.transform _ hk) hf ?_
    have hnone := hscalar rfl
    rw [Site.affineConstantRows, hk] at hnone
    exact Option.map_eq_none_iff.mp hnone
  | affineSwizzle hk hw => exact .affineSwizzle hs hk hw

end Rewrites

end PixelConv
