import PixelConv.Proofs.AffineMask
import PixelConv.Proofs.Rewrites
import PixelConv.Proofs.Step

/-!
# Simplification ends

Every rule lowers a lexicographic measure of the program: the weight of its operations, then the
number of its scales, then the number of pairs in which an operation stands before one that it can
move past, then the number of its constants. `Lowered` lists the four ways in which that happens,
`Rewrites.lowered` says that every rule takes one of them, and `rank` turns the measure into one
number below `Program.budget`.
-/

namespace PixelConv

/-! ## 1. The measure -/

/-- The weight of a list of operations. -/
def weight (ops : List Op) : Nat := (ops.map Op.weight).sum

/-- The operation is a scale. -/
def Op.isScale (op : Op) : Bool := op.verb == .scale

/-- The number of scales. -/
def scales (ops : List Op) : Nat := ops.countP Op.isScale

/-- An operation of the first verb moves past one of the second toward the end of the program. -/
def Verb.movesPast : Verb → Verb → Bool
  | .clear, v => v == .swizzle || v.passesConstants
  | .swizzle, v => v.isComponentwise
  | .scale, v => v == .convert
  | _, _ => false

/-- The operation moves past the later one. -/
def Op.movesPast (op later : Op) : Bool := op.verb.movesPast later.verb

/-- The number of pairs in which an operation stands before one that it moves past. -/
def inversions : List Op → Nat
  | [] => 0
  | op :: rest => rest.countP op.movesPast + inversions rest

/-- The number of constants that an operation sets. -/
def Op.constants (op : Op) : Nat :=
  match op.kind with
  | .clear values => values.toList.countP Option.isSome
  | _ => 0

/-- The number of constants that a list of operations sets. -/
def constants (ops : List Op) : Nat := (ops.map Op.constants).sum

theorem Op.weight_pos (op : Op) : 0 < op.weight := by
  unfold Op.weight
  split <;> omega

theorem Op.constants_le (op : Op) : op.constants ≤ 4 := by
  unfold Op.constants
  split
  · exact List.countP_le_length
  · omega

theorem weight_append (l r : List Op) : weight (l ++ r) = weight l + weight r := by
  simp only [weight, List.map_append, List.sum_append]

theorem scales_append (l r : List Op) : scales (l ++ r) = scales l + scales r :=
  List.countP_append

theorem constants_append (l r : List Op) : constants (l ++ r) = constants l + constants r := by
  simp only [constants, List.map_append, List.sum_append]

theorem weight_cons (op : Op) (ops : List Op) : weight (op :: ops) = op.weight + weight ops := by
  simp only [weight, List.map_cons, List.sum_cons]

theorem constants_cons (op : Op) (ops : List Op) :
    constants (op :: ops) = op.constants + constants ops := by
  simp only [constants, List.map_cons, List.sum_cons]

theorem scales_cons (op : Op) (ops : List Op) :
    scales (op :: ops) = scales ops + if op.isScale then 1 else 0 :=
  List.countP_cons

theorem length_le_weight (ops : List Op) : ops.length ≤ weight ops := by
  induction ops with
  | nil => exact Nat.le_refl 0
  | cons op ops ih =>
    rw [weight_cons, List.length_cons]
    have := op.weight_pos
    omega

theorem scales_le (ops : List Op) : scales ops ≤ ops.length := List.countP_le_length

theorem constants_le (ops : List Op) : constants ops ≤ 4 * ops.length := by
  induction ops with
  | nil => exact Nat.le_refl 0
  | cons op ops ih =>
    rw [constants_cons, List.length_cons]
    have := op.constants_le
    omega

theorem inversions_le (ops : List Op) : inversions ops ≤ ops.length * ops.length := by
  induction ops with
  | nil => exact Nat.le_refl 0
  | cons op ops ih =>
    have hc : ops.countP op.movesPast ≤ ops.length := List.countP_le_length
    simp only [inversions, List.length_cons]
    have : (ops.length + 1) * (ops.length + 1) = ops.length * ops.length + 2 * ops.length + 1 := by
      rw [Nat.add_mul, Nat.mul_add]
      omega
    omega

/-- The pairs of two lists put together: those within each, and those between them. -/
theorem inversions_append (l r : List Op) :
    inversions (l ++ r) = inversions l + inversions r + (l.map fun op => r.countP op.movesPast).sum := by
  induction l with
  | nil => simp [inversions]
  | cons op l ih =>
    simp only [List.cons_append, inversions, List.countP_append, List.map_cons, List.sum_cons]
    omega

/-! ## 2. Four ways to get smaller -/

/-- How one list of operations is smaller than another. -/
inductive Lowered : List Op → List Op → Prop
  /-- The operations weigh less. -/
  | lighter {old new : List Op} (h : weight new < weight old) : Lowered old new
  /-- A scale became another operation. -/
  | fewerScales {op op' : Op} {rest : List Op} (hw : op'.weight = op.weight)
      (hs : op.isScale = true) (hs' : op'.isScale = false) : Lowered (op :: rest) (op' :: rest)
  /-- An operation moved past the next one. -/
  | swapped {a b a' b' : Op} {rest : List Op} (ha : a'.verb = a.verb) (hb : b'.verb = b.verb)
      (hwa : a'.weight = a.weight) (hwb : b'.weight = b.weight) (h : a.movesPast b = true)
      (h' : b.movesPast a = false) : Lowered (a :: b :: rest) (b' :: a' :: rest)
  /-- An operation sets fewer constants. -/
  | fewerConstants {op op' : Op} {rest : List Op} (hv : op'.verb = op.verb)
      (hw : op'.weight = op.weight) (h : op'.constants < op.constants) :
      Lowered (op :: rest) (op' :: rest)

/-- The measure as one number, for programs of weight at most `n`. -/
def rank (n : Nat) (ops : List Op) : Nat :=
  ((weight ops * (n + 1) + scales ops) * (n * n + 1) + inversions ops) * (4 * n + 1) + constants ops

/-- One digit of a mixed-radix number decides when the digits above it are equal. -/
theorem digit_lt {a b c d m : Nat} (hab : a < b) (hc : c < m) : a * m + c < b * m + d := by
  have h : (a + 1) * m ≤ b * m := Nat.mul_le_mul_right m hab
  rw [Nat.add_mul] at h
  omega

/-- Each count stays below its radix. -/
theorem digits_lt {n : Nat} {ops : List Op} (h : weight ops ≤ n) :
    scales ops < n + 1 ∧ inversions ops < n * n + 1 ∧ constants ops < 4 * n + 1 := by
  have hlen : ops.length ≤ n := Nat.le_trans (length_le_weight ops) h
  have hs := scales_le ops
  have hi := Nat.le_trans (inversions_le ops) (Nat.mul_le_mul hlen hlen)
  have hc := constants_le ops
  exact ⟨by omega, by omega, by omega⟩

theorem rank_lt_of_weight {n : Nat} {l r : List Op} (hr : weight r ≤ n) (h : weight l < weight r) :
    rank n l < rank n r := by
  obtain ⟨hs, hi, hc⟩ := digits_lt (Nat.le_trans (Nat.le_of_lt h) hr)
  exact digit_lt (digit_lt (digit_lt h hs) hi) hc

theorem rank_lt_of_scales {n : Nat} {l r : List Op} (hr : weight r ≤ n) (hw : weight l = weight r)
    (h : scales l < scales r) : rank n l < rank n r := by
  obtain ⟨-, hi, hc⟩ := digits_lt (Nat.le_trans (Nat.le_of_eq hw) hr)
  have hd : weight l * (n + 1) + scales l < weight r * (n + 1) + scales r := by
    rw [hw]
    omega
  exact digit_lt (digit_lt hd hi) hc

theorem rank_lt_of_inversions {n : Nat} {l r : List Op} (hr : weight r ≤ n)
    (hw : weight l = weight r) (hs : scales l = scales r) (h : inversions l < inversions r) :
    rank n l < rank n r := by
  obtain ⟨-, -, hc⟩ := digits_lt (Nat.le_trans (Nat.le_of_eq hw) hr)
  unfold rank
  rw [hw, hs]
  exact digit_lt (Nat.add_lt_add_left h _) hc

theorem rank_lt_of_constants {n : Nat} {l r : List Op} (hw : weight l = weight r)
    (hs : scales l = scales r) (hi : inversions l = inversions r) (h : constants l < constants r) :
    rank n l < rank n r := by
  unfold rank
  rw [hw, hs, hi]
  exact Nat.add_lt_add_left h _

theorem countP_movesPast_swap (op : Op) {a b a' b' : Op} (rest : List Op) (ha : a'.verb = a.verb)
    (hb : b'.verb = b.verb) :
    (b' :: a' :: rest).countP op.movesPast = (a :: b :: rest).countP op.movesPast := by
  have ha' : op.movesPast a' = op.movesPast a := by simp only [Op.movesPast, ha]
  have hb' : op.movesPast b' = op.movesPast b := by simp only [Op.movesPast, hb]
  rw [List.countP_cons, List.countP_cons, List.countP_cons, List.countP_cons, ha', hb']
  omega

theorem countP_movesPast_congr {l r : List Op} (op : Op)
    (h : l.map Op.verb = r.map Op.verb) : l.countP op.movesPast = r.countP op.movesPast := by
  have hl : ∀ ops : List Op, ops.countP op.movesPast = (ops.map Op.verb).countP op.verb.movesPast := by
    intro ops
    rw [List.countP_map]
    rfl
  rw [hl, hl, h]

theorem inversions_congr : ∀ {l r : List Op}, l.map Op.verb = r.map Op.verb →
    inversions l = inversions r
  | [], [], _ => rfl
  | [], _ :: _, h => by simp at h
  | _ :: _, [], h => by simp at h
  | a :: l, b :: r, h => by
    simp only [List.map_cons, List.cons.injEq] at h
    obtain ⟨hab, hlr⟩ := h
    have hm : a.movesPast = b.movesPast := by
      funext op
      simp only [Op.movesPast, hab]
    simp only [inversions]
    rw [inversions_congr hlr, hm, countP_movesPast_congr b hlr]

theorem scales_congr {l r : List Op} (h : l.map Op.verb = r.map Op.verb) : scales l = scales r := by
  have hs : ∀ ops : List Op, scales ops = (ops.map Op.verb).countP (· == .scale) := by
    intro ops
    rw [List.countP_map]
    rfl
  rw [hs, hs, h]

/-- **A smaller list in the place of another gives a program of lower rank.** -/
theorem Lowered.rank_lt {old new : List Op} (h : Lowered old new) (pre : List Op) {n : Nat}
    (hn : weight (pre ++ old) ≤ n) : rank n (pre ++ new) < rank n (pre ++ old) := by
  cases h with
  | lighter h =>
    refine rank_lt_of_weight hn ?_
    rw [weight_append, weight_append]
    omega
  | @fewerScales op op' rest hw hs hs' =>
    refine rank_lt_of_scales hn ?_ ?_
    · simp only [weight_append, weight_cons, hw]
    · simp only [scales_append, scales_cons, hs, hs']
      simp
  | @swapped a b a' b' rest ha hb hwa hwb h h' =>
    have hs : scales (pre ++ b' :: a' :: rest) = scales (pre ++ a :: b :: rest) := by
      have hperm : scales (b' :: a' :: rest) = scales (a :: b :: rest) := by
        have ha' : a'.isScale = a.isScale := by simp only [Op.isScale, ha]
        have hb' : b'.isScale = b.isScale := by simp only [Op.isScale, hb]
        rw [scales_cons, scales_cons, scales_cons, scales_cons, ha', hb']
        omega
      rw [scales_append, scales_append, hperm]
    refine rank_lt_of_inversions hn ?_ hs ?_
    · simp only [weight_append, weight_cons, hwa, hwb]
      omega
    · have hfront : (pre.map fun op => (b' :: a' :: rest).countP op.movesPast).sum =
          (pre.map fun op => (a :: b :: rest).countP op.movesPast).sum := by
        simp only [countP_movesPast_swap _ rest ha hb]
      have hback : inversions (b' :: a' :: rest) < inversions (a :: b :: rest) := by
        have ha' : a'.movesPast = a.movesPast := by funext op; simp only [Op.movesPast, ha]
        have hb' : b'.movesPast = b.movesPast := by funext op; simp only [Op.movesPast, hb]
        have hab : b.movesPast a' = false := by rw [← h']; simp only [Op.movesPast, ha]
        simp only [inversions, List.countP_cons, ha', hb', h, hab]
        simp
        omega
      rw [inversions_append, inversions_append, hfront]
      omega
  | @fewerConstants op op' rest hv hw h =>
    have hverbs : (pre ++ op' :: rest).map Op.verb = (pre ++ op :: rest).map Op.verb := by
      simp only [List.map_append, List.map_cons, hv]
    refine rank_lt_of_constants ?_ (scales_congr hverbs) (inversions_congr hverbs) ?_
    · simp only [weight_append, weight_cons, hw]
    · simp only [constants_append, constants_cons]
      omega

/-- A smaller list weighs no more. -/
theorem Lowered.weight_le {old new : List Op} (h : Lowered old new) : weight new ≤ weight old := by
  cases h with
  | lighter h => exact Nat.le_of_lt h
  | fewerScales hw => exact Nat.le_of_eq (by rw [weight_cons, weight_cons, hw])
  | swapped _ _ hwa hwb =>
    simp only [weight_cons, hwa, hwb]
    omega
  | fewerConstants _ hw => exact Nat.le_of_eq (by rw [weight_cons, weight_cons, hw])

/-! ## 3. Every rule takes one of them -/

namespace Lowered

/-- An operation goes away. -/
theorem drop (op : Op) (rest : List Op) : Lowered (op :: rest) rest := by
  refine .lighter ?_
  rw [weight_cons]
  have := op.weight_pos
  omega

/-- Two operations go away. -/
theorem drop_two (op next : Op) (rest : List Op) : Lowered (op :: next :: rest) rest := by
  refine .lighter ?_
  rw [weight_cons, weight_cons]
  have := op.weight_pos
  omega

/-- Two operations become one of the least weight. -/
theorem fuse {op next op' : Op} (rest : List Op) (h : op'.weight = 1) :
    Lowered (op :: next :: rest) (op' :: rest) := by
  refine .lighter ?_
  rw [weight_cons, weight_cons, weight_cons, h]
  have := op.weight_pos
  have := next.weight_pos
  omega

/-- One operation becomes a lighter one. -/
theorem lighten {op op' : Op} (rest : List Op) (h : op'.weight < op.weight) :
    Lowered (op :: rest) (op' :: rest) := by
  refine .lighter ?_
  rw [weight_cons, weight_cons]
  omega

end Lowered

theorem Op.weight_affine {op : Op} {t : Affine} (h : op.kind = .affine t) :
    op.weight = 1 + 2 * (64 + (EntryMask.card t.mask + if t.mixes then 24 else 0)) := by
  unfold Op.weight
  rw [h]

/-- A transform within another one, with a smaller mask, is lighter by at least two. -/
theorem Affine.Within.card_lt {t u : Affine} (h : Within t u) (hne : t.mask ≠ u.mask) :
    EntryMask.card t.mask + (if t.mixes then 24 else 0) <
      EntryMask.card u.mask + if u.mixes then 24 else 0 := by
  have hc := EntryMask.card_lt_of_ne h.mask hne
  cases ht : t.mixes with
  | false =>
    simp only [Bool.false_eq_true, if_false]
    omega
  | true =>
    rw [h.mixes ht]
    simp only [if_true]
    omega

/-- Constants that were taken out are fewer. -/
theorem Constants.countP_pruned_lt {values : Constants} {unused : Quad Bool} {known : Quad Known}
    (h : values.pruned unused known ≠ values) :
    (values.pruned unused known).toList.countP Option.isSome <
      values.toList.countP Option.isSome := by
  -- each component keeps its constant or loses it, and some component loses it
  have hstep : ∀ i, (values.pruned unused known) i = values i ∨
      (values.pruned unused known) i = none ∧ (values i).isSome = true := by
    intro i
    simp only [pruned, Quad.get_ofFn]
    split
    · rename_i hv
      exact .inl hv.symm
    · rename_i q hv
      split
      · exact .inr ⟨rfl, by rw [hv]; rfl⟩
      · exact .inl hv.symm
  generalize values.pruned unused known = new at h hstep
  obtain ⟨n0, n1, n2, n3⟩ := new
  obtain ⟨v0, v1, v2, v3⟩ := values
  have h0 := hstep 0
  have h1 := hstep 1
  have h2 := hstep 2
  have h3 := hstep 3
  simp only [Quad.get] at h0 h1 h2 h3
  simp only [Quad.toList, List.countP_cons, List.countP_nil]
  rcases h0 with rfl | ⟨rfl, h0⟩ <;> rcases h1 with rfl | ⟨rfl, h1⟩ <;>
    rcases h2 with rfl | ⟨rfl, h2⟩ <;> rcases h3 with rfl | ⟨rfl, h3⟩ <;>
    first
    | exact absurd rfl h
    | (simp only [*, Option.isSome_none, Bool.false_eq_true, if_false, if_true]; omega)

/-- Nothing moves past constants. -/
theorem Verb.not_movesPast_clear (v : Verb) : v.movesPast .clear = false := by
  cases v <;> rfl

theorem Verb.not_movesPast_swizzle {v : Verb} (h : v.isComponentwise = true) :
    v.movesPast .swizzle = false := by
  cases v <;> first | rfl | cases h

/-- **Every rule makes the operations smaller.** -/
theorem Rewrites.lowered {s : Site} {rule : Rule} {ops : List Op} (h : Rewrites s rule ops) :
    Lowered (s.op :: s.after) ops := by
  cases h with
  | plainCopy hk ha => rw [ha]; exact .drop_two ..
  | readSingleElement hk hp hc =>
    refine .lighten _ ?_
    simp only [Op.weight, hk, hp, if_true, Bool.false_eq_true, if_false]
    omega
  | readUnusedPlanes hk hp hu hlt =>
    refine .lighten _ ?_
    simp only [Op.weight, hk]
    omega
  | writeSingleElement hk hp hc =>
    refine .lighten _ ?_
    simp only [Op.weight, hk, hp, if_true, Bool.false_eq_true, if_false]
    omega
  | swapBytesNoop => exact .drop ..
  | swapBytesPair hk ha => rw [ha]; exact .drop_two ..
  | unpackPack hk ha => rw [ha]; exact .drop_two ..
  | shiftNoop => exact .drop ..
  | shiftPairOverflow ha => rw [ha]; exact .fuse _ rfl
  | shiftPairLeft hk ha => rw [ha]; exact .fuse _ rfl
  | shiftPairRight hk ha => rw [ha]; exact .fuse _ rfl
  | clearNoop => exact .drop ..
  | clearUnused hk hp =>
    refine .fewerConstants ?_ ?_ ?_
    · simp only [Op.verb, hk, Kind.verb]
    · simp only [Op.weight, hk]
    · simp only [Op.constants, hk]
      exact Constants.countP_pruned_lt hp
  | clearPair hk ha => rw [ha]; exact .fuse _ rfl
  | @clearSwizzle values w next rest hk ha hn =>
    rw [ha]
    refine .swapped ?_ rfl ?_ rfl ?_ ?_
    · simp only [Op.ofKind, Op.verb, hk, Kind.verb]
    · simp only [Op.ofKind, Op.weight, hk]
    · simp only [Op.movesPast, Op.verb, hk, hn, Kind.verb]
      rfl
    · simp only [Op.movesPast, Op.verb, hk, hn, Kind.verb]
      rfl
  | @clearFold values moved next rest hk ha hv hf =>
    rw [ha]
    refine .swapped ?_ rfl ?_ rfl ?_ ?_
    · simp only [Op.ofKind, Op.verb, hk, Kind.verb]
    · simp only [Op.ofKind, Op.weight, hk]
    · simp only [Op.movesPast, Op.verb, hk, Kind.verb]
      simp only [Verb.movesPast, Bool.or_eq_true]
      exact .inr hv
    · have hclear : s.op.verb = .clear := by simp only [Op.verb, hk, Kind.verb]
      unfold Op.movesPast
      rw [hclear]
      exact Verb.not_movesPast_clear _
  | swizzleIdentity => exact .drop ..
  | swizzlePair hk ha => rw [ha]; exact .fuse _ rfl
  | @swizzleCommute w next moved rest hk ha hn hm =>
    rw [ha]
    obtain ⟨hv, hw⟩ := Site.movedBefore?_verb hm
    have hs : s.op.verb = .swizzle := by simp only [Op.verb, hk, Kind.verb]
    refine .swapped ?_ hv ?_ hw ?_ ?_
    · rw [hs]; rfl
    · simp only [Op.ofKind, Op.weight, hk]
    · simp only [Op.movesPast, hs]
      exact hn
    · simp only [Op.movesPast, hs]
      exact Verb.not_movesPast_swizzle hn
  | convertNoop => exact .drop ..
  | convertPair hk ha => rw [ha]; exact .fuse _ rfl
  | convertExpand hk ha => rw [ha]; exact .fuse _ rfl
  | ditherExact => exact .drop ..
  | affineIdentity => exact .drop ..
  | @affinePair t later next rest hk ha he hn =>
    rw [ha]
    refine .lighter ?_
    -- two transforms weigh more than any single one
    have hcard := EntryMask.card_le (t.andThen later).mask
    have hfused : (Op.weight ⟨s.op.elem, .affine (t.andThen later), s.op.info⟩) ≤ 241 := by
      rw [Op.weight_affine rfl]
      split <;> omega
    have h1 : 129 ≤ s.op.weight := by rw [Op.weight_affine hk]; omega
    have h2 : 129 ≤ next.weight := by rw [Op.weight_affine hn]; omega
    simp only [Site.become, weight_cons]
    omega
  | @affineResetUnused t hk hm =>
    refine .lighten _ ?_
    have := (Affine.restricted_within t s.nullInputs s.op.info.unused).card_lt hm
    rw [Op.weight_affine hk, Op.weight_affine rfl]
    omega
  | @affineConstantRows t remaining values hk hc =>
    refine .lighter ?_
    obtain ⟨hwithin, hne⟩ := Affine.constantRows?_within hc
    have := hwithin.card_lt hne
    have hclear : (Op.ofKind s.op.elem (.clear values)).weight = 1 := rfl
    simp only [Site.become, weight_cons]
    rw [Op.weight_affine hk, Op.weight_affine rfl, hclear]
    omega
  | affineScalar hk hf =>
    refine .lighten _ ?_
    rw [Op.weight_affine hk]
    show 1 < _
    omega
  | @affineSwizzle t remaining w hk hw =>
    refine .lighter ?_
    obtain ⟨hmix, hmix', hcard⟩ := Affine.swizzle?_mixes hw
    have hswizzle : (Op.ofKind s.op.elem (.swizzle w)).weight = 1 := rfl
    simp only [Site.become, weight_cons]
    rw [Op.weight_affine hk, hswizzle, Op.weight_affine rfl, hmix, hmix']
    simp only [if_true, Bool.false_eq_true, if_false]
    omega
  | scaleNoop => exact .drop ..
  | scalePair hk ha => rw [ha]; exact .fuse _ rfl
  | @scaleAfterConvert factor target expand next rest hk ha he hn =>
    rw [ha]
    refine .swapped ?_ rfl ?_ rfl ?_ ?_
    · simp only [Op.ofKind, Op.verb, hk, Kind.verb]
    · simp only [Op.ofKind, Op.weight, hk]
    · simp only [Op.movesPast, Op.verb, hk, hn, Kind.verb]
      rfl
    · simp only [Op.movesPast, Op.verb, hk, hn, Kind.verb]
      rfl
  | scaleShiftLeft hk | scaleShiftRight hk =>
    refine .fewerScales ?_ ?_ ?_
    · simp only [Op.weight, hk]
    · simp only [Op.isScale, Op.verb, hk, Kind.verb, beq_self_eq_true]
    · rfl
  | clampAbove => exact .drop ..
  | clampBelow => exact .drop ..

end PixelConv
