import PixelConv.Proofs.Demand
import PixelConv.Proofs.Knowledge
import PixelConv.Proofs.Registers

/-!
# Replacing operations

Operations that read no more than others (`Eases`) can stand for them if they leave the same contents
and make no scale of the widest element overflow that did not (`Faithful`). It is enough to compare
what is read afterwards (`Faithful.of_agree`), and numbers where the operations act on each component
alone (`Faithful.of_numbers`). `Place` collects what holds where a rule is applied.
-/

namespace PixelConv

variable {src : Quad Nat} {v : Content}

/-! ## 1. Replacing operations -/

/-- The components of `on` hold something. -/
def DefinedOn (on : Quad Bool) (v : Content) : Prop := ∀ i, on i = true → ∃ n, v i = some n

/-- No scale of the widest element overflows on a component that is read. -/
def Tame (src : Quad Nat) : List Op → Content → Prop
  | [], _ => True
  | op :: ops, v => (∀ i n, needed ops i = true → v i = some n → op.FitsAt n) ∧
      Tame src ops (op.act src v)

theorem Tame.congr {ops : List Op} (hops : ∀ op ∈ ops, op.isExact = true) {v v' : Content}
    (h : AgreeOn (needed ops) v v') (ht : Tame src ops v) : Tame src ops v' := by
  induction ops generalizing v v' with
  | nil => exact True.intro
  | cons op ops ih =>
    refine ⟨fun i n hi hn hu f hf => ?_, ih (fun o ho => hops o (List.mem_cons_of_mem _ ho))
      (Op.act_congr (hops op List.mem_cons_self) src h) ht.2⟩
    -- a scale reads what is read of it
    have hneeds : op.needs (needed ops) = needed ops := by rw [Op.needs, hf]
    refine ht.1 i n hi ?_ hu f hf
    rw [h i (by rw [needed_cons, hneeds]; exact hi)]
    exact hn

theorem Tame.drop : ∀ {l r : List Op} {v : Content}, Tame src (l ++ r) v → Tame src r (actAll src l v)
  | [], _, _, h => h
  | _ :: l, _, _, h => Tame.drop (l := l) h.2

/-- The operations `new` can stand for `old` where the components hold `v`. -/
structure Faithful (src : Quad Nat) (v : Content) (old new : List Op) : Prop where
  outcome : actAll src new v = actAll src old v
  tame : Tame src old v → Tame src new v

/-- It is enough to compare what is read later. -/
theorem Faithful.of_agree (olds news rest : List Op) (hrest : ∀ op ∈ rest, op.isExact = true)
    (hagree : AgreeOn (needed rest) (actAll src olds v) (actAll src news v))
    (htame : Tame src (olds ++ rest) v → Tame src rest (actAll src news v) →
      Tame src (news ++ rest) v) :
    Faithful src v (olds ++ rest) (news ++ rest) := by
  refine ⟨?_, fun h => htame h (Tame.congr hrest hagree h.drop)⟩
  rw [actAll_append, actAll_append]
  exact (actAll_congr src hrest hagree).symm

/-! ## 2. Operations on each component alone -/

/-- The effect of operations on each component alone on a number. -/
def onNumber (ops : List Op) (i : Fin 4) (n : Nat) : Nat :=
  ops.foldl (fun n op => op.onComponent i n) n

theorem actAll_componentwise : ∀ {ops : List Op}, (∀ op ∈ ops, op.verb.isComponentwise = true) →
    ∀ (v : Content) (i : Fin 4), (actAll src ops v) i = (v i).map (onNumber ops i)
  | [], _, v, i => by
    rw [show onNumber [] i = fun n => n from rfl, Option.map_id_fun']
    rfl
  | op :: ops, hops, v, i => by
    rw [actAll_cons, actAll_componentwise fun o ho => hops o (List.mem_cons_of_mem _ ho),
      Op.act_componentwise (hops op List.mem_cons_self), Option.map_map]
    rfl

/-- Operations on each component alone: it is enough to compare numbers. -/
theorem Faithful.of_numbers (olds news rest : List Op) (hrest : ∀ op ∈ rest, op.isExact = true)
    (holds : ∀ op ∈ olds, op.verb.isComponentwise = true)
    (hnews : ∀ op ∈ news, op.verb.isComponentwise = true)
    (h : ∀ i n, needed rest i = true → v i = some n → onNumber news i n = onNumber olds i n)
    (htame : Tame src (olds ++ rest) v → Tame src rest (actAll src news v) →
      Tame src (news ++ rest) v) :
    Faithful src v (olds ++ rest) (news ++ rest) := by
  refine Faithful.of_agree olds news rest hrest (fun i hi => ?_) htame
  rw [actAll_componentwise holds, actAll_componentwise hnews]
  cases hv : v i with
  | none => rfl
  | some n => rw [Option.map_some, Option.map_some, h i n hi hv]

/-- Operations other than scales never overflow. -/
theorem Op.fitsAt_of_ne {op : Op} (h : ∀ f, op.kind ≠ .scale f) (n : Nat) : op.FitsAt n :=
  fun _ f hf => absurd hf (h f)

/-! ## 3. Places -/

/-- Every place of an analysed program is surveyed. -/
theorem Program.surveyed_analyse {p : Program} {pre rest : List Op} {op : Op}
    (h : p.analyse.ops = pre ++ op :: rest) : (Site.mk pre.getLast? op rest).Surveyed :=
  ⟨unused_analyse h, fun _ => needed_of_input_zero h⟩

/-- The rules for these operations look at the bounds of the input. -/
def Verb.readsBounds : Verb → Bool
  | scale | atMost | atLeast => true
  | _ => false

/-- A place of an analysed program that computes with integers only, where the components hold
`v`. -/
structure Place (s : Site) (v : Content) : Prop where
  exact : ∀ op ∈ s.op :: s.after, op.isExact = true
  limits : ∀ op ∈ s.op :: s.after, op.InLimits
  typed : TypedFrom s.op.elem (s.op :: s.after)
  range : InRange s.op.elem v
  defined : DefinedOn (needed (s.op :: s.after)) v
  surveyed : s.Surveyed
  bounds : s.op.verb.readsBounds = true → ∀ i n, needed (s.op :: s.after) i = true →
    v i = some n → (s.input.bounds i).Encloses n

namespace Place

variable {s : Site} {next : Op} {rest : List Op}

theorem exact_after (h : Place s v) : ∀ op ∈ s.after, op.isExact = true := fun op hop =>
  h.exact op (List.mem_cons_of_mem _ hop)

theorem exact_rest (h : Place s v) (ha : s.after = next :: rest) :
    ∀ op ∈ rest, op.isExact = true := fun op hop =>
  h.exact_after op (by rw [ha]; exact List.mem_cons_of_mem _ hop)

theorem exact_next (h : Place s v) (ha : s.after = next :: rest) : next.isExact = true :=
  h.exact_after next (by rw [ha]; exact List.mem_cons_self)

theorem limits_next (h : Place s v) (ha : s.after = next :: rest) : next.InLimits :=
  h.limits next (by rw [ha]; exact List.mem_cons_of_mem _ List.mem_cons_self)

theorem elem_next (h : Place s v) (ha : s.after = next :: rest) : next.elem = s.op.target := by
  have htyped := h.typed.2
  rw [ha] at htyped
  exact htyped.1

/-- An operation on each component alone that changes no number goes away. -/
theorem drop (h : Place s v) (hcw : s.op.verb.isComponentwise = true)
    (hid : ∀ i n, needed s.after i = true → v i = some n → n < 2 ^ s.op.elem.bits →
      s.op.onComponent i n = n) : Faithful src v (s.op :: s.after) s.after := by
  refine Faithful.of_numbers [s.op] [] s.after h.exact_after ?_
    (fun _ hop => absurd hop List.not_mem_nil) (fun i n hi hn => ?_) fun _ ht => ht
  · intro op hop
    rw [List.mem_singleton.mp hop]
    exact hcw
  · exact (hid i n hi hn (h.range i n hn)).symm

/-- An operation on each component alone becomes another one, not a scale, that gives the same
numbers. -/
theorem become (h : Place s v) (hcw : s.op.verb.isComponentwise = true) {new : Op}
    (hnew : new.verb.isComponentwise = true) (hscale : ∀ f, new.kind ≠ .scale f)
    (heq : ∀ i n, v i = some n → n < 2 ^ s.op.elem.bits →
      new.onComponent i n = s.op.onComponent i n) :
    Faithful src v (s.op :: s.after) (new :: s.after) := by
  refine Faithful.of_numbers [s.op] [new] s.after h.exact_after (fun op hop => ?_)
    (fun op hop => ?_) (fun i n _ hv => heq i n hv (h.range i n hv)) fun _ ht =>
      ⟨fun i n _ _ => Op.fitsAt_of_ne hscale n, ht⟩
  · rw [List.mem_singleton.mp hop]
    exact hcw
  · rw [List.mem_singleton.mp hop]
    exact hnew

/-- Two neighbouring operations on each component alone become one. -/
theorem fuse (h : Place s v) (ha : s.after = next :: rest)
    (hcw : s.op.verb.isComponentwise = true) (hcw' : next.verb.isComponentwise = true) {new : Op}
    (hnew : new.verb.isComponentwise = true)
    (heq : ∀ i n, needed rest i = true → v i = some n → n < 2 ^ s.op.elem.bits →
      new.onComponent i n = next.onComponent i (s.op.onComponent i n))
    (htame : Tame src (s.op :: next :: rest) v →
      ∀ i n, needed rest i = true → v i = some n → new.FitsAt n) :
    Faithful src v (s.op :: s.after) (new :: rest) := by
  rw [ha]
  refine Faithful.of_numbers [s.op, next] [new] rest (h.exact_rest ha) ?_ ?_
    (fun i n hi hn => heq i n hi hn (h.range i n hn)) fun ht ht' => ⟨htame ht, ht'⟩
  · intro op hop
    rcases List.mem_cons.mp hop with rfl | hop
    · exact hcw
    · rw [List.mem_singleton.mp hop]
      exact hcw'
  · intro op hop
    rw [List.mem_singleton.mp hop]
    exact hnew

end Place

end PixelConv
