import PixelConv.Proofs.Contents
import PixelConv.Proofs.Lanes

/-!
# Byte traces stand for the contents

A trace says byte by byte where a component comes from. It carries a content when its bytes are the
digits of the number, lowest first, and nothing when they are undefined (`ByteTrace.Carries`). Main
statement: following an operation keeps this up (`Shuffle.follow?_carries`): reversing the places is
reversing the digits, repeating them is multiplying by a repunit, and the two fillings are the
smallest and the largest number.
-/

namespace PixelConv

/-! ## 1. Digits -/

namespace Elem

theorem two_pow_bits (e : Elem) : 2 ^ e.bits = 256 ^ e.size := by
  rw [bits, Nat.pow_mul]

/-- The digits of a number that is built from four digits. -/
theorem digits_four {b₀ b₁ b₂ b₃ : Nat} (h₀ : b₀ < 256) (h₁ : b₁ < 256) (h₂ : b₂ < 256) (h₃ : b₃ < 256) :
    (((b₃ * 256 + b₂) * 256 + b₁) * 256 + b₀) % 256 = b₀ ∧
      (((b₃ * 256 + b₂) * 256 + b₁) * 256 + b₀) / 256 % 256 = b₁ ∧
      (((b₃ * 256 + b₂) * 256 + b₁) * 256 + b₀) / 65536 % 256 = b₂ ∧
      (((b₃ * 256 + b₂) * 256 + b₁) * 256 + b₀) / 16777216 % 256 = b₃ := by
  omega

theorem digit_reversed (e : Elem) (n : Nat) {k : Nat} (hk : k < e.size) :
    e.reversed n / 256 ^ k % 256 = n / 256 ^ (e.size - 1 - k) % 256 := by
  have hcases : k = 0 ∨ k = 1 ∨ k = 2 ∨ k = 3 := by
    have : e.size ≤ 4 := Shape.elem_size_le e
    omega
  have hlt := fun m => Nat.mod_lt m (by decide : 0 < 256)
  cases e with
  | u8 =>
    have hk : k < 1 := hk
    obtain rfl : k = 0 := by omega
    show n % 256 / 1 % 256 = n / 1 % 256
    rw [Nat.div_one, Nat.div_one, Nat.mod_mod]
  | u16 =>
    have hk : k < 2 := hk
    obtain ⟨h0, h1, -⟩ := digits_four (hlt (n / 256)) (hlt n) (by decide : 0 < 256)
      (by decide : 0 < 256)
    simp only [Nat.zero_mul, Nat.zero_add] at h0 h1
    show (n % 256 * 256 + n / 256 % 256) / 256 ^ k % 256 = n / 256 ^ (1 - k) % 256
    rcases hcases with rfl | rfl | rfl | rfl
    · rw [Nat.pow_zero, Nat.div_one, h0, show 256 ^ (1 - 0) = 256 from rfl]
    · rw [Nat.sub_self, Nat.pow_zero, Nat.div_one, Nat.pow_one, h1]
    all_goals omega
  | u32 | f32 =>
    obtain ⟨h0, h1, h2, h3⟩ := digits_four (hlt (n / 16777216)) (hlt (n / 65536)) (hlt (n / 256))
      (hlt n)
    show (((n % 256 * 256 + n / 256 % 256) * 256 + n / 65536 % 256) * 256 + n / 16777216 % 256) /
      256 ^ k % 256 = n / 256 ^ (3 - k) % 256
    rcases hcases with rfl | rfl | rfl | rfl
    · rw [Nat.pow_zero, Nat.div_one, h0, show 256 ^ (3 - 0) = 16777216 from rfl]
    · rw [Nat.pow_one, h1, show 256 ^ (3 - 1) = 65536 from rfl]
    · rw [show 256 ^ 2 = 65536 from rfl, h2, show 256 ^ (3 - 2) = 256 from rfl]
    · rw [Nat.sub_self, Nat.pow_zero, Nat.div_one, show 256 ^ 3 = 16777216 from rfl, h3]

/-- Widening a byte by expansion repeats it. -/
theorem digit_spread_byte {n : Nat} (hn : n < 256) {factor k : Nat}
    (h : factor = 257 ∧ k < 2 ∨ factor = 16843009 ∧ k < 4) : n * factor / 256 ^ k % 256 = n := by
  rcases h with ⟨rfl, hk⟩ | ⟨rfl, hk⟩
  · obtain ⟨h0, h1, -⟩ := digits_four hn hn (by decide : 0 < 256) (by decide : 0 < 256)
    rw [show n * 257 = ((0 * 256 + 0) * 256 + n) * 256 + n by omega]
    have hcases : k = 0 ∨ k = 1 := by omega
    rcases hcases with rfl | rfl
    · rw [Nat.pow_zero, Nat.div_one, h0]
    · rw [Nat.pow_one, h1]
  · obtain ⟨h0, h1, h2, h3⟩ := digits_four hn hn hn hn
    rw [show n * 16843009 = ((n * 256 + n) * 256 + n) * 256 + n by omega]
    have hcases : k = 0 ∨ k = 1 ∨ k = 2 ∨ k = 3 := by omega
    rcases hcases with rfl | rfl | rfl | rfl
    · rw [Nat.pow_zero, Nat.div_one, h0]
    · rw [Nat.pow_one, h1]
    · rw [show 256 ^ 2 = 65536 from rfl, h2]
    · rw [show 256 ^ 3 = 16777216 from rfl, h3]

/-- Widening two bytes by expansion repeats them. -/
theorem digit_spread_pair {n : Nat} (hn : n < 65536) {k : Nat} (hk : k < 4) :
    n * 65537 / 256 ^ k % 256 = n / 256 ^ (k % 2) % 256 := by
  have hlt := fun m => Nat.mod_lt m (by decide : 0 < 256)
  obtain ⟨h0, h1, h2, h3⟩ := digits_four (hlt n) (hlt (n / 256)) (hlt n) (hlt (n / 256))
  rw [show n * 65537 = (((n / 256 % 256 * 256 + n % 256) * 256 + n / 256 % 256) * 256 + n % 256) by
    omega]
  have hcases : k = 0 ∨ k = 1 ∨ k = 2 ∨ k = 3 := by omega
  rcases hcases with rfl | rfl | rfl | rfl
  · rw [Nat.pow_zero, Nat.div_one, h0, Nat.div_one]
  · rw [Nat.pow_one, h1]
  · rw [show 256 ^ 2 = 65536 from rfl, h2, Nat.mod_self, Nat.pow_zero, Nat.div_one]
  · rw [show 256 ^ 3 = 16777216 from rfl, h3, show 256 ^ (3 % 2) = 256 from rfl]

/-- Widening by expansion repeats the digits. -/
theorem digit_spread {source target : Elem} (hs : source.isInt = true) (ht : target.isInt = true)
    (hle : source.size ≤ target.size) {n : Nat} (hn : n < 2 ^ source.bits) {k : Nat}
    (hk : k < target.size) :
    n * source.spread target true / 256 ^ k % 256 = n / 256 ^ (k % source.size) % 256 := by
  have hsame : source = target →
      n * source.spread target true / 256 ^ k % 256 = n / 256 ^ (k % source.size) % 256 := by
    rintro rfl
    have hone : source.spread source true = 1 := by
      revert hs
      cases source <;> decide
    rw [hone, Nat.mul_one, Nat.mod_eq_of_lt hk]
  have hbyte : n < 256 → n / 256 ^ (k % 1) % 256 = n := by
    intro hn
    rw [Nat.mod_one, Nat.pow_zero, Nat.div_one, Nat.mod_eq_of_lt hn]
  cases source with
  | u8 =>
    cases target with
    | u8 => exact hsame rfl
    | u16 => exact (digit_spread_byte hn (.inl ⟨rfl, hk⟩)).trans (hbyte hn).symm
    | u32 => exact (digit_spread_byte hn (.inr ⟨rfl, hk⟩)).trans (hbyte hn).symm
    | f32 => cases ht
  | u16 =>
    cases target with
    | u8 => exact absurd hle (by decide)
    | u16 => exact hsame rfl
    | u32 => exact digit_spread_pair hn hk
    | f32 => cases ht
  | u32 =>
    cases target with
    | u8 | u16 => exact absurd hle (by decide)
    | u32 => exact hsame rfl
    | f32 => cases ht
  | f32 => cases hs

/-- Widening stays within the target. -/
theorem mul_spread_lt_target {source target : Elem} (hs : source.isInt = true)
    (ht : target.isInt = true) (hle : source.size ≤ target.size) (expand : Bool) {n : Nat}
    (hn : n < 2 ^ source.bits) : n * source.spread target expand < 2 ^ target.bits := by
  have htop : (2 ^ source.bits - 1) * source.spread target expand < 2 ^ target.bits := by
    revert hs ht hle
    cases source <;> cases target <;> cases expand <;> decide
  exact Nat.lt_of_le_of_lt (Nat.mul_le_mul_right _ (Nat.le_sub_one_of_lt hn)) htop

theorem content_of_isZero {e : Elem} {c : Fraction} (h : c.isZero = true) : e.content c = 0 := by
  have hdef : c.isDefined = true := (Bool.and_eq_true_iff.mp h).1
  unfold content
  cases hw : e.word? c with
  | none => rfl
  | some w =>
    by_cases he : e.isInt = true
    · obtain ⟨rfl, -⟩ := (word?_eq_some_iff he).mp hw
      have hnum : ((w.toNat : Int) == 0) = true := (Bool.and_eq_true_iff.mp h).2
      exact Int.ofNat_eq_zero.mp (beq_iff_eq.mp hnum)
    · cases e with
      | f32 =>
        have hw : (if c.isDefined then some c.toFloat32.toBits else none) = some w := hw
        rw [if_pos hdef, Fraction.toBits_toFloat32_of_isZero h] at hw
        cases hw
        rfl
      | _ => exact absurd rfl he

theorem content_of_max? {e : Elem} {c : Fraction} (h : e.max? = some c) :
    e.content c = 2 ^ e.bits - 1 := by
  cases e with
  | f32 => cases h
  | u8 | u16 | u32 =>
    cases h
    rfl

/-- All digits of the largest number are the largest. -/
theorem digit_top (e : Elem) {k : Nat} (hk : k < e.size) :
    (2 ^ e.bits - 1) / 256 ^ k % 256 = 255 := by
  have hsize : e.size ≤ 4 := Shape.elem_size_le e
  have hcases : k = 0 ∨ k = 1 ∨ k = 2 ∨ k = 3 := by omega
  revert hk
  rcases hcases with rfl | rfl | rfl | rfl <;> cases e <;> decide

end Elem

/-! ## 2. Traces and contents -/

/-- The places of a trace of an element are the digits of the content, lowest first, or undefined
where there is none. The pixel `q` with elements of `size` bytes is the source. -/
structure ByteTrace.Carries (e : Elem) (size : Nat) (q : Pixel) (t : ByteTrace)
    (content : Option Nat) : Prop where
  len : t.len = e.size
  undefined : content = none → ∀ k : Fin 4, k.val < e.size → t.places k = .undefined
  defined : ∀ n, content = some n → n < 2 ^ e.bits ∧ ∀ k : Fin 4, k.val < e.size →
    t.places k ≠ .undefined ∧ ((t.places k).value size q).toNat = n / 256 ^ k.val % 256

variable {e : Elem} {size : Nat} {q : Pixel} {t : ByteTrace} {content : Option Nat}

/-- The word of a trace is the content that it carries. -/
theorem ByteTrace.Carries.toNat_word (h : t.Carries e size q content) {n : Nat}
    (hn : content = some n) : (t.word e.size size q).toNat = n := by
  have hsize : e.size ≤ 4 := Shape.elem_size_le e
  obtain ⟨hlt, hdigits⟩ := h.defined n hn
  rw [Elem.two_pow_bits] at hlt
  have hword : (t.word e.size size q).toNat < 256 ^ e.size := Bytes.toNat_word_lt _ _ hsize
  have hmod : (t.word e.size size q).toNat % 256 ^ e.size = n % 256 ^ e.size := by
    refine Bytes.mod_pow_eq_of_digits fun k hk => ?_
    rw [ByteTrace.word, Bytes.toNat_word_digit _ 0 hsize hk, Nat.zero_add]
    have hk4 : k < 4 := Nat.lt_of_lt_of_le hk hsize
    rw [ByteTrace.getD_word t size q ⟨k, hk4⟩]
    exact (hdigits ⟨k, hk4⟩ hk).2
  rw [Nat.mod_eq_of_lt hword, Nat.mod_eq_of_lt hlt] at hmod
  exact hmod

theorem ByteTrace.Carries.reversed (h : t.Carries e size q content) :
    t.reversed.Carries e size q (content.map e.reversed) := by
  have hsize : e.size ≤ 4 := Shape.elem_size_le e
  have hplace : ∀ k : Fin 4, k.val < e.size →
      ∃ j : Fin 4, j.val = e.size - 1 - k.val ∧ t.reversed.places k = t.places j := by
    intro k hk
    refine ⟨Fin.ofNat 4 (t.len - 1 - k.val), ?_, ?_⟩
    · rw [h.len]
      exact Nat.mod_eq_of_lt (by omega)
    · simp only [ByteTrace.reversed, Quad.get_ofFn]
      rw [if_pos (by rw [h.len]; exact hk)]
  refine ⟨h.len, fun hnone k hk => ?_, fun n hn => ?_⟩
  · obtain ⟨j, hj, hp⟩ := hplace k hk
    rw [hp]
    exact h.undefined (Option.map_eq_none_iff.mp hnone) j (by omega)
  · obtain ⟨m, hm, rfl⟩ := Option.map_eq_some_iff.mp hn
    refine ⟨e.reversed_lt m, fun k hk => ?_⟩
    obtain ⟨j, hj, hp⟩ := hplace k hk
    obtain ⟨hdef, hval⟩ := (h.defined m hm).2 j (by omega)
    rw [hp]
    refine ⟨hdef, ?_⟩
    rw [hval, Elem.digit_reversed e m hk, hj]

theorem ByteTrace.Carries.replicated (h : t.Carries e size q content) {target : Elem}
    (hs : e.isInt = true) (ht : target.isInt = true) (hle : e.size ≤ target.size) :
    (t.replicated e.size target.size).Carries target size q
      (content.map fun n => n * e.spread target true) := by
  have hsize : target.size ≤ 4 := Shape.elem_size_le target
  have hpos : 0 < e.size := Shape.elem_size_pos e
  have hplace : ∀ k : Fin 4, k.val < target.size →
      ∃ j : Fin 4, j.val = k.val % e.size ∧ (t.replicated e.size target.size).places k =
        t.places j := by
    intro k hk
    have hmod := Nat.mod_lt k.val hpos
    refine ⟨Fin.ofNat 4 (k.val % e.size), Nat.mod_eq_of_lt (by omega), ?_⟩
    simp only [ByteTrace.replicated, Quad.get_ofFn]
    rw [if_pos hk]
  refine ⟨rfl, fun hnone k hk => ?_, fun n hn => ?_⟩
  · obtain ⟨j, hj, hp⟩ := hplace k hk
    have hmod := Nat.mod_lt k.val hpos
    rw [hp]
    exact h.undefined (Option.map_eq_none_iff.mp hnone) j (by omega)
  · obtain ⟨m, hm, rfl⟩ := Option.map_eq_some_iff.mp hn
    obtain ⟨hlt, hdigits⟩ := h.defined m hm
    refine ⟨?_, fun k hk => ?_⟩
    · exact Elem.mul_spread_lt_target hs ht hle true hlt
    · obtain ⟨j, hj, hp⟩ := hplace k hk
      have hmod := Nat.mod_lt k.val hpos
      obtain ⟨hdef, hval⟩ := hdigits j (by omega)
      rw [hp]
      refine ⟨hdef, ?_⟩
      rw [hval, Elem.digit_spread hs ht hle hlt hk, hj]

/-- A place of zeros or of ones everywhere. -/
theorem ByteTrace.Carries.filled (h : t.Carries e size q content) {c : Fraction} {b : ByteSource}
    (hb : Shuffle.fill? e c = some b) :
    ({ t with places := Quad.const b } : ByteTrace).Carries e size q (some (e.content c)) := by
  refine ⟨h.len, fun hnone => absurd hnone (Option.some_ne_none _), fun n hn => ?_⟩
  cases hn
  refine ⟨e.content_lt c, fun k hk => ?_⟩
  rw [Quad.get_const]
  unfold Shuffle.fill? at hb
  split at hb
  · rename_i hzero
    cases hb
    refine ⟨fun hu => ByteSource.noConfusion hu, ?_⟩
    rw [Elem.content_of_isZero hzero, Nat.zero_div]
    rfl
  · split at hb
    · rename_i hmax
      cases hb
      refine ⟨fun hu => ByteSource.noConfusion hu, ?_⟩
      rw [Elem.content_of_max? hmax]
      show 255 = _
      exact (Elem.digit_top e hk).symm
    · cases hb

/-! ## 3. Following operations -/

/-- An operation that only moves bytes: a transfer of whole bytes of one plane, or an operation that
a shuffle follows. -/
def Op.MovesBytes (op : Op) : Prop :=
  match op.kind with
  | .read l | .write l => (Shuffle.chunk? ⟨op.elem, l⟩).isSome = true
  | .swizzle _ | .swapBytes => True
  | .clear values => ∀ i q, values i = some q → (Shuffle.fill? op.elem q).isSome = true
  | .convert target expand =>
    expand = true ∧ op.elem.isInt = true ∧ target.isInt = true ∧ op.elem.size ≤ target.size
  | _ => False

theorem Op.MovesBytes.exact {op : Op} (h : op.MovesBytes) : op.isExact = true := by
  obtain ⟨elem, kind, info⟩ := op
  cases kind with
  | convert target expand => exact (Bool.and_eq_true _ _).mpr ⟨h.2.1, h.2.2.1⟩
  | read | write | swapBytes | clear | swizzle => rfl
  | unpack | pack | shiftLeft | shiftRight | dither | affine | scale | atMost | atLeast => cases h

namespace Shuffle

/-- **The operations that are followed** are those that move bytes. -/
theorem follow?_isSome_iff {op : Op} (hop : op.transfer? = none) (comps : Quad ByteTrace) :
    (follow? op comps).isSome = true ↔ op.MovesBytes := by
  unfold follow? Op.MovesBytes
  unfold Op.transfer? at hop
  cases hk : op.kind with
  | read | write =>
    rw [hk] at hop
    cases hop
  | swizzle | swapBytes => exact ⟨fun _ => True.intro, fun _ => rfl⟩
  | clear values =>
    simp only [cleared?]
    constructor
    · intro h i q hq
      split at h
      · rename_i hall
        have hi := Quad.get_of_all hall i
        rw [hq] at hi
        exact hi
      · cases h
    · intro h
      rw [if_pos]
      · rfl
      · refine Quad.all_iff.mpr fun i => ?_
        cases hv : values i with
        | none => rfl
        | some q => exact h i q hv
  | convert target expand =>
    simp only
    constructor
    · intro h
      split at h
      · rename_i hcond
        simp only [Bool.and_eq_true, decide_eq_true_eq] at hcond
        exact ⟨hcond.1.1.1, hcond.1.1.2, hcond.1.2, hcond.2⟩
      · cases h
    · rintro ⟨rfl, hs, ht, hle⟩
      rw [if_pos (by rw [hs, ht, decide_eq_true hle]; rfl)]
      rfl
  | unpack | pack | shiftLeft | shiftRight | dither | affine | scale | atMost | atLeast =>
    exact ⟨fun h => Bool.noConfusion h, fun h => h.elim⟩

theorem foldlM_follow?_isSome_iff {ops : List Op} (hops : ∀ op ∈ ops, op.transfer? = none)
    (comps : Quad ByteTrace) :
    (ops.foldlM (fun comps op => follow? op comps) comps).isSome = true ↔
      ∀ op ∈ ops, op.MovesBytes := by
  induction ops generalizing comps with
  | nil => exact ⟨fun _ _ hop => absurd hop List.not_mem_nil, fun _ => rfl⟩
  | cons op ops ih =>
    obtain ⟨hop, hops⟩ := List.forall_mem_cons.mp hops
    rw [List.foldlM_cons, List.forall_mem_cons, ← follow?_isSome_iff hop comps]
    cases hf : follow? op comps with
    | none => exact ⟨fun h => Bool.noConfusion h, fun h => Bool.noConfusion h.1⟩
    | some next => exact (ih hops next).trans ⟨fun h => ⟨rfl, h⟩, fun h => h.2⟩

/-- Every component's trace carries its content. -/
def AllCarry (e : Elem) (size : Nat) (q : Pixel) (comps : Quad ByteTrace) (v : Content) : Prop :=
  ∀ c, (comps c).Carries e size q (v c)

/-- **An operation that is followed keeps traces and contents together.** -/
theorem follow?_carries {op : Op} {comps comps' : Quad ByteTrace} {v : Content} {size : Nat}
    {q : Pixel} (h : follow? op comps = some comps') (hc : AllCarry op.elem size q comps v)
    (src : Quad Nat) : AllCarry op.target size q comps' (op.act src v) := by
  unfold follow? at h
  unfold Op.target Op.act
  cases hk : op.kind with
  | swizzle s =>
    simp only [hk] at h ⊢
    cases h
    intro c
    rw [Swizzle.get_apply, Swizzle.get_apply]
    exact hc _
  | swapBytes =>
    simp only [hk] at h ⊢
    cases h
    intro c
    rw [Quad.get_map, Quad.get_ofFn, show op.onComponent c = op.elem.reversed from
      funext fun n => by simp only [Op.onComponent, hk]]
    exact (hc c).reversed
  | clear values =>
    simp only [hk, cleared?] at h ⊢
    split at h
    · rename_i hall
      cases h
      intro c
      have hfill : ∀ a, values c = some a → (fill? op.elem a).isSome = true := by
        intro a ha
        have := Quad.get_of_all hall c
        rw [ha] at this
        exact this
      rw [Quad.get_zipWith, Quad.get_ofFn]
      cases hv : values c with
      | none => exact hc c
      | some a =>
        obtain ⟨b, hb⟩ := Option.isSome_iff_exists.mp (hfill a hv)
        simp only [Option.bind_some, hb]
        exact (hc c).filled hb
    · cases h
  | convert target expand =>
    simp only [hk] at h ⊢
    split at h
    · rename_i hcond
      simp only [Bool.and_eq_true, decide_eq_true_eq] at hcond
      obtain ⟨⟨⟨rfl, hs⟩, ht⟩, hle⟩ := hcond
      cases h
      intro c
      rw [Quad.get_map, Quad.get_ofFn]
      have hmap : (v c).map (op.onComponent c) =
          (v c).map fun n => n * op.elem.spread target true := by
        cases hv : v c with
        | none => rfl
        | some n =>
          have hlt := Elem.mul_spread_lt_target hs ht hle true ((hc c).defined n hv).1
          simp only [Option.map_some, Op.onComponent, hk, Option.some.injEq]
          omega
      rw [hmap]
      exact (hc c).replicated hs ht hle
    · cases h
  | _ =>
    simp only [hk] at h
    cases h

/-- The traces after the read carry the elements of the source pixel. -/
theorem loaded_carries {r : Shape} {q : Pixel} (hframe : r.layout.frac = 0) (hq : r.Holds q)
    (info : Info) :
    AllCarry r.elem r.elem.size q (loaded r)
      ((Op.mk r.elem (.read r.layout) info).act (q.map UInt32.toNat) (Quad.const none)) := by
  intro c
  have hpos : 0 < r.elem.size := Shape.elem_size_pos r.elem
  have hsize : r.elem.size ≤ 4 := Shape.elem_size_le r.elem
  have hplace : ∀ k : Fin 4, k.val < r.elem.size → ((loaded r) c).places k =
      if c.val < r.layout.count then .input (c.val * r.elem.size + k.val) else .undefined := by
    intro k hk
    simp only [loaded, Quad.get_ofFn, hk, decide_true, Bool.and_true, decide_eq_true_eq]
  simp only [Op.act, Quad.get_ofFn, Quad.get_const, Quad.get_map]
  by_cases hcount : c.val < r.layout.count
  · rw [if_pos hcount]
    refine ⟨by simp only [loaded, Quad.get_ofFn], fun hn => absurd hn (Option.some_ne_none _),
      fun n hn => ?_⟩
    cases hn
    have hlt := hq c
    rw [if_pos hcount, Shape.values, if_neg (by omega)] at hlt
    refine ⟨by rw [Elem.two_pow_bits]; exact hlt, fun k hk => ?_⟩
    rw [hplace k hk, if_pos hcount]
    refine ⟨fun hu => ByteSource.noConfusion hu, ?_⟩
    show (Bytes.ofWord (q (Fin.ofNat 4 ((c.val * r.elem.size + k.val) / r.elem.size)))
      ((c.val * r.elem.size + k.val) % r.elem.size)).toNat = _
    rw [Nat.mul_comm, Nat.mul_add_div hpos, Nat.div_eq_of_lt hk, Nat.add_zero, Nat.mul_add_mod,
      Nat.mod_eq_of_lt hk, Fin.ofNat_val_eq_self, Bytes.toNat_ofWord _ (by omega)]
  · rw [if_neg hcount]
    refine ⟨by simp only [loaded, Quad.get_ofFn], fun _ k hk => ?_, fun n hn => by cases hn⟩
    rw [hplace k hk, if_neg hcount]

/-- **All operations that are followed.** -/
theorem foldlM_follow?_carries {src : Quad Nat} {size : Nat} {q : Pixel} {op : Op} {rest : List Op} :
    ∀ {ops : List Op} {e : Elem} {comps comps' : Quad ByteTrace} {v : Content},
      TypedFrom e (ops ++ op :: rest) →
      ops.foldlM (fun comps op => follow? op comps) comps = some comps' →
      AllCarry e size q comps v → AllCarry op.elem size q comps' (actAll src ops v)
  | [], _, _, _, _, ht, h, hc => by
    cases h
    rw [ht.1]
    exact hc
  | o :: ops, _, comps, _, v, ht, h, hc => by
    rw [List.foldlM_cons] at h
    obtain ⟨mid, hmid, hrest⟩ := Option.bind_eq_some_iff.mp h
    rw [actAll_cons]
    refine foldlM_follow?_carries ht.2 hrest (follow?_carries hmid ?_ src)
    rw [ht.1]
    exact hc

end Shuffle

end PixelConv
