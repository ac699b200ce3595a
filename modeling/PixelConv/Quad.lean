/-!
# Four components

Everything a conversion carries comes in fours: the components of a pixel, their bounds, their
registers, the planes of an image. `Quad α` is that shape, read by a component index `Fin 4`.
Main statement: a quad is determined by its four readings (`Quad.ext_get`), and `ofFn` builds the
quad with given readings (`Quad.get_ofFn`).
-/

namespace PixelConv

instance neZero_four : NeZero 4 := ⟨by decide⟩

/-- Four values of one type, one per component. -/
@[ext]
structure Quad (α : Type) where
  c0 : α
  c1 : α
  c2 : α
  c3 : α
deriving DecidableEq

namespace Quad

variable {α β γ : Type}

/-! ## 1. Reading and building -/

/-- The value of component `i`. -/
def get (q : Quad α) : Fin 4 → α
  | 0 => q.c0
  | 1 => q.c1
  | 2 => q.c2
  | 3 => q.c3

instance : CoeFun (Quad α) fun _ => Fin 4 → α := ⟨get⟩

/-- The quad whose component `i` is `f i`. -/
def ofFn (f : Fin 4 → α) : Quad α := ⟨f 0, f 1, f 2, f 3⟩

/-- The quad of four results, or the error of the first component that has one. -/
def ofFnM {ε : Type} (f : Fin 4 → Except ε α) : Except ε (Quad α) :=
  match f 0, f 1, f 2, f 3 with
  | .ok a, .ok b, .ok c, .ok d => .ok ⟨a, b, c, d⟩
  | .error e, _, _, _ => .error e
  | _, .error e, _, _ => .error e
  | _, _, .error e, _ => .error e
  | _, _, _, .error e => .error e

/-- The same value in every component. -/
def const (a : α) : Quad α := ⟨a, a, a, a⟩

instance [Inhabited α] : Inhabited (Quad α) := ⟨const default⟩

/-- Applies `f` to each component. -/
def map (f : α → β) (q : Quad α) : Quad β := ⟨f q.c0, f q.c1, f q.c2, f q.c3⟩

/-- Combines two quads component by component. -/
def zipWith (f : α → β → γ) (p : Quad α) (q : Quad β) : Quad γ :=
  ⟨f p.c0 q.c0, f p.c1 q.c1, f p.c2 q.c2, f p.c3 q.c3⟩

/-- Replaces component `i`. -/
def set (q : Quad α) (i : Fin 4) (a : α) : Quad α := ofFn fun j => if j = i then a else q j

/-- The components in order. -/
def toList (q : Quad α) : List α := [q.c0, q.c1, q.c2, q.c3]

/-- The first four entries of a list, with `a` in place of missing ones. -/
def ofListD (l : List α) (a : α) : Quad α :=
  ofFn fun i => l.getD i.val a

/-- The component indices in order. -/
def indices : List (Fin 4) := [0, 1, 2, 3]

/-- Some component satisfies `p`. -/
def any (p : α → Bool) (q : Quad α) : Bool := q.toList.any p

/-- Every component satisfies `p`. -/
def all (p : α → Bool) (q : Quad α) : Bool := q.toList.all p

/-! ## 2. Laws of the readings -/

@[simp] theorem get_ofFn (f : Fin 4 → α) (i : Fin 4) : (ofFn f) i = f i := by
  match i with
  | 0 | 1 | 2 | 3 => rfl

@[simp] theorem get_const (a : α) (i : Fin 4) : (const a) i = a := by
  match i with
  | 0 | 1 | 2 | 3 => rfl

/-- One value in the first component, another one in all others. -/
theorem get_first (a b : α) (i : Fin 4) : (⟨a, b, b, b⟩ : Quad α) i = if i = 0 then a else b := by
  match i with
  | 0 | 1 | 2 | 3 => rfl

@[simp] theorem get_map (f : α → β) (q : Quad α) (i : Fin 4) : (q.map f) i = f (q i) := by
  match i with
  | 0 | 1 | 2 | 3 => rfl

@[simp] theorem get_zipWith (f : α → β → γ) (p : Quad α) (q : Quad β) (i : Fin 4) :
    (zipWith f p q) i = f (p i) (q i) := by
  match i with
  | 0 | 1 | 2 | 3 => rfl

@[simp] theorem get_set (q : Quad α) (i j : Fin 4) (a : α) :
    (q.set i a) j = if j = i then a else q j := by
  simp only [set, get_ofFn]

/-- Two quads with the same readings are equal. -/
theorem ext_get {p q : Quad α} (h : ∀ i, p i = q i) : p = q :=
  Quad.ext (h 0) (h 1) (h 2) (h 3)

/-- Four results give the quad `q` exactly if each gives the reading of `q`. -/
theorem ofFnM_eq_ok_iff {ε : Type} {f : Fin 4 → Except ε α} {q : Quad α} :
    ofFnM f = .ok q ↔ ∀ i, f i = .ok (q i) := by
  constructor
  · intro h i
    unfold ofFnM at h
    split at h
    · rename_i h0 h1 h2 h3
      cases h
      match i with
      | 0 => exact h0
      | 1 => exact h1
      | 2 => exact h2
      | 3 => exact h3
    all_goals cases h
  · intro h
    unfold ofFnM
    rw [h 0, h 1, h 2, h 3]
    rfl

theorem exists_ofFnM {ε : Type} {f : Fin 4 → Except ε α} (h : ∀ i, ∃ a, f i = .ok a) :
    ∃ q, ofFnM f = .ok q := by
  obtain ⟨a, ha⟩ := h 0
  obtain ⟨b, hb⟩ := h 1
  obtain ⟨c, hc⟩ := h 2
  obtain ⟨d, hd⟩ := h 3
  refine ⟨⟨a, b, c, d⟩, ofFnM_eq_ok_iff.mpr fun i => ?_⟩
  match i with
  | 0 => exact ha
  | 1 => exact hb
  | 2 => exact hc
  | 3 => exact hd

/-! ## 3. Lists of components -/

theorem mem_indices (i : Fin 4) : i ∈ indices := by
  match i with
  | 0 | 1 | 2 | 3 => decide

/-- A test of every component holds of each. -/
theorem all_indices {t : Fin 4 → Bool} : indices.all t = true ↔ ∀ i, t i = true := by
  rw [List.all_eq_true]
  exact ⟨fun h i => h i (mem_indices i), fun h i _ => h i⟩

theorem any_indices {t : Fin 4 → Bool} : indices.any t = true ↔ ∃ i, t i = true := by
  rw [List.any_eq_true]
  exact ⟨fun ⟨i, _, hi⟩ => ⟨i, hi⟩, fun ⟨i, hi⟩ => ⟨i, mem_indices i, hi⟩⟩

theorem getElem?_toList (q : Quad α) (i : Fin 4) : q.toList[i.val]? = some (q i) := by
  match i with
  | 0 | 1 | 2 | 3 => rfl

theorem mem_toList (q : Quad α) (i : Fin 4) : q i ∈ q.toList :=
  List.mem_of_getElem? (getElem?_toList q i)

theorem get_of_all {t : α → Bool} {q : Quad α} (h : q.all t = true) (i : Fin 4) : t (q i) = true :=
  List.all_eq_true.mp h _ (mem_toList q i)

theorem all_iff {t : α → Bool} {q : Quad α} : q.all t = true ↔ ∀ i, t (q i) = true := by
  refine ⟨get_of_all, fun h => ?_⟩
  show (t (q 0) && (t (q 1) && (t (q 2) && (t (q 3) && true)))) = true
  rw [h 0, h 1, h 2, h 3]
  rfl

/-- The first `n` components. -/
theorem mem_take {a : α} {q : Quad α} {n : Nat} :
    a ∈ q.toList.take n ↔ ∃ i : Fin 4, i.val < n ∧ q i = a := by
  constructor
  · intro ha
    obtain ⟨k, hk, rfl⟩ := List.mem_take_iff_getElem.mp ha
    have hk4 : k < 4 := Nat.lt_of_lt_of_le hk (Nat.min_le_right _ _)
    have hget := getElem?_toList q ⟨k, hk4⟩
    rw [List.getElem?_eq_getElem hk4] at hget
    exact ⟨⟨k, hk4⟩, Nat.lt_of_lt_of_le hk (Nat.min_le_left _ _), (Option.some.inj hget).symm⟩
  · rintro ⟨i, hi, rfl⟩
    refine List.mem_of_getElem? (i := i.val) ?_
    rw [List.getElem?_take_of_lt hi]
    exact getElem?_toList q i

theorem exists_of_mem {a : α} {q : Quad α} (h : a ∈ q.toList) : ∃ i, q i = a := by
  obtain ⟨i, -, hi⟩ := (mem_take (n := 4)).mp h
  exact ⟨i, hi⟩

theorem any_iff {t : α → Bool} {q : Quad α} : q.any t = true ↔ ∃ i, t (q i) = true := by
  rw [any, List.any_eq_true]
  constructor
  · rintro ⟨a, ha, hta⟩
    obtain ⟨i, rfl⟩ := exists_of_mem ha
    exact ⟨i, hta⟩
  · rintro ⟨i, hi⟩
    exact ⟨q i, mem_toList q i, hi⟩

/-- A test that one of the first `n` components passes. -/
theorem any_take {t : α → Bool} {q : Quad α} {n : Nat} :
    (q.toList.take n).any t = true ↔ ∃ i : Fin 4, i.val < n ∧ t (q i) = true := by
  rw [List.any_eq_true]
  constructor
  · rintro ⟨a, ha, hta⟩
    obtain ⟨i, hi, rfl⟩ := mem_take.mp ha
    exact ⟨i, hi, hta⟩
  · rintro ⟨i, hi, hti⟩
    exact ⟨q i, mem_take.mpr ⟨i, hi, rfl⟩, hti⟩

/-- A test that all of the first `n` components pass. -/
theorem all_take {t : α → Bool} {q : Quad α} {n : Nat} :
    (q.toList.take n).all t = true ↔ ∀ i : Fin 4, i.val < n → t (q i) = true := by
  rw [List.all_eq_not_any_not, Bool.not_eq_true', ← Bool.not_eq_true, any_take]
  constructor
  · intro h i hi
    cases ht : t (q i) with
    | true => rfl
    | false => exact absurd ⟨i, hi, by rw [ht]; rfl⟩ h
  · rintro h ⟨i, hi, ht⟩
    rw [h i hi] at ht
    cases ht

end Quad

end PixelConv
