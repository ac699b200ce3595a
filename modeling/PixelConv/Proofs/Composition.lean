import Mathlib.Algebra.BigOperators.Fin
import Mathlib.Data.Matrix.Mul
import PixelConv.Proofs.AffineRules
import PixelConv.Proofs.WideArithmetic

/-!
# Composition of transforms

A transform stands for a square matrix of numbers: its entries, and a last row `0 0 0 0 1`. Where no
sum and no product that is computed is beyond the limit, the composition of two transforms stands
for the product of their matrices (`Affine.matrix_andThen`), and applying a transform multiplies its
matrix with the column of the inputs and a one (`Op.column_eval`). Main statement: composing is doing
one after the other, and it is associative (`Affine.andThen_composes`). Both follow from the laws of
matrices, since fractions in lowest terms are equal where their values are.
-/

namespace PixelConv

/-! ## 1. Exact sums of products -/

namespace Fraction

variable {a b : Fraction}

instance (e : ℚ) : Decidable (Fits e) := inferInstanceAs (Decidable (_ ∧ _))

theorem value_add (ha : a.isDefined = true) (hb : b.isDefined = true)
    (h : Fits (a.value + b.value)) : (a + b).value = a.value + b.value := by
  refine ((represents_add a b).rounds _ ?_).exact h
  rw [value?_of_defined ha, value?_of_defined hb, Option.map₂_some_some]

theorem value_mul (ha : a.isDefined = true) (hb : b.isDefined = true)
    (h : Fits (a.value * b.value)) : (a * b).value = a.value * b.value := by
  refine ((represents_mul a b).rounds _ ?_).exact h
  rw [value?_of_defined ha, value?_of_defined hb, Option.map₂_some_some]

theorem value_of_isZero (h : a.isZero = true) : a.value = 0 := by
  rw [value, (isZero_iff.mp h).2, Int.cast_zero, zero_div]

/-- No product and no sum is rounded when `f k * g k` is added to `acc` for each `k` in turn. -/
def SumFits (f g : Fin 4 → Fraction) : Fraction → List (Fin 4) → Prop
  | _, [] => True
  | acc, k :: l => Fits ((f k).value * (g k).value) ∧ Fits (acc.value + (f k * g k).value) ∧
      SumFits f g (acc + f k * g k) l

instance SumFits.decidable (f g : Fin 4 → Fraction) :
    ∀ (acc : Fraction) (l : List (Fin 4)), Decidable (SumFits f g acc l)
  | _, [] => inferInstanceAs (Decidable True)
  | acc, k :: l =>
    have := SumFits.decidable f g (acc + f k * g k) l
    inferInstanceAs (Decidable (_ ∧ _ ∧ _))

section Sums

variable {f g : Fin 4 → Fraction} (hf : ∀ k, (f k).isDefined = true)
  (hg : ∀ k, (g k).isDefined = true)

include hf hg

/-- **Sums of products that fit are exact.** -/
theorem value_foldl {l : List (Fin 4)} {acc : Fraction} (hacc : acc.isDefined = true)
    (h : SumFits f g acc l) : (l.foldl (fun acc k => acc + f k * g k) acc).value =
      acc.value + (l.map fun k => (f k).value * (g k).value).sum := by
  induction l generalizing acc with
  | nil => exact (add_zero _).symm
  | cons k l ih =>
    obtain ⟨hmul, hadd, hrest⟩ := h
    have hprod := isDefined_mul (hf k) (hg k)
    rw [List.foldl_cons, ih (isDefined_add hacc hprod) hrest, value_add hacc hprod hadd,
      value_mul (hf k) (hg k) hmul, List.map_cons, List.sum_cons, add_assoc]

end Sums

/-- Summands with a factor that is zero can be left out. -/
theorem sum_filter_isZero (f g : Fin 4 → Fraction) (l : List (Fin 4)) :
    ((l.filter fun k => !(f k).isZero).map fun k => (f k).value * (g k).value).sum =
      (l.map fun k => (f k).value * (g k).value).sum := by
  induction l with
  | nil => rfl
  | cons k l ih =>
    rw [List.filter_cons, List.map_cons, List.sum_cons, ← ih]
    cases hk : (f k).isZero with
    | true =>
      rw [value_of_isZero hk, Rat.zero_mul, Rat.zero_add]
      rfl
    | false => rw [Bool.not_false, if_pos rfl, List.map_cons, List.sum_cons]

end Fraction

theorem Quad.sum_indices (f : Fin 4 → ℚ) : (Quad.indices.map f).sum = ∑ k, f k :=
  (Fin.sum_univ_def f).symm

/-! ## 2. Matrices -/

namespace Affine

/-- All entries are defined and in lowest terms. -/
def Reduced (t : Affine) : Prop := ∀ i j, (t.entry i j).Reduced

instance (t : Affine) : Decidable t.Reduced := inferInstanceAs (Decidable (∀ _ _, _))

/-- The matrix that a transform stands for. -/
def matrix (t : Affine) : Matrix (Fin 5) (Fin 5) ℚ :=
  .of (Fin.snoc (fun i j => (t.entry i j).value) fun j => if j = Fin.last 4 then 1 else 0)

/-- The column of the four components and a one. -/
def column (x : Value) : Fin 5 → ℚ := Fin.snoc (fun i => (x i).value) 1

variable {t u v : Affine} {x : Value}

@[simp] theorem matrix_castSucc (t : Affine) (i : Fin 4) (j : Fin 5) :
    t.matrix i.castSucc j = (t.entry i j).value := by
  rw [matrix, Matrix.of_apply, Fin.snoc_castSucc]

theorem matrix_last (t : Affine) (j : Fin 5) :
    t.matrix (Fin.last 4) j = if j = Fin.last 4 then 1 else 0 := by
  rw [matrix, Matrix.of_apply, Fin.snoc_last]

theorem entry_castSucc (t : Affine) (i j : Fin 4) : t.entry i j.castSucc = (t.rows i).weight j :=
  AffineRow.entry_castSucc _ j

theorem entry_last (t : Affine) (i : Fin 4) : t.entry i (Fin.last 4) = (t.rows i).offset := rfl

/-- A row of the transform adds up weighted entries of a column and the offset of its last one, -/
theorem sum_matrix_castSucc (t : Affine) (i : Fin 4) (y : Fin 5 → ℚ) :
    ∑ k, t.matrix i.castSucc k * y k =
      ∑ k : Fin 4, ((t.rows i).weight k).value * y k.castSucc +
        (t.rows i).offset.value * y (Fin.last 4) := by
  rw [Fin.sum_univ_castSucc]
  simp only [matrix_castSucc, entry_castSucc, entry_last]

/-- and the last row picks the last one. -/
theorem sum_matrix_last (t : Affine) (y : Fin 5 → ℚ) :
    ∑ k, t.matrix (Fin.last 4) k * y k = y (Fin.last 4) := by
  simp only [matrix_last, ite_mul, Rat.one_mul, Rat.zero_mul, Finset.sum_ite_eq', Finset.mem_univ,
    if_true]

@[simp] theorem column_castSucc (x : Value) (i : Fin 4) : column x i.castSucc = (x i).value := by
  rw [column, Fin.snoc_castSucc]

theorem column_last (x : Value) : column x (Fin.last 4) = 1 := by
  rw [column, Fin.snoc_last]

/-- The entry `(i, j)` of a product, and the sums that lead to it, are computed without rounding. -/
def ProductFits (t u : Affine) : Prop :=
  ∀ i j, Fraction.SumFits (u.rows i).weight (t.entry · j) Fraction.zero Quad.indices ∧
    (j = Fin.last 4 → Fraction.Fits ((Quad.indices.foldl
      (fun acc k => acc + (u.rows i).weight k * t.entry k j) Fraction.zero).value +
        (u.rows i).offset.value))

instance (t u : Affine) : Decidable (t.ProductFits u) :=
  inferInstanceAs (Decidable (∀ _ _, _ ∧ (_ → _)))

/-- The outputs, and the sums that lead to them, are computed without rounding. Inputs with weight
zero do not take part. -/
def EvalFits (t : Affine) (x : Value) : Prop :=
  ∀ i, Fraction.SumFits (t.rows i).weight x.get (t.rows i).offset
    (Quad.indices.filter fun j => !((t.rows i).weight j).isZero)

instance (t : Affine) (x : Value) : Decidable (t.EvalFits x) :=
  inferInstanceAs (Decidable (∀ _, _))

theorem Reduced.weight (h : t.Reduced) (i j : Fin 4) : ((t.rows i).weight j).isDefined = true :=
  entry_castSucc t i j ▸ (h i j.castSucc).isDefined

theorem Reduced.offset (h : t.Reduced) (i : Fin 4) : (t.rows i).offset.Reduced := h i 4

theorem Reduced.andThen (ht : t.Reduced) (hu : u.Reduced) : (t.andThen u).Reduced := by
  intro i j
  rw [entry_andThen]
  exact reduced_productEntry (fun k => (ht k j).isDefined) fun k => (hu i k).isDefined

/-! ## 3. Composing multiplies matrices -/

theorem value_productEntry (ht : t.Reduced) (hu : u.Reduced) (h : t.ProductFits u) (i : Fin 4)
    (j : Fin 5) : (productEntry t u i j).value =
      ∑ k, ((u.rows i).weight k).value * (t.entry k j).value +
        (u.rows i).offset.value * if j = 4 then 1 else 0 := by
  have hweight := hu.weight i
  have hentry : ∀ k, (t.entry k j).isDefined = true := fun k => (ht k j).isDefined
  have hsum := Fraction.value_foldl hweight hentry (show Fraction.zero.isDefined = true from rfl)
    (h i j).1
  rw [Fraction.value_of_isZero (show Fraction.zero.isZero = true from rfl), Rat.zero_add,
    Quad.sum_indices] at hsum
  rw [productEntry]
  by_cases hj : j = 4
  · have hdefined := (Fraction.reduced_foldl hweight hentry Quad.indices Fraction.zero
      (by decide)).isDefined
    rw [if_pos hj, if_pos hj, Fraction.value_add hdefined (hu.offset i).isDefined ((h i j).2 hj),
      hsum, Rat.mul_one]
  · rw [if_neg hj, if_neg hj, hsum, Rat.mul_zero, Rat.add_zero]

/-- **A composition stands for the product of the matrices.** -/
theorem matrix_andThen (ht : t.Reduced) (hu : u.Reduced) (h : t.ProductFits u) :
    (t.andThen u).matrix = u.matrix * t.matrix := by
  ext i j
  rw [Matrix.mul_apply]
  induction i using Fin.lastCases with
  | last => rw [sum_matrix_last, matrix_last, matrix_last]
  | cast i =>
    rw [matrix_castSucc, entry_andThen, value_productEntry ht hu h, sum_matrix_castSucc]
    simp only [matrix_castSucc, matrix_last]
    rfl

end Affine

/-! ## 4. Applying multiplies with a column -/

namespace AffineRow

variable {r : AffineRow} {x : Value}

/-- Applying a row adds up the products with the weights that are not zero. -/
theorem eval_eq_foldl (r : AffineRow) (x : Value) :
    r.eval x = (Quad.indices.filter fun j => !(r.weight j).isZero).foldl
      (fun acc j => acc + r.weight j * x j) r.offset := by
  rw [List.foldl_filter, eval]
  congr
  funext acc j
  cases (r.weight j).isZero <;> rfl

theorem reduced_eval (hw : ∀ j, (r.weight j).isDefined = true) (ho : r.offset.Reduced)
    (hx : ∀ j, (x j).isDefined = true) : (r.eval x).Reduced := by
  rw [eval_eq_foldl]
  exact Fraction.reduced_foldl hw hx _ _ ho

theorem value_eval (hw : ∀ j, (r.weight j).isDefined = true) (ho : r.offset.Reduced)
    (hx : ∀ j, (x j).isDefined = true) (h : Fraction.SumFits r.weight x.get r.offset
      (Quad.indices.filter fun j => !(r.weight j).isZero)) :
    (r.eval x).value = ∑ j, (r.weight j).value * (x j).value + r.offset.value := by
  rw [eval_eq_foldl, Fraction.value_foldl hw hx ho.isDefined h, Fraction.sum_filter_isZero,
    Quad.sum_indices, Rat.add_comm]

end AffineRow

section Applying

variable {t : Affine} {op : Op} {x : Value}

theorem Op.reduced_eval (hk : op.kind = .affine t) (ht : t.Reduced)
    (hx : ∀ j, (x j).isDefined = true) (i : Fin 4) : ((op.eval x) i).Reduced := by
  rw [Op.get_eval_affine hk]
  exact AffineRow.reduced_eval (ht.weight i) (ht.offset i) hx

/-- **Applying a transform multiplies its matrix with the column of the inputs.** -/
theorem Op.column_eval (hk : op.kind = .affine t) (ht : t.Reduced)
    (hx : ∀ j, (x j).isDefined = true) (h : t.EvalFits x) :
    Affine.column (op.eval x) = t.matrix.mulVec (Affine.column x) := by
  funext i
  rw [Matrix.mulVec, dotProduct]
  induction i using Fin.lastCases with
  | last => rw [Affine.sum_matrix_last, Affine.column_last, Affine.column_last]
  | cast i =>
    rw [Affine.column_castSucc, Op.get_eval_affine hk,
      AffineRow.value_eval (ht.weight i) (ht.offset i) hx (h i), Affine.sum_matrix_castSucc,
      Affine.column_last, Rat.mul_one]
    simp only [Affine.column_castSucc]

end Applying

/-! ## 5. Composition and associativity -/

/-- **Composing is doing one after the other, and it is associative**, where no operation on
fractions rounds. The composition gives the outputs of the second transform on those of the first, as
fractions and not as numbers only; the two ways of composing three transforms agree with their
masks. -/
theorem Affine.andThen_composes :
    (∀ (t u : Affine) (first second fused : Op) (x : Value), first.kind = .affine t →
      second.kind = .affine u → fused.kind = .affine (t.andThen u) → t.Reduced → u.Reduced →
      (∀ j, (x j).isDefined = true) → t.ProductFits u → t.EvalFits x →
      u.EvalFits (first.eval x) → (t.andThen u).EvalFits x →
      fused.eval x = second.eval (first.eval x)) ∧
    ∀ t u v : Affine, t.Reduced → u.Reduced → v.Reduced → t.ProductFits u → u.ProductFits v →
      (t.andThen u).ProductFits v → t.ProductFits (u.andThen v) →
      (t.andThen u).andThen v = t.andThen (u.andThen v) := by
  constructor
  · intro t u first second fused x hfirst hsecond hfused ht hu hx hprod hevalt hevalu heval
    have hy : ∀ j, ((first.eval x) j).isDefined = true := fun j =>
      (first.reduced_eval hfirst ht hx j).isDefined
    have hcolumn : column (fused.eval x) = column (second.eval (first.eval x)) := calc
      column (fused.eval x)
      _ = (t.andThen u).matrix.mulVec (column x) := fused.column_eval hfused (ht.andThen hu) hx heval
      _ = (u.matrix * t.matrix).mulVec (column x) := by rw [matrix_andThen ht hu hprod]
      _ = u.matrix.mulVec (t.matrix.mulVec (column x)) := (Matrix.mulVec_mulVec ..).symm
      _ = u.matrix.mulVec (column (first.eval x)) := by rw [first.column_eval hfirst ht hx hevalt]
      _ = column (second.eval (first.eval x)) := (second.column_eval hsecond hu hy hevalu).symm
    refine Quad.ext_get fun i => Fraction.eq_of_value (fused.reduced_eval hfused (ht.andThen hu) hx i)
      (second.reduced_eval hsecond hu hy i) ?_
    rw [← column_castSucc, ← column_castSucc, hcolumn]
  · intro t u v ht hu hv htu huv hleft hright
    have hmatrix : ((t.andThen u).andThen v).matrix = (t.andThen (u.andThen v)).matrix := by
      rw [matrix_andThen (ht.andThen hu) hv hleft, matrix_andThen ht hu htu,
        matrix_andThen ht (hu.andThen hv) hright, matrix_andThen hu hv huv, Matrix.mul_assoc]
    have hentry : ∀ i j, productEntry (t.andThen u) v i j = productEntry t (u.andThen v) i j := by
      intro i j
      rw [← entry_andThen, ← entry_andThen]
      refine Fraction.eq_of_value ((ht.andThen hu).andThen hv i j) (ht.andThen (hu.andThen hv) i j) ?_
      rw [← matrix_castSucc, hmatrix, matrix_castSucc]
    unfold Affine.andThen at hentry ⊢
    simp only [hentry]

namespace Affine

/-- Half the first input goes to both of two outputs, with opposite signs; the fourth is constant. -/
def spreading : Affine :=
  .ofRows ⟨⟨⟨⟨1, 2⟩, ⟨1, 3⟩, .zero, .zero⟩, ⟨1, 6⟩⟩, ⟨⟨⟨-1, 2⟩, .ofInt 2, .zero, .zero⟩, .zero⟩,
    ⟨⟨.zero, .zero, ⟨3, 7⟩, .one⟩, ⟨-5, 4⟩⟩, ⟨⟨.zero, .zero, .zero, .zero⟩, .ofInt 7⟩⟩

/-- The two outputs are added up, so that the first input cancels. -/
def gathering : Affine :=
  .ofRows ⟨⟨⟨.ofInt 2, .ofInt 2, .zero, .zero⟩, .one⟩, ⟨⟨.zero, .zero, ⟨7, 3⟩, .zero⟩, .zero⟩,
    ⟨⟨.one, .zero, .zero, ⟨-1, 7⟩⟩, ⟨1, 9⟩⟩, unitRow 3⟩

/-- Four inputs, with and without a denominator. -/
def sample : Value := ⟨⟨5, 3⟩, ⟨-1, 2⟩, .ofInt 14, .ofNat 255⟩

/-- A weight that cancels is skipped in the composition only, and the outputs are the same. -/
theorem gathering_composes :
    (((spreading.andThen gathering).rows 0).weight 0).isZero = true ∧
    (Op.ofKind .f32 (.affine (spreading.andThen gathering))).eval sample =
      (Op.ofKind .f32 (.affine gathering)).eval
        ((Op.ofKind .f32 (.affine spreading)).eval sample) ∧
    (spreading.andThen gathering).andThen spreading =
      spreading.andThen (gathering.andThen spreading) := by
  obtain ⟨composes, associative⟩ := andThen_composes
  refine ⟨by decide +kernel, composes _ _ _ _ _ _ rfl rfl rfl ?_ ?_ ?_ ?_ ?_ ?_ ?_,
    associative _ _ _ ?_ ?_ ?_ ?_ ?_ ?_ ?_⟩ <;> decide +kernel

end Affine

end PixelConv
