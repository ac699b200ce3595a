import PixelConv.Proofs.ExactArithmetic
import PixelConv.Proofs.Fields

/-!
# Exact values through a program

The exact evaluation of operations one after the other, for a pixel that is loaded from memory
(`evalAll`), and the operations whose constants have a value (`Op.Definite`).
-/

namespace PixelConv

/-! ## 1. Runs -/

/-- The effect of an operation on exact values, for a pixel whose elements in memory are `src`. -/
def Op.evalFrom (src : Value) (op : Op) (x : Value) : Value :=
  match op.kind with
  | .read l => Quad.ofFn fun c => if c.val < l.count then src c else x c
  | _ => op.eval x

/-- The effect of operations one after the other. -/
def evalAll (src : Value) (ops : List Op) (x : Value) : Value :=
  ops.foldl (fun x op => op.evalFrom src x) x

@[simp] theorem evalAll_cons (src : Value) (op : Op) (ops : List Op) (x : Value) :
    evalAll src (op :: ops) x = evalAll src ops (op.evalFrom src x) := rfl

theorem Op.evalFrom_of_ne_read {op : Op} (h : ∀ l, op.kind ≠ .read l) (src x : Value) :
    op.evalFrom src x = op.eval x := by
  unfold Op.evalFrom
  split
  · rename_i l hl
    exact absurd hl (h l)
  · rfl

/-- Shifts and scales of integers wrap around. -/
theorem Op.get_eval (op : Op) (x : Value) (c : Fin 4) :
    (op.eval x) c = if op.elem.isInt && op.kind.wraps then
      ((op.evalRaw x) c).wrap (2 ^ op.elem.bits) else (op.evalRaw x) c := by
  unfold Op.eval
  cases hint : op.elem.isInt with
  | false => simp only [Elem.top?, hint, Bool.false_eq_true, if_false, Bool.false_and]
  | true =>
    have hpow : 2 ^ op.elem.bits - 1 + 1 = 2 ^ op.elem.bits :=
      Nat.sub_add_cancel (Nat.two_pow_pos _)
    simp only [Elem.top?_of_isInt hint, hpow, Bool.true_and]
    split
    · rw [Quad.get_map]
    · rfl

theorem Op.get_eval_of_not_wraps {op : Op} (h : op.kind.wraps = false) (x : Value) (c : Fin 4) :
    (op.eval x) c = (op.evalRaw x) c := by
  rw [Op.get_eval, h, Bool.and_false, if_neg Bool.false_ne_true]

/-! ## 2. Constants -/

/-- The constants of the operation have a value: shifts by less than a term has places, defined
factors and weights, constants in lowest terms, and fields without gaps. -/
def Op.Definite (op : Op) : Prop :=
  match op.kind with
  | .unpack widths => BitField.Leading widths
  | .clear values => ∀ c q, values c = some q → q.Lowest
  | .shiftLeft n => n < 64
  | .scale factor => factor.isDefined = true
  | .affine t => ∀ i, (t.rows i).offset.Lowest ∧ ∀ j, ((t.rows i).weight j).isDefined = true
  | _ => True

theorem Elem.max?_of_float {e : Elem} (h : e.isInt = false) : e.max? = none := by
  rw [Elem.max?, Elem.top?, h]
  rfl

namespace Fraction

theorem isDefined_shiftFactor {n : Nat} (h : n < 64) : (shiftFactor n).isDefined = true := by
  unfold shiftFactor
  split
  · rfl
  · rw [if_pos (by omega)]
    rfl

theorem whole_shiftFactor (n : Nat) : (shiftFactor n).Whole := by
  unfold shiftFactor
  split
  · exact whole_ofInt _
  · split
    · exact whole_ofInt _
    · exact whole_undefined

theorem isDefined_expansion (source target : Elem) : (source.expansion target).isDefined = true := by
  cases source <;> cases target <;> decide

/-- Integers are spread over a wider range by a whole factor. -/
theorem isInteger_expansion (source : Elem) {target : Elem} (h : target.isInt = true) :
    (source.expansion target).isInteger = true := by
  cases target with
  | f32 => cases h
  | u8 | u16 | u32 => cases source <;> decide

end Fraction

/-- What is gathered comes from the components that have a field. -/
theorem Value.mem_gathered {x : Value} {fields : Quad BitField} {n : Nat} {qf : Fraction × BitField}
    (h : qf ∈ (x.toList.zip fields.toList).take n) : ∃ c : Fin 4, c.val < n ∧ qf.1 = x c := by
  obtain ⟨k, hk, rfl⟩ := List.mem_take_iff_getElem.mp h
  have hk4 : k < 4 := Nat.lt_of_lt_of_le hk (Nat.min_le_right _ _)
  refine ⟨⟨k, hk4⟩, Nat.lt_of_lt_of_le hk (Nat.min_le_left _ _), ?_⟩
  have hget := Quad.getElem?_toList x ⟨k, hk4⟩
  rw [List.getElem?_eq_getElem hk4] at hget
  rw [List.getElem_zip]
  exact Option.some.inj hget

end PixelConv
