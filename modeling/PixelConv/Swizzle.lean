import PixelConv.Quad

/-!
# Swizzles

A swizzle copies components: each output names the input it takes. Only the two low bits of a name
count when it is followed.
-/

namespace PixelConv

/-- For each output component, the input component it copies. -/
structure Swizzle where
  order : Quad Nat
deriving DecidableEq

namespace Swizzle

/-- Every component copies itself. -/
def identity : Swizzle := ⟨⟨0, 1, 2, 3⟩⟩

/-- The input component that output `i` copies. -/
def source (s : Swizzle) (i : Fin 4) : Fin 4 := Fin.ofNat 4 (s.order i)

/-- Copies the components of a value. -/
def apply {α : Type} (s : Swizzle) (q : Quad α) : Quad α := Quad.ofFn fun i => q (s.source i)

/-- The swizzle that does `s` and then `t`. -/
def andThen (s t : Swizzle) : Swizzle := ⟨t.apply s.order⟩

@[simp] theorem get_apply {α : Type} (s : Swizzle) (q : Quad α) (i : Fin 4) :
    (s.apply q) i = q (s.source i) := by
  simp only [apply, Quad.get_ofFn]

theorem source_andThen (s t : Swizzle) (i : Fin 4) :
    (s.andThen t).source i = s.source (t.source i) := by
  rw [source, andThen, get_apply]
  rfl

end Swizzle

end PixelConv
