import Mp4.Lib.WriteBack

/-!
`array_4_way` and `modular_array`: one word per set, and a read port that sees a write of
the same cycle. The first drives the port, the second registers it.
-/

set_option autoImplicit false
set_option relaxedAutoImplicit false

namespace Mp4.Memory.Arrays

open Mp4.Lib.WriteBack

universe u v

variable {n : Nat} {α : Type u}

/-- The word at the read port. -/
def array (load : Bool) (rindex windex : BitVec n) (datain : α) (data : BitVec n → α) : α :=
  if load && rindex == windex then datain else data rindex

def arrayNext (load : Bool) (windex : BitVec n) (datain : α) (data : BitVec n → α) :
    BitVec n → α :=
  if load then Function.update data windex datain else data

theorem array_eq_next (load : Bool) (i : BitVec n) (datain : α) (data : BitVec n → α) :
    array load i i datain data = arrayNext load i datain data i := by
  cases load <;> simp [array, arrayNext]

theorem array_next_of_ne {load load' : Bool} {i j : BitVec n} {datain datain' : α}
    {data : BitVec n → α} (other : i ≠ j) :
    array load' j j datain' (arrayNext load i datain data) = array load' j j datain' data := by
  cases load with
  | false => rfl
  | true =>
    have same : arrayNext true i datain data j = data j := Function.update_of_ne other.symm _ data
    rw [array, array, same]

theorem array_loaded {load load' : Bool} {i j : BitVec n} {datain datain' : α}
    {data : BitVec n → α} (loaded : load = true) (quiet : load' = false) (same : i = j) :
    array load' j j datain' (arrayNext load i datain data) = datain := by
  subst loaded quiet same
  exact Function.update_self i datain data

section Ways

variable {W : Type v} {s : BitVec n} {f : W → BitVec n → α} {load : W → Bool} {x : W → α}

theorem arrayNext_only [DecidableEq W] {w : W} (only : ∀ w', load w' = (w' == w)) :
    (fun w' => arrayNext (load w') s (x w') (f w')) = put f w s (x w) := by
  funext w' s'
  by_cases this : w' = w
  · subst this
    by_cases here : s' = s
    · simp [arrayNext, only, here]
    · simp [arrayNext, only, put, here]
  · simp [arrayNext, only, put, this]

theorem arrayNext_none (none : ∀ w', load w' = false) :
    (fun w' => arrayNext (load w') s (x w') (f w')) = f := by
  funext w'
  simp [arrayNext, none]

end Ways

end Mp4.Memory.Arrays
