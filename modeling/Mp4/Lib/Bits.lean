import Mathlib.Tactic.Common

/-!
Bit vectors given bit by bit, the assignment of one bit or of one slice, and the write of
a word under a byte enable, where bit `i` is replaced when the enable of byte `i / 8` is
set.
-/

set_option autoImplicit false
set_option relaxedAutoImplicit false

namespace Mp4.Lib.Bits

variable {m w : Nat}

def ofBits (f : Fin w → Bool) : BitVec w := (BitVec.iunfoldr (fun i (_ : Unit) => ((), f i)) ()).2

@[simp, grind =] theorem getElem_ofBits (f : Fin w → Bool) (i : Nat) (hi : i < w) :
    (ofBits f)[i] = f ⟨i, hi⟩ :=
  BitVec.iunfoldr_getLsbD (fun _ => ()) ⟨i, hi⟩ fun _ => rfl

/-- The assignment `x[i] = b`. -/
def setBit (x : BitVec w) (i : Nat) (b : Bool) : BitVec w :=
  ofBits fun j => if j.val = i then b else x[j]

@[simp, grind =] theorem getElem_setBit (x : BitVec w) (i : Nat) (b : Bool) (j : Nat)
    (hj : j < w) : (setBit x i b)[j] = if j = i then b else x[j] := by
  simp [setBit]

/-- The word after a write of `new` over `old`. -/
def mergeBytes (enable : BitVec m) (new old : BitVec w) : BitVec w :=
  ofBits fun i => if enable.getLsbD (i.val / 8) then new[i] else old[i]

@[simp, grind =] theorem getElem_mergeBytes (enable : BitVec m) (new old : BitVec w) (i : Nat)
    (hi : i < w) :
    (mergeBytes enable new old)[i] = if enable.getLsbD (i / 8) then new[i] else old[i] := by
  simp [mergeBytes]

theorem mergeBytes_twice (enable : BitVec m) (new old : BitVec w) :
    mergeBytes enable new (mergeBytes enable new old) = mergeBytes enable new old := by
  ext i hi
  simp only [getElem_mergeBytes]
  split <;> rfl

theorem mergeBytes_zero (new old : BitVec w) : mergeBytes (0#m) new old = old := by
  ext i hi
  simp

theorem mergeBytes_allOnes (new old : BitVec w) (wide : w ≤ 8 * m) :
    mergeBytes (BitVec.allOnes m) new old = new := by
  ext i hi
  have inside : i / 8 < m := by omega
  simp [inside]

/-- The slice `x[w*k +: w]`. -/
def slice (w : Nat) (x : BitVec m) (k : Nat) : BitVec w := x.extractLsb' (w * k) w

/-- The assignment `x[w*k +: w] = b`. -/
def setSlice (x : BitVec m) (k : Nat) (b : BitVec w) : BitVec m :=
  ofBits fun i => if i.val / w = k then b.getLsbD (i.val % w) else x[i]

theorem slice_setSlice_same (x : BitVec m) {k : Nat} (b : BitVec w) (inside : w * k + w ≤ m) :
    slice w (setSlice x k b) k = b := by
  ext i hi
  have here : (w * k + i) / w = k := by
    rw [Nat.mul_add_div (by omega), Nat.div_eq_of_lt hi, Nat.add_zero]
  have bit : (w * k + i) % w = i := by rw [Nat.mul_add_mod, Nat.mod_eq_of_lt hi]
  rw [slice, BitVec.getElem_extractLsb', BitVec.getLsbD_eq_getElem (by omega), setSlice,
    getElem_ofBits]
  dsimp only
  rw [if_pos here, bit, BitVec.getLsbD_eq_getElem hi]

theorem slice_setSlice_other (x : BitVec m) {j k : Nat} (b : BitVec w) (ne : j ≠ k) :
    slice w (setSlice x k b) j = slice w x j := by
  ext i hi
  have there : (w * j + i) / w = j := by
    rw [Nat.mul_add_div (by omega), Nat.div_eq_of_lt hi, Nat.add_zero]
  rw [slice, slice, BitVec.getElem_extractLsb', BitVec.getElem_extractLsb']
  by_cases inside : w * j + i < m
  · rw [BitVec.getLsbD_eq_getElem inside, BitVec.getLsbD_eq_getElem inside, setSlice,
      getElem_ofBits]
    dsimp only
    rw [if_neg (by rw [there]; exact ne)]
    rfl
  · rw [BitVec.getLsbD_of_ge _ _ (by omega), BitVec.getLsbD_of_ge _ _ (by omega)]

def slices (w : Nat) (x : BitVec m) (n : Nat) : List (BitVec w) := (List.range n).map (slice w x)

theorem slices_succ (x : BitVec m) (n : Nat) :
    slices w x (n + 1) = slices w x n ++ [slice w x n] := by
  simp [slices, List.range_succ]

theorem slice_mergeBytes (enable : BitVec m) (new old : BitVec w) {j : Nat}
    (inside : 8 * j + 8 ≤ w) :
    slice 8 (mergeBytes enable new old) j =
      if enable.getLsbD j then slice 8 new j else slice 8 old j := by
  ext i hi
  have byte : (8 * j + i) / 8 = j := by omega
  rw [slice, BitVec.getElem_extractLsb', BitVec.getLsbD_eq_getElem (by omega),
    getElem_mergeBytes, byte]
  split_ifs with enabled <;>
    rw [slice, BitVec.getElem_extractLsb', BitVec.getLsbD_eq_getElem (by omega)]

theorem slices_setSlice (x : BitVec m) (k : Nat) (b : BitVec w) :
    slices w (setSlice x k b) k = slices w x k := by
  refine List.map_congr_left fun j below => ?_
  exact slice_setSlice_other x b (Nat.ne_of_lt (List.mem_range.mp below))

theorem slices_setSlice_succ (x : BitVec m) {k : Nat} (b : BitVec w) (inside : w * k + w ≤ m) :
    slices w (setSlice x k b) (k + 1) = slices w x k ++ [b] := by
  rw [slices_succ, slices_setSlice, slice_setSlice_same x b inside]

theorem eq_of_slices {x y : BitVec m} {n : Nat} (whole : m = w * n)
    (same : slices w x n = slices w y n) : x = y := by
  have each : ∀ k, k < n → slice w x k = slice w y k := by
    intro k inside
    exact List.map_inj_left.mp same k (List.mem_range.mpr inside)
  ext i hi
  have positive : 0 < w := by
    rcases Nat.eq_zero_or_pos w with zero | positive
    · subst zero
      omega
    · exact positive
  have bit := congrArg (fun b : BitVec w => b.getLsbD (i % w))
    (each (i / w) (Nat.div_lt_of_lt_mul (whole ▸ hi)))
  have inside := Nat.mod_lt i positive
  simpa [slice, inside, Nat.div_add_mod, BitVec.getLsbD_eq_getElem hi] using bit

end Mp4.Lib.Bits
