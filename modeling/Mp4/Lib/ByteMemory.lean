import Mp4.Lib.Bits
import Mathlib.Algebra.Ring.Nat
import Mathlib.Logic.Function.Basic

/-!
A memory of bytes, and the same memory as one of words of four bytes. An aligned access of
one, two or four bytes stays within a word.
-/

set_option autoImplicit false
set_option relaxedAutoImplicit false

namespace Mp4.Lib.ByteMemory

open Mp4.Lib.Bits

abbrev Bytes (m : Nat) := BitVec (m + 2) → BitVec 8

abbrev Words (m : Nat) := BitVec m → BitVec 32

variable {m n w : Nat} {mem mem' : Bytes m} {address : BitVec (m + 2)} {value : BitVec w}

/-- The `n` bytes from an address on, the lowest first. -/
def loadBytes (mem : Bytes m) (address : BitVec (m + 2)) (n : Nat) : BitVec (8 * n) :=
  ofBits fun i => (mem (address + BitVec.ofNat (m + 2) (i.val / 8))).getLsbD (i.val % 8)

/-- The memory after the `n` low bytes of a value are stored from an address on. -/
def storeBytes (mem : Bytes m) (address : BitVec (m + 2)) (n : Nat) (value : BitVec w) : Bytes m :=
  fun b => if (b - address).toNat < n then slice 8 value (b - address).toNat else mem b

def wordAddress (address : BitVec (m + 2)) : BitVec m := address.extractLsb' 2 m

/-- The words of a memory of bytes. -/
def wordsOf (mem : Bytes m) : Words m := fun a => loadBytes mem (a ++ 0#2) 4

def bytesOf (words : Words m) : Bytes m := fun b => slice 8 (words (wordAddress b)) (b.toNat % 4)

theorem loadBytes_congr (same : ∀ k < n, mem (address + BitVec.ofNat (m + 2) k) =
    mem' (address + BitVec.ofNat (m + 2) k)) :
    loadBytes mem address n = loadBytes mem' address n := by
  unfold loadBytes
  ext i hi
  rw [getElem_ofBits, getElem_ofBits]
  dsimp only
  rw [same (i / 8) (by omega)]

theorem slice_loadBytes {k : Nat} (inside : k < n) :
    slice 8 (loadBytes mem address n) k = mem (address + BitVec.ofNat (m + 2) k) := by
  ext i hi
  have bound : 8 * k + i < 8 * n := by omega
  have byte : (8 * k + i) / 8 = k := by omega
  have bit : (8 * k + i) % 8 = i := by omega
  rw [slice, BitVec.getElem_extractLsb', BitVec.getLsbD_eq_getElem bound, loadBytes,
    getElem_ofBits]
  dsimp only
  rw [byte, bit, BitVec.getLsbD_eq_getElem hi]

theorem toNat_wordAddress (address : BitVec (m + 2)) :
    (wordAddress address).toNat = address.toNat / 4 := by
  have bound : address.toNat / 4 < 2 ^ m := by
    have whole := address.isLt
    rw [Nat.pow_add] at whole
    omega
  rw [wordAddress, BitVec.extractLsb'_toNat, Nat.shiftRight_eq_div_pow, Nat.mod_eq_of_lt bound]

theorem wordAddress_eq_iff {b : BitVec (m + 2)} :
    wordAddress b = wordAddress address ↔ b.toNat / 4 = address.toNat / 4 := by
  rw [← BitVec.toNat_inj, toNat_wordAddress, toNat_wordAddress]

theorem toNat_offset {k : Nat} (room : address.toNat % 4 + k < 4) :
    (address + BitVec.ofNat (m + 2) k).toNat = address.toNat + k := by
  have whole := address.isLt
  have power : 2 ^ (m + 2) = 4 * 2 ^ m := by rw [Nat.pow_add, Nat.mul_comm]
  rw [power] at whole
  have positive : 0 < 2 ^ m := Nat.two_pow_pos m
  rw [BitVec.toNat_add, BitVec.toNat_ofNat, power, Nat.mod_eq_of_lt (a := k) (by omega),
    Nat.mod_eq_of_lt (by omega)]

theorem toNat_base (a : BitVec m) : (a ++ 0#2).toNat = 4 * a.toNat := by
  rw [BitVec.toNat_append]
  simp [Nat.shiftLeft_eq, Nat.mul_comm]

theorem toNat_byte (a : BitVec m) {k : Nat} (below : k < 4) :
    (a ++ 0#2 + BitVec.ofNat (m + 2) k).toNat = 4 * a.toNat + k := by
  have base := toNat_base a
  rw [toNat_offset (by omega), base]

theorem wordAddress_byte (a : BitVec m) {k : Nat} (below : k < 4) :
    wordAddress (a ++ 0#2 + BitVec.ofNat (m + 2) k) = a := by
  apply BitVec.eq_of_toNat_eq
  rw [toNat_wordAddress, toNat_byte a below]
  omega

theorem lane_byte (a : BitVec m) {k : Nat} (below : k < 4) :
    (a ++ 0#2 + BitVec.ofNat (m + 2) k).toNat % 4 = k := by
  rw [toNat_byte a below]
  omega

theorem slice_wordsOf (mem : Bytes m) (b : BitVec (m + 2)) :
    slice 8 (wordsOf mem (wordAddress b)) (b.toNat % 4) = mem b := by
  have lane : b.toNat % 4 < 4 := Nat.mod_lt _ (by decide)
  have base := toNat_base (wordAddress b)
  rw [toNat_wordAddress] at base
  have same : wordAddress b ++ 0#2 + BitVec.ofNat (m + 2) (b.toNat % 4) = b := by
    apply BitVec.eq_of_toNat_eq
    rw [toNat_offset (by omega), base]
    omega
  rw [wordsOf, slice_loadBytes lane, same]

theorem wordsOf_bytesOf (words : Words m) : wordsOf (bytesOf words) = words := by
  funext a
  apply eq_of_slices (w := 8) (n := 4) rfl
  apply List.map_congr_left
  intro k inside
  have below : k < 4 := List.mem_range.mp inside
  rw [wordsOf, slice_loadBytes below, bytesOf, wordAddress_byte a below, lane_byte a below]

theorem aligned_room (fits : n ∣ 4) (aligned : n ∣ address.toNat) :
    address.toNat % 4 + n ≤ 4 := by
  have small : n ≤ 4 := Nat.le_of_dvd (by decide) fits
  obtain ⟨q, whole⟩ := fits
  obtain ⟨p, here⟩ := aligned
  have sizes : n = 0 ∨ n = 1 ∨ n = 2 ∨ n = 3 ∨ n = 4 := by omega
  rcases sizes with rfl | rfl | rfl | rfl | rfl <;> omega

theorem loadBytes_aligned (fits : n ∣ 4) (aligned : n ∣ address.toNat) :
    loadBytes mem address n =
      (wordsOf mem (wordAddress address)).extractLsb' (8 * (address.toNat % 4)) (8 * n) := by
  have room := aligned_room fits aligned
  apply eq_of_slices (w := 8) (n := n) rfl
  apply List.map_congr_left
  intro k inside
  have below : k < n := List.mem_range.mp inside
  have there : (address + BitVec.ofNat (m + 2) k).toNat = address.toNat + k :=
    toNat_offset (by omega)
  have word : wordAddress (address + BitVec.ofNat (m + 2) k) = wordAddress address := by
    rw [wordAddress_eq_iff, there]
    omega
  have lane : (address + BitVec.ofNat (m + 2) k).toNat % 4 = address.toNat % 4 + k := by
    rw [there]
    omega
  rw [slice_loadBytes below, ← slice_wordsOf mem (address + BitVec.ofNat (m + 2) k), word, lane]
  unfold slice
  ext i hi
  grind

theorem toNat_sub (b : BitVec (m + 2)) : (b - address).toNat =
    if address.toNat ≤ b.toNat then b.toNat - address.toNat
    else 2 ^ (m + 2) + b.toNat - address.toNat := by
  have here := address.isLt
  have there := b.isLt
  rw [BitVec.toNat_sub]
  by_cases above : address.toNat ≤ b.toNat
  · have wraps : 2 ^ (m + 2) - address.toNat + b.toNat =
        b.toNat - address.toNat + 2 ^ (m + 2) := by omega
    rw [if_pos above, wraps, Nat.add_mod_right, Nat.mod_eq_of_lt (by omega)]
  · rw [if_neg above, Nat.mod_eq_of_lt (by omega)]
    omega

theorem stores_iff (fits : n ∣ 4) (aligned : n ∣ address.toNat) (b : BitVec (m + 2)) :
    (b - address).toNat < n ↔ wordAddress b = wordAddress address ∧
      address.toNat % 4 ≤ b.toNat % 4 ∧ b.toNat % 4 < address.toNat % 4 + n := by
  have room := aligned_room fits aligned
  have whole := address.isLt
  have power : 2 ^ (m + 2) = 4 * 2 ^ m := by rw [Nat.pow_add, Nat.mul_comm]
  rw [wordAddress_eq_iff, toNat_sub]
  rw [power] at whole ⊢
  split_ifs with above <;> omega

theorem storeBytes_other (fits : n ∣ 4) (aligned : n ∣ address.toNat) {b : BitVec (m + 2)}
    (other : wordAddress b ≠ wordAddress address) : storeBytes mem address n value b = mem b := by
  unfold storeBytes
  rw [if_neg]
  intro changes
  exact other ((stores_iff fits aligned b).mp changes).1

theorem wordsOf_storeBytes (fits : n ∣ 4) (aligned : n ∣ address.toNat) {word : BitVec 32}
    (lanes : ∀ j < 4, slice 8 word j =
      if address.toNat % 4 ≤ j ∧ j < address.toNat % 4 + n then
        slice 8 value (j - address.toNat % 4)
      else slice 8 (wordsOf mem (wordAddress address)) j) :
    wordsOf (storeBytes mem address n value) =
      Function.update (wordsOf mem) (wordAddress address) word := by
  funext a
  apply eq_of_slices (w := 8) (n := 4) rfl
  apply List.map_congr_left
  intro k inside
  have below : k < 4 := List.mem_range.mp inside
  have lane := lane_byte a below
  have home := wordAddress_byte a below
  have nat := toNat_byte a below
  rw [wordsOf, slice_loadBytes below]
  by_cases same : a = wordAddress address
  · have here := stores_iff fits aligned (a ++ 0#2 + BitVec.ofNat (m + 2) k)
    rw [home, lane] at here
    have quotient := toNat_wordAddress address
    rw [← same] at quotient
    rw [← same, Function.update_self, lanes k below]
    unfold storeBytes
    by_cases written : address.toNat % 4 ≤ k ∧ k < address.toNat % 4 + n
    · have above : (a ++ 0#2 + BitVec.ofNat (m + 2) k - address).toNat =
          k - address.toNat % 4 := by
        rw [toNat_sub, if_pos (by omega)]
        omega
      rw [if_pos (here.mpr ⟨same, written⟩), if_pos written, above]
    · rw [if_neg fun changes => written (here.mp changes).2, if_neg written, ← same, wordsOf,
        slice_loadBytes below]
  · rw [storeBytes_other fits aligned (by rw [home]; exact same), Function.update_of_ne same,
      wordsOf, slice_loadBytes below]

theorem wordsOf_storeBytes_other (fits : n ∣ 4) (aligned : n ∣ address.toNat) {a : BitVec m}
    (other : a ≠ wordAddress address) :
    wordsOf (storeBytes mem address n value) a = wordsOf mem a := by
  apply loadBytes_congr
  intro k below
  apply storeBytes_other fits aligned
  rw [wordAddress_byte a below]
  exact other

end Mp4.Lib.ByteMemory
