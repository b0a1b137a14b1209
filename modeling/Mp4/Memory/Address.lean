import Mathlib.Algebra.Ring.Nat
import Mathlib.Tactic.Common

/-!
Address fields of the caches: 32-byte lines, an index of `n` bits and the tag above it.
-/

set_option autoImplicit false
set_option relaxedAutoImplicit false

namespace Mp4.Memory.Address

abbrev Word := BitVec 32
abbrev Line := BitVec 256
abbrev LineAddr := BitVec 27

instance neZeroFour : NeZero 4 := ⟨by decide⟩

instance neZeroEight : NeZero 8 := ⟨by decide⟩

def lineAddr (address : Word) : LineAddr := address.extractLsb' 5 27

def index (n : Nat) (address : Word) : BitVec n := address.extractLsb' 5 n

def tag (n : Nat) (address : Word) : BitVec (27 - n) := address.extractLsb' (5 + n) (27 - n)

/-- The index of the data arrays: the index connection, cut or extended to the width of
a port that keeps its default. -/
def dataIndex (n : Nat) (address : Word) : BitVec 3 := (index n address).setWidth 3

/-- The line address with a given tag in a given set. -/
def lineOf (t : BitVec 24) (s : BitVec 3) : LineAddr := t ++ s

def setIndex (l : LineAddr) : BitVec 3 := l.extractLsb' 0 3

theorem lineOf_tag (address : Word) :
    lineOf (tag 3 address) (index 3 address) = lineAddr address := by
  simp only [lineOf, tag, index, lineAddr]
  ext i hi
  grind

theorem setIndex_lineOf (t : BitVec 24) (s : BitVec 3) : setIndex (lineOf t s) = s := by
  simp only [lineOf, setIndex]
  ext i hi
  grind

theorem setIndex_lineAddr (address : Word) : setIndex (lineAddr address) = index 3 address := by
  simp only [setIndex, lineAddr, index]
  ext i hi
  grind

theorem lineOf_inj {t t' : BitVec 24} {s : BitVec 3} (h : lineOf t s = lineOf t' s) : t = t' := by
  ext i hi
  have bit := congrArg (fun l : LineAddr => l.getLsbD (i + 3)) h
  simp only [lineOf] at bit
  grind

theorem dataIndex_eq (address : Word) : dataIndex 3 address = index 3 address :=
  BitVec.setWidth_eq _

theorem lineAddr_append (l : LineAddr) : lineAddr (l ++ 0#5) = l := by
  simp only [lineAddr]
  ext i hi
  grind

theorem victim_eq (t : BitVec 24) (s : BitVec 3) :
    (t ++ s ++ 0#5).setWidth 32 = lineOf t s ++ 0#5 :=
  BitVec.setWidth_eq _

theorem lineAddr_victim (t : BitVec 24) (s : BitVec 3) :
    lineAddr ((t ++ s ++ 0#5).setWidth 32) = lineOf t s := by
  rw [victim_eq]
  exact lineAddr_append _

end Mp4.Memory.Address
