import Mp4.Lib.ByteMemory
import Mp4.Memory.FourWay.Moves
import Mathlib.Data.List.Basic

/-!
A memory of lines as a memory of words: `address[4:2]` selects a word of the line, and a
masked write of a word changes that word and no other.
-/

set_option autoImplicit false
set_option relaxedAutoImplicit false

namespace Mp4.Memory.LineWords

open Mp4.Lib.Bits Mp4.Lib.ByteMemory Mp4.Memory.Address
open Mp4.Memory.FourWay.Refinement

def words (flat : LineAddr → Line) : Words 30 :=
  fun a => readWord (flat (lineAddr (a ++ 0#2))) (a ++ 0#2)

def linesOf (w : Words 30) : LineAddr → Line :=
  fun l => ofBits fun i => (w (l ++ BitVec.ofNat 3 (i.val / 32))).getLsbD (i.val % 32)

variable {flat : LineAddr → Line} {line : Line} {address b wdata : Word} {byteEnable : BitVec 4}

theorem lineAddr_base (address : Word) :
    lineAddr ((wordAddress address : BitVec 30) ++ 0#2) = lineAddr address := by
  simp only [lineAddr, wordAddress]
  ext i hi
  grind

private theorem select_base (address : Word) :
    ((wordAddress address : BitVec 30) ++ 0#2).extractLsb' 2 3 = address.extractLsb' 2 3 := by
  simp only [wordAddress]
  ext i hi
  grind

theorem readWord_words (flat : LineAddr → Line) (address : Word) :
    readWord (flat (lineAddr address)) address = words flat (wordAddress address) := by
  rw [words, lineAddr_base, readWord, readWord, select_base]

private theorem wordAddress_eq_of_select (sameLine : lineAddr b = lineAddr address)
    (same : b.extractLsb' 2 3 = address.extractLsb' 2 3) :
    (wordAddress b : BitVec 30) = wordAddress address := by
  simp only [wordAddress, lineAddr] at *
  ext i hi
  by_cases low : i < 3
  · have bit := congrArg (fun x : BitVec 3 => x.getLsbD i) same
    grind
  · have bit := congrArg (fun x : BitVec 27 => x.getLsbD (i - 3)) sameLine
    grind

private theorem getLsbD_writeWord {j : Nat} (inside : j < 256) :
    (writeWord line address wdata byteEnable).getLsbD j =
      if 4 * (address.extractLsb' 2 3).toNat ≤ j / 8 ∧
          byteEnable.getLsbD (j / 8 - 4 * (address.extractLsb' 2 3).toNat) = true then
        wdata.getLsbD (j - 8 * (4 * (address.extractLsb' 2 3).toNat))
      else line.getLsbD j := by
  rw [BitVec.getLsbD_eq_getElem inside, writeWord, getElem_ofBits, base_eq,
    BitVec.getLsbD_eq_getElem inside]
  rfl

private theorem getElem_readWord {i : Nat} (hi : i < 32) :
    (readWord line b)[i] = line.getLsbD (8 * (4 * (b.extractLsb' 2 3).toNat) + i) := by
  rw [readWord, base_eq, BitVec.getElem_extractLsb']

private theorem readWord_writeWord_same (same : b.extractLsb' 2 3 = address.extractLsb' 2 3) :
    readWord (writeWord line address wdata byteEnable) b =
      mergeBytes byteEnable wdata (readWord line b) := by
  have small : (address.extractLsb' 2 3).toNat < 8 := (address.extractLsb' 2 3).isLt
  ext i hi
  rw [getElem_readWord hi, getElem_mergeBytes, getElem_readWord hi, same,
    getLsbD_writeWord (by omega)]
  generalize (address.extractLsb' 2 3).toNat = k at small
  have byte : (8 * (4 * k) + i) / 8 - 4 * k = i / 8 := by omega
  have bit : 8 * (4 * k) + i - 8 * (4 * k) = i := by omega
  have here : 4 * k ≤ (8 * (4 * k) + i) / 8 := by omega
  rw [byte, bit]
  simp only [here, true_and]
  split_ifs with enabled
  · exact BitVec.getLsbD_eq_getElem hi
  · rfl

private theorem readWord_writeWord_other (other : b.extractLsb' 2 3 ≠ address.extractLsb' 2 3) :
    readWord (writeWord line address wdata byteEnable) b = readWord line b := by
  have small : (b.extractLsb' 2 3).toNat < 8 := (b.extractLsb' 2 3).isLt
  have apart : (b.extractLsb' 2 3).toNat ≠ (address.extractLsb' 2 3).toNat := by
    intro same
    exact other (BitVec.eq_of_toNat_eq same)
  ext i hi
  rw [getElem_readWord hi, getElem_readWord hi, getLsbD_writeWord (by omega)]
  generalize (address.extractLsb' 2 3).toNat = k at apart
  generalize (b.extractLsb' 2 3).toNat = j at apart small
  apply if_neg
  rintro ⟨above, enabled⟩
  rw [BitVec.getLsbD_of_ge _ _ (by omega)] at enabled
  cases enabled

theorem words_update (flat : LineAddr → Line) (address wdata : Word) (byteEnable : BitVec 4) :
    words (Function.update flat (lineAddr address)
        (writeWord (flat (lineAddr address)) address wdata byteEnable)) =
      Function.update (words flat) (wordAddress address)
        (mergeBytes byteEnable wdata (words flat (wordAddress address))) := by
  funext a
  have home : (wordAddress (a ++ 0#2) : BitVec 30) = a := by
    simp only [wordAddress]
    ext i hi
    grind
  by_cases here : a = wordAddress address
  · have sameLine : lineAddr (a ++ 0#2) = lineAddr address := here ▸ lineAddr_base address
    have same : (a ++ 0#2).extractLsb' 2 3 = address.extractLsb' 2 3 := here ▸ select_base address
    rw [words, sameLine, Function.update_self, readWord_writeWord_same same, ← here,
      Function.update_self, words, sameLine]
  · rw [Function.update_of_ne here, words, words]
    by_cases sameLine : lineAddr (a ++ 0#2) = lineAddr address
    · rw [sameLine, Function.update_self, readWord_writeWord_other]
      intro same
      exact here (home.symm.trans (wordAddress_eq_of_select sameLine same))
    · rw [Function.update_of_ne sameLine]

theorem words_linesOf (w : Words 30) : words (linesOf w) = w := by
  funext a
  have small : ((a ++ 0#2).extractLsb' 2 3).toNat < 8 := ((a ++ 0#2).extractLsb' 2 3).isLt
  have home : lineAddr (a ++ 0#2) ++
      BitVec.ofNat 3 ((a ++ 0#2).extractLsb' 2 3).toNat = a := by
    rw [BitVec.ofNat_toNat, BitVec.setWidth_eq, lineAddr]
    ext i hi
    grind
  ext i hi
  have word : (8 * (4 * ((a ++ 0#2).extractLsb' 2 3).toNat) + i) / 32 =
      ((a ++ 0#2).extractLsb' 2 3).toNat := by omega
  have bit : (8 * (4 * ((a ++ 0#2).extractLsb' 2 3).toNat) + i) % 32 = i := by omega
  rw [words, getElem_readWord hi, BitVec.getLsbD_eq_getElem (by omega), linesOf, getElem_ofBits]
  dsimp only
  rw [word, bit, home]
  exact BitVec.getLsbD_eq_getElem hi

end Mp4.Memory.LineWords
