import Mp4.Memory.EightWay.Datapath
import Mp4.Memory.FourWay.Datapath

/-!
Both cache datapaths over the size parameter `s_index`. The data arrays are instantiated
without it and the tag arrays of `modular_cache_datapath` with a fixed width, so that the
sets are independent and the tags complete for some index widths only.
-/

set_option autoImplicit false
set_option relaxedAutoImplicit false

namespace Mp4.Memory.SetIndependence

open Mp4.Lib.Bits Mp4.Memory.Address Mp4.Memory.Arrays

variable {n : Nat}

section Fields

variable {x y : Word}

private theorem getLsbD_index {i : Nat} (here : i < n) :
    (index n x).getLsbD i = x.getLsbD (5 + i) := by
  rw [index, BitVec.getLsbD_extractLsb', decide_eq_true here, Bool.true_and]

private theorem getLsbD_tag {i : Nat} (here : i < 27 - n) :
    (tag n x).getLsbD i = x.getLsbD (5 + n + i) := by
  rw [tag, BitVec.getLsbD_extractLsb', decide_eq_true here, Bool.true_and]

private theorem getLsbD_lineAddr {i : Nat} (here : i < 27) :
    (lineAddr x).getLsbD i = x.getLsbD (5 + i) := by
  rw [lineAddr, BitVec.getLsbD_extractLsb', decide_eq_true here, Bool.true_and]

private theorem lineAddr_eq_iff (small : n ≤ 27) :
    lineAddr x = lineAddr y ↔ tag n x = tag n y ∧ index n x = index n y := by
  constructor
  · intro same
    have bits (i : Nat) (here : i < 27) : x.getLsbD (5 + i) = y.getLsbD (5 + i) := by
      rw [← getLsbD_lineAddr here, same, getLsbD_lineAddr here]
    constructor
    · apply BitVec.eq_of_getLsbD_eq
      intro i hi
      rw [getLsbD_tag hi, getLsbD_tag hi, Nat.add_assoc]
      exact bits (n + i) (by omega)
    · apply BitVec.eq_of_getLsbD_eq
      intro i hi
      rw [getLsbD_index hi, getLsbD_index hi]
      exact bits i (by omega)
  · rintro ⟨tags, indexes⟩
    apply BitVec.eq_of_getLsbD_eq
    intro i hi
    rw [getLsbD_lineAddr hi, getLsbD_lineAddr hi]
    by_cases low : i < n
    · rw [← getLsbD_index low, indexes, getLsbD_index low]
    · have high : i - n < 27 - n := by omega
      have place : 5 + n + (i - n) = 5 + i := by omega
      have bit := congrArg (fun t : BitVec (27 - n) => t.getLsbD (i - n)) tags
      simp only [getLsbD_tag high, place] at bit
      exact bit

private theorem dataIndex_inj (small : n ≤ 3) (same : dataIndex n x = dataIndex n y) :
    index n x = index n y := by
  apply BitVec.eq_of_getLsbD_eq
  intro i hi
  have bit := congrArg (fun d : BitVec 3 => d.getLsbD i) same
  simp only [dataIndex, BitVec.getLsbD_setWidth] at bit
  have inside : i < 3 := by omega
  rwa [decide_eq_true inside, Bool.true_and, Bool.true_and] at bit

private theorem dataIndex_shared (large : 3 < n) :
    index n 0#32 ≠ index n 0x100#32 ∧ dataIndex n 0#32 = dataIndex n 0x100#32 := by
  constructor
  · intro same
    have bit := congrArg (fun d : BitVec n => d.getLsbD 3) same
    simp only [getLsbD_index large] at bit
    exact absurd bit (by decide)
  · apply BitVec.eq_of_getLsbD_eq
    intro i hi
    have inside : i < n := by omega
    simp only [dataIndex, BitVec.getLsbD_setWidth, getLsbD_index inside]
    have three : i = 0 ∨ i = 1 ∨ i = 2 := by omega
    rcases three with rfl | rfl | rfl <;> rfl

private theorem tag_setWidth (large : 3 ≤ n) :
    ((tag n x).setWidth 24).setWidth (27 - n) = tag n x := by
  apply BitVec.eq_of_getLsbD_eq
  intro i hi
  have inside : i < 24 := by omega
  simp [hi, inside]

end Fields

namespace FourWay

open Mp4.Memory.FourWay.Datapath

/-- What one way returns for an address, while the control inputs are `l`. -/
structure Returned (n : Nat) where
  tag : BitVec (27 - n)
  valid : Bool
  dirty : Bool
  plru : BitVec 3
  line : Line

def returned (a : Arrays n) (y : Word) (l : Loads) (cachelineIn memWdata256 : Line)
    (memByteEnable256 : BitVec 32) (w : Fin 4) : Returned n where
  tag := tagArrayOut a y l.tagArrayLoad w
  valid := validOut a y l.validLoad l.validIn w
  dirty := dirtyOut a y l.dirtyLoad l.dirtyIn w
  plru := array l.lruLoad (index n y) (index n y) l.lruIn a.plru
  line := cacheLineDataOut a y l cachelineIn memWdata256 memByteEnable256 w

/-- A write through an address leaves alone what is returned for an address of another index. -/
def Independent (n : Nat) : Prop :=
  ∀ (a : Arrays n) (x y : Word) (l l' : Loads) (cachelineIn memWdata256 cachelineIn'
    memWdata256' : Line) (enable enable' : BitVec 32) (w : Fin 4), index n x ≠ index n y →
    returned (a.next x l cachelineIn memWdata256 enable) y l' cachelineIn' memWdata256' enable' w =
      returned a y l' cachelineIn' memWdata256' enable' w

/-- A way filled through an address is hit, in its set, by the addresses of its line alone. -/
def FullTag (n : Nat) : Prop :=
  ∀ (a : Arrays n) (x y : Word) (l : Loads) (cachelineIn memWdata256 : Line)
    (enable : BitVec 32) (w : Fin 4), l.tagArrayLoad w = true → l.validLoad w = true →
    l.validIn w = true → index n x = index n y →
    (hit (a.next x l cachelineIn memWdata256 enable) y (fun _ => false) (fun _ => false)
      (fun _ => false) w = true ↔ lineAddr x = lineAddr y)

def quiet : Loads where
  dirtyIn _ := false
  dirtyLoad _ := false
  validIn _ := false
  validLoad _ := false
  tagArrayLoad _ := false
  writeSelWay _ := 0b00#2
  writeReadSel _ := false
  lruLoad := false
  lruIn := 0#3

def refill : Loads := { quiet with writeSelWay := fun _ => 0b01#2 }

private theorem dataArray_next_of_ne {i j : BitVec n} {enable enable' : BitVec 32}
    {datain datain' : Line} {data : BitVec n → Line} (other : i ≠ j) :
    dataArray enable' j j datain' (dataArrayNext enable i datain data) =
      dataArray enable' j j datain' data := by
  have same : dataArrayNext enable i datain data j = data j :=
    Function.update_of_ne other.symm _ data
  rw [dataArray, dataArray, same]

private theorem dataArray_refilled {i j : BitVec n} {datain datain' : Line}
    {data : BitVec n → Line} (same : i = j) :
    dataArray 0#32 j j datain' (dataArrayNext (BitVec.allOnes 32) i datain data) = datain := by
  subst same
  rw [dataArray, if_pos rfl, mergeBytes_zero, dataArrayNext, Function.update_self]
  exact mergeBytes_allOnes _ _ (by decide)

theorem independent_of_le (small : n ≤ 3) : Independent n := by
  intro a x y l l' cachelineIn memWdata256 cachelineIn' memWdata256' enable enable' w other
  have otherData : dataIndex n x ≠ dataIndex n y := fun same => other (dataIndex_inj small same)
  simp only [returned, tagArrayOut, validOut, dirtyOut, cacheLineDataOut, Arrays.next,
    array_next_of_ne other, dataArray_next_of_ne otherData]

theorem not_independent (large : 3 < n) : ¬Independent n := by
  intro independent
  obtain ⟨other, shared⟩ := dataIndex_shared large
  have outs := independent (.reset fun _ _ => 0#256) 0#32 0x100#32 refill quiet 1#256 0#256 0#256
    0#256 0#32 0#32 0 other
  have line := congrArg (fun r : Returned n => r.line) outs
  have written : dataArray 0#32 (dataIndex n 0x100#32) (dataIndex n 0x100#32) 0#256
      (dataArrayNext (BitVec.allOnes 32) (dataIndex n 0#32) 1#256 fun _ => 0#256) = 1#256 :=
    dataArray_refilled shared
  have before : dataArray 0#32 (dataIndex n 0x100#32) (dataIndex n 0x100#32) 0#256
      (fun _ => 0#256) = 0#256 := by
    rw [dataArray, mergeBytes_zero, ite_self]
  have absurd : (1#256 : Line) = 0#256 := written.symm.trans (Eq.trans line before)
  exact Bool.false_ne_true (congrArg (fun b : Line => b.getLsbD 0) absurd).symm

private theorem fullTag_of_le (small : n ≤ 26) : FullTag n := by
  intro a x y l cachelineIn memWdata256 enable w tagLoad validLoad validIn same
  have tags : tagArrayOut (a.next x l cachelineIn memWdata256 enable) y (fun _ => false) w =
      tag n x := by
    rw [tagArrayOut, Arrays.next]
    dsimp only
    rw [array_loaded tagLoad rfl same]
  have valid : validOut (a.next x l cachelineIn memWdata256 enable) y (fun _ => false)
      (fun _ => false) w = true := by
    rw [validOut, Arrays.next]
    dsimp only
    rw [array_loaded validLoad rfl same, validIn]
  rw [hit, tags, valid, Bool.and_true, beq_iff_eq, lineAddr_eq_iff (n := n) (by omega), eq_comm]
  exact ⟨fun tags => ⟨tags, same⟩, And.left⟩

end FourWay

namespace EightWay

open Mp4.Memory.EightWay.Datapath

/-- A write through an address leaves alone what the output registers take for an address of
another index. -/
def Independent (n : Nat) : Prop :=
  ∀ (a : Arrays n) (x y : Word) (l l' : Loads) (cachelineIn memWdata256 cachelineIn'
    memWdata256' : Line), index n x ≠ index n y →
    Outs.next (a.next x l cachelineIn memWdata256) y l' cachelineIn' memWdata256' =
      Outs.next a y l' cachelineIn' memWdata256'

/-- A way filled through an address is hit, in its set, by the addresses of its line alone. -/
def FullTag (n : Nat) : Prop :=
  ∀ (a : Arrays n) (x y : Word) (l l' : Loads) (cachelineIn memWdata256 cachelineIn'
    memWdata256' : Line) (w : Fin 8), l.tagArrayLoad w = true → l.validLoad w = true →
    l.validIn w = true → l'.tagArrayLoad w = false → l'.validLoad w = false →
    index n x = index n y →
    (hit n (Outs.next (a.next x l cachelineIn memWdata256) y l' cachelineIn' memWdata256') y w =
      true ↔ lineAddr x = lineAddr y)

def quiet : Loads where
  dirtyIn _ := false
  dirtyLoad _ := false
  validIn _ := false
  validLoad _ := false
  tagArrayLoad _ := false
  writeSelWay _ := false
  writeReadSel _ := false
  lruLoad := false
  lruIn := 0#7

def refill : Loads :=
  { quiet with
    validIn := fun _ => true
    validLoad := fun _ => true
    tagArrayLoad := fun _ => true
    writeSelWay := fun _ => true }

theorem independent_of_le (small : n ≤ 3) : Independent n := by
  intro a x y l l' cachelineIn memWdata256 cachelineIn' memWdata256' other
  have otherData : dataIndex n x ≠ dataIndex n y := fun same => other (dataIndex_inj small same)
  simp only [Outs.next, Arrays.next, array_next_of_ne other, array_next_of_ne otherData]

theorem not_independent (large : 3 < n) : ¬Independent n := by
  intro independent
  obtain ⟨other, shared⟩ := dataIndex_shared large
  have outs := independent (.reset fun _ _ => 0#256) 0#32 0x100#32 refill quiet 1#256 0#256 0#256
    0#256 other
  have line := congrArg (fun o : Outs => o.data 0) outs
  have written : array false (dataIndex n 0x100#32) (dataIndex n 0x100#32) 0#256
      (arrayNext true (dataIndex n 0#32) 1#256 fun _ => 0#256) = 1#256 :=
    array_loaded rfl rfl shared
  have absurd : (1#256 : Line) = 0#256 := written.symm.trans line
  exact Bool.false_ne_true (congrArg (fun b : Line => b.getLsbD 0) absurd).symm

private theorem tagArrayOut_filled {a : Arrays n} {x y : Word} {l l' : Loads}
    {cachelineIn memWdata256
    cachelineIn' memWdata256' : Line} {w : Fin 8} (load : l.tagArrayLoad w = true)
    (noLoad : l'.tagArrayLoad w = false) (same : index n x = index n y) :
    tagArrayOut n (Outs.next (a.next x l cachelineIn memWdata256) y l' cachelineIn'
      memWdata256') w = ((tag n x).setWidth 24).setWidth (27 - n) := by
  rw [tagArrayOut, Outs.next, Arrays.next]
  dsimp only
  rw [array_loaded load noLoad same]

private theorem fullTag_of_le (large : 3 ≤ n) (small : n ≤ 26) : FullTag n := by
  intro a x y l l' cachelineIn memWdata256 cachelineIn' memWdata256' w tagLoad validLoad validIn
    tagQuiet validQuiet same
  have valid : (Outs.next (a.next x l cachelineIn memWdata256) y l' cachelineIn'
      memWdata256').valid w = true := by
    rw [Outs.next, Arrays.next]
    dsimp only
    rw [array_loaded validLoad validQuiet same, validIn]
  rw [hit, tagArrayOut_filled tagLoad tagQuiet same, tag_setWidth large, valid, Bool.and_true,
    beq_iff_eq, lineAddr_eq_iff (n := n) (by omega), eq_comm]
  exact ⟨fun tags => ⟨tags, same⟩, And.left⟩

private theorem not_fullTag (small : n < 3) : ¬FullTag n := by
  intro full
  have hits := (full (.reset fun _ _ => 0#256) 0x80000000#32 0x80000000#32 refill quiet 0#256
    0#256 0#256 0#256 0 rfl rfl rfl rfl rfl rfl).mpr rfl
  rw [hit, Bool.and_eq_true, beq_iff_eq, tagArrayOut_filled rfl rfl rfl] at hits
  have bit := congrArg (fun t : BitVec (27 - n) => t.getLsbD (26 - n)) hits.1
  have inside : 26 - n < 27 - n := by omega
  have beyond : ¬26 - n < 24 := by omega
  have top : 5 + n + (26 - n) = 31 := by omega
  simp only [getLsbD_tag inside, top, BitVec.getLsbD_setWidth, beyond, decide_false,
    Bool.false_and, Bool.and_false] at bit
  exact absurd bit (by decide)

end EightWay

/-- Over all sizes, `cache_datapath_4` keeps its sets apart and its tags whole up to three
index bits, and `modular_cache_datapath` at three. -/
theorem set_independence_iff (n : Nat) (positive : 1 ≤ n) (small : n ≤ 26) :
    ((FourWay.Independent n ∧ FourWay.FullTag n) ↔ n ≤ 3) ∧
      ((EightWay.Independent n ∧ EightWay.FullTag n) ↔ n = 3) := by
  constructor
  · constructor
    · rintro ⟨independent, -⟩
      by_contra large
      exact FourWay.not_independent (by omega) independent
    · intro few
      exact ⟨FourWay.independent_of_le few, FourWay.fullTag_of_le small⟩
  · constructor
    · rintro ⟨independent, full⟩
      have few : ¬3 < n := fun large => EightWay.not_independent large independent
      have many : ¬n < 3 := fun less => EightWay.not_fullTag less full
      omega
    · rintro rfl
      exact ⟨EightWay.independent_of_le le_rfl, EightWay.fullTag_of_le le_rfl small⟩

theorem set_independence_iff_default :
    (FourWay.Independent 3 ∧ FourWay.FullTag 3) ∧ EightWay.Independent 3 ∧ EightWay.FullTag 3 :=
  ⟨(set_independence_iff 3 (by decide) (by decide)).1.mpr le_rfl,
    (set_independence_iff 3 (by decide) (by decide)).2.mpr rfl⟩

/-- With four index bits both share lines between sets, and with two the tags of the eight-way
cache are cut. -/
theorem set_independence_fails :
    ¬FourWay.Independent 4 ∧ ¬EightWay.Independent 4 ∧ ¬EightWay.FullTag 2 :=
  ⟨FourWay.not_independent (by decide), EightWay.not_independent (by decide),
    EightWay.not_fullTag (by decide)⟩

end Mp4.Memory.SetIndependence
