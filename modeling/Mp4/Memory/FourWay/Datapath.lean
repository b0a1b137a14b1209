import Mp4.Lib.Bits
import Mp4.Memory.Address
import Mp4.Memory.Arrays

/-!
The storage of `cache_4_way`, `data_array_4_way` included, whose read port sees a write
of the same cycle, the combinational part of `cache_datapath_4`, and `bus_adapter_4_way`. The
ways `1..4` of the source are `0..3` here. Every `read` input is tied to one by the
controller's defaults and is left out.
-/

set_option autoImplicit false
set_option relaxedAutoImplicit false

namespace Mp4.Memory.FourWay.Datapath

open Mp4.Lib.Bits Mp4.Memory.Address Mp4.Memory.Arrays

variable {n : Nat}

/-- `dataout` of `data_array_4_way`. -/
def dataArray (writeEn : BitVec 32) (rindex windex : BitVec n) (datain : Line)
    (data : BitVec n → Line) : Line :=
  if rindex = windex then mergeBytes writeEn datain (data rindex) else data rindex

def dataArrayNext (writeEn : BitVec 32) (windex : BitVec n) (datain : Line)
    (data : BitVec n → Line) : BitVec n → Line :=
  Function.update data windex (mergeBytes writeEn datain (data windex))

/-- The arrays of the four ways. The data arrays are instantiated with their default
index width of 3, whatever the other arrays have. -/
structure Arrays (n : Nat) where
  tags : Fin 4 → BitVec n → BitVec (27 - n)
  valid : Fin 4 → BitVec n → Bool
  dirty : Fin 4 → BitVec n → Bool
  plru : BitVec n → BitVec 3
  data : Fin 4 → BitVec 3 → Line

structure Loads where
  dirtyIn : Fin 4 → Bool
  dirtyLoad : Fin 4 → Bool
  validIn : Fin 4 → Bool
  validLoad : Fin 4 → Bool
  tagArrayLoad : Fin 4 → Bool
  writeSelWay : Fin 4 → BitVec 2
  writeReadSel : Fin 4 → Bool
  lruLoad : Bool
  lruIn : BitVec 3

section Outputs

variable (a : Arrays n) (address : Word)

/-- `tag_array*_out`. -/
def tagArrayOut (tagArrayLoad : Fin 4 → Bool) (w : Fin 4) : BitVec (27 - n) :=
  array (tagArrayLoad w) (index n address) (index n address) (tag n address) (a.tags w)

/-- `valid_*_out`. -/
def validOut (validLoad validIn : Fin 4 → Bool) (w : Fin 4) : Bool :=
  array (validLoad w) (index n address) (index n address) (validIn w) (a.valid w)

/-- `Dirty*_out`. -/
def dirtyOut (dirtyLoad dirtyIn : Fin 4 → Bool) (w : Fin 4) : Bool :=
  array (dirtyLoad w) (index n address) (index n address) (dirtyIn w) (a.dirty w)

/-- `hit*`. -/
def hit (tagArrayLoad validLoad validIn : Fin 4 → Bool) (w : Fin 4) : Bool :=
  tag n address == tagArrayOut a address tagArrayLoad w &&
    validOut a address validLoad validIn w

/-- `data_in_*`. -/
def dataIn (writeReadSel : Fin 4 → Bool) (cachelineIn memWdata256 : Line) (w : Fin 4) : Line :=
  if writeReadSel w then memWdata256 else cachelineIn

/-- `write_en_way_*`. -/
def writeEnWay (writeSelWay : Fin 4 → BitVec 2) (memByteEnable256 : BitVec 32) (w : Fin 4) :
    BitVec 32 :=
  if writeSelWay w = 0b10#2 then memByteEnable256
  else if writeSelWay w = 0b01#2 then BitVec.allOnes 32
  else 0#32

/-- `cache_line_data_out_*`. -/
def cacheLineDataOut (l : Loads) (cachelineIn memWdata256 : Line) (memByteEnable256 : BitVec 32)
    (w : Fin 4) : Line :=
  dataArray (writeEnWay l.writeSelWay memByteEnable256 w) (dataIndex n address)
    (dataIndex n address) (dataIn l.writeReadSel cachelineIn memWdata256 w) (a.data w)

/-- `new_address`. -/
def newAddress (newAddressSel : Bool) (tagOut : BitVec (27 - n)) : Word :=
  if newAddressSel then (tagOut ++ index n address ++ 0#5).setWidth 32
  else lineAddr address ++ 0#5

def Arrays.next (l : Loads) (cachelineIn memWdata256 : Line) (memByteEnable256 : BitVec 32) :
    Arrays n where
  tags w := arrayNext (l.tagArrayLoad w) (index n address) (tag n address) (a.tags w)
  valid w := arrayNext (l.validLoad w) (index n address) (l.validIn w) (a.valid w)
  dirty w := arrayNext (l.dirtyLoad w) (index n address) (l.dirtyIn w) (a.dirty w)
  plru := arrayNext l.lruLoad (index n address) l.lruIn a.plru
  data w := dataArrayNext (writeEnWay l.writeSelWay memByteEnable256 w) (dataIndex n address)
    (dataIn l.writeReadSel cachelineIn memWdata256 w) (a.data w)

end Outputs

/-- The arrays after reset; the data arrays have none. -/
def Arrays.reset (data : Fin 4 → BitVec 3 → Line) : Arrays n where
  tags _ _ := 0#(27 - n)
  valid _ _ := false
  dirty _ _ := false
  plru _ := 0#3
  data := data

/-- `mem_wdata256`, the word repeated eight times. -/
def memWdata256 (memWdata : Word) : Line := BitVec.replicate 8 memWdata

theorem getElem_memWdata256 (memWdata : Word) (j : Nat) (hj : j < 256) :
    (memWdata256 memWdata)[j] = memWdata.getLsbD (j % 32) := by
  have bit := BitVec.getElem_replicate (x := memWdata) (n := 8) hj
  rw [dif_neg (by decide)] at bit
  exact bit

/-- `mem_rdata`, the word of the line that `address[4:2]` selects. -/
def memRdata (memRdata256 : Line) (address : Word) : Word :=
  memRdata256.extractLsb' (32 * (address.extractLsb' 2 3).toNat) 32

def memByteEnable256 (memByteEnable : BitVec 4) (address : Word) : BitVec 32 :=
  memByteEnable.setWidth 32 <<< ((address.extractLsb' 2 3).toNat * 4)

end Mp4.Memory.FourWay.Datapath
