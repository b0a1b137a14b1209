import Mp4.Memory.Address
import Mp4.Memory.Arrays

/-!
The storage of `modular_cache` and the combinational part of `modular_cache_datapath`.
Every array shows its word one clock late, in a register of its own. The ways `1..8` of
the source are `0..7` here; the `read` inputs are tied to one.
-/

set_option autoImplicit false
set_option relaxedAutoImplicit false

namespace Mp4.Memory.EightWay.Datapath

open Mp4.Memory.Address Mp4.Memory.Arrays

variable {n : Nat}

/-- The contents of the arrays. The tag arrays are 24 bits wide and the data arrays have
8 sets, whatever the index width. -/
structure Arrays (n : Nat) where
  tags : Fin 8 → BitVec n → BitVec 24
  valid : Fin 8 → BitVec n → Bool
  dirty : Fin 8 → BitVec n → Bool
  plru : BitVec n → BitVec 7
  data : Fin 8 → BitVec 3 → Line

structure Outs where
  tags : Fin 8 → BitVec 24
  valid : Fin 8 → Bool
  dirty : Fin 8 → Bool
  plru : BitVec 7
  data : Fin 8 → Line

structure Loads where
  dirtyIn : Fin 8 → Bool
  dirtyLoad : Fin 8 → Bool
  validIn : Fin 8 → Bool
  validLoad : Fin 8 → Bool
  tagArrayLoad : Fin 8 → Bool
  writeSelWay : Fin 8 → Bool
  writeReadSel : Fin 8 → Bool
  lruLoad : Bool
  lruIn : BitVec 7

/-- `data_in_*`. -/
def dataIn (writeReadSel : Fin 8 → Bool) (cachelineIn memWdata256 : Line) (w : Fin 8) : Line :=
  if writeReadSel w then memWdata256 else cachelineIn

/-- `tag_array*_out`. -/
def tagArrayOut (n : Nat) (o : Outs) (w : Fin 8) : BitVec (27 - n) := (o.tags w).setWidth (27 - n)

/-- `hit*`. -/
def hit (n : Nat) (o : Outs) (address : Word) (w : Fin 8) : Bool :=
  tag n address == tagArrayOut n o w && o.valid w

/-- `new_address`; `tag_out` is 24 bits wide. -/
def newAddress (n : Nat) (address : Word) (newAddressSel : Bool) (tagOut : BitVec 24) : Word :=
  if newAddressSel then (tagOut ++ index n address ++ 0#5).setWidth 32
  else lineAddr address ++ 0#5

section Edge

variable (a : Arrays n) (address : Word) (l : Loads) (cachelineIn memWdata256 : Line)

def Arrays.next : Arrays n where
  tags w := arrayNext (l.tagArrayLoad w) (index n address) ((tag n address).setWidth 24) (a.tags w)
  valid w := arrayNext (l.validLoad w) (index n address) (l.validIn w) (a.valid w)
  dirty w := arrayNext (l.dirtyLoad w) (index n address) (l.dirtyIn w) (a.dirty w)
  plru := arrayNext l.lruLoad (index n address) l.lruIn a.plru
  data w := arrayNext (l.writeSelWay w) (dataIndex n address)
    (dataIn l.writeReadSel cachelineIn memWdata256 w) (a.data w)

def Outs.next : Outs where
  tags w := array (l.tagArrayLoad w) (index n address) (index n address)
    ((tag n address).setWidth 24) (a.tags w)
  valid w := array (l.validLoad w) (index n address) (index n address) (l.validIn w) (a.valid w)
  dirty w := array (l.dirtyLoad w) (index n address) (index n address) (l.dirtyIn w) (a.dirty w)
  plru := array l.lruLoad (index n address) (index n address) l.lruIn a.plru
  data w := array (l.writeSelWay w) (dataIndex n address) (dataIndex n address)
    (dataIn l.writeReadSel cachelineIn memWdata256 w) (a.data w)

end Edge

/-- The arrays after reset; the data arrays have none. -/
def Arrays.reset (data : Fin 8 → BitVec 3 → Line) : Arrays n where
  tags _ _ := 0#24
  valid _ _ := false
  dirty _ _ := false
  plru _ := 0#7
  data := data

def Arrays.shown (a : Arrays n) (address : Word) : Outs where
  tags w := a.tags w (index n address)
  valid w := a.valid w (index n address)
  dirty w := a.dirty w (index n address)
  plru := a.plru (index n address)
  data w := a.data w (dataIndex n address)

theorem outs_next_eq_shown (a : Arrays n) (address : Word) (l : Loads)
    (cachelineIn memWdata256 : Line) :
    Outs.next a address l cachelineIn memWdata256 =
      (a.next address l cachelineIn memWdata256).shown address := by
  simp only [Outs.next, Arrays.shown, Arrays.next, array_eq_next]

end Mp4.Memory.EightWay.Datapath
