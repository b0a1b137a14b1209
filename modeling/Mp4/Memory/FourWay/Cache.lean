import Mp4.Memory.FourWay.Datapath

/-!
`cache_cntrl_4` and its composition with the datapath and the bus adapter to
`cache_4_way`. The controller's outputs are one definition each, in terms of the state,
the request, the hits and the way to replace.
-/

set_option autoImplicit false
set_option relaxedAutoImplicit false

namespace Mp4.Memory.FourWay.Cache

open Mp4.Lib.Bits Mp4.Memory.Address Mp4.Memory.FourWay.Datapath

variable {n : Nat}

inductive State
  | hit | missClean | missDirty
  deriving DecidableEq, Repr

/-- `which_replace`; `which_tag` is assigned along with it. -/
def whichReplace (plru : BitVec 3) : Fin 4 :=
  let temp := ~~~plru
  if temp.getLsbD 1 then (if temp.getLsbD 2 then 3 else 2)
  else (if temp.getLsbD 0 then 1 else 0)

/-- `load_PLRU`; a later `if` works on what an earlier one assigned. -/
def loadPlru (lruOut : BitVec 3) (h : Fin 4 → Bool) : BitVec 3 :=
  let l := lruOut
  let l := if h 0 then setBit (setBit l 1 false) 0 false else l
  let l := if h 1 then setBit (setBit l 1 false) 0 true else l
  let l := if h 2 then setBit (setBit l 1 true) 2 false else l
  if h 3 then setBit (setBit l 1 true) 2 true else l

def hitCheck (h : Fin 4 → Bool) : Bool := h 0 || h 1 || h 2 || h 3

/-- The way that the chain `if(hit1) ... else if(hit4)` acts on. -/
def hitWay (h : Fin 4 → Bool) : Fin 4 :=
  if h 0 then 0 else if h 1 then 1 else if h 2 then 2 else 3

section Control

variable (state : State) (read write : Bool) (h : Fin 4 → Bool) (replace : Fin 4)

/-- `tag_array*_load`; `valid_*_load` and `valid_*_in` are set along with it. -/
def tagArrayLoad (w : Fin 4) : Bool :=
  state == .missClean && (read || write) && w == replace

def done : Bool := state == .hit && (read || write) && hitCheck h

def writesWay (w : Fin 4) : Bool :=
  done state read write h && !read && write && w == hitWay h

/-- `Dirty*_in`, in the cycles that load it; it is a latch in the others. -/
def dirtyIn (w : Fin 4) : Bool := writesWay state read write h w

def dirtyLoad (w : Fin 4) : Bool :=
  writesWay state read write h w || state == .missDirty && w == replace

def writeReadSel (w : Fin 4) : Bool := writesWay state read write h w

def writeSelWay (w : Fin 4) : BitVec 2 :=
  if writesWay state read write h w then 0b10#2
  else if tagArrayLoad state read write replace w then 0b01#2
  else 0b00#2

def cachelineSel : Fin 4 :=
  match state with
  | .hit => if done state read write h then hitWay h else 0
  | .missClean => if read || write then replace else 0
  | .missDirty => replace

def pmemRead : Bool := state == .missClean

def pmemWrite : Bool := state == .missDirty

/-- `new_address_sel`. -/
def newAddressSel : Bool := state == .missDirty

def nextState (dirty memRespCache : Bool) : State :=
  match state with
  | .hit =>
      if read || write then
        if hitCheck h then .hit else if dirty then .missDirty else .missClean
      else .hit
  | .missDirty => if memRespCache then .missClean else .missDirty
  | .missClean => if memRespCache then .hit else .missClean

end Control

structure Request where
  read : Bool
  write : Bool
  address : Word
  wdata : Word
  byteEnable : BitVec 4
  deriving DecidableEq

def Request.active (r : Request) : Bool := r.read || r.write

structure Cache4Way (n : Nat) where
  state : State
  arrays : Arrays n

namespace Cache4Way

variable (c : Cache4Way n) (r : Request)

/-- `replace_which_way`. Where it is used `LRU_load` is low, so the PLRU array shows
its stored bits. -/
def replace : Fin 4 := whichReplace (c.arrays.plru (index n r.address))

def installs (w : Fin 4) : Bool := tagArrayLoad c.state r.read r.write (c.replace r) w

def hits (w : Fin 4) : Bool :=
  hit c.arrays r.address (c.installs r) (c.installs r) (c.installs r) w

def loads (lruOut : BitVec 3) : Loads where
  dirtyIn := dirtyIn c.state r.read r.write (c.hits r)
  dirtyLoad := dirtyLoad c.state r.read r.write (c.hits r) (c.replace r)
  validIn := c.installs r
  validLoad := c.installs r
  tagArrayLoad := c.installs r
  writeSelWay := writeSelWay c.state r.read r.write (c.hits r) (c.replace r)
  writeReadSel := writeReadSel c.state r.read r.write (c.hits r)
  lruLoad := done c.state r.read r.write (c.hits r)
  lruIn := loadPlru lruOut (c.hits r)

/-- `dirty`, the dirty bit of the way to replace. -/
def victimDirty : Bool :=
  dirtyOut c.arrays r.address (dirtyLoad c.state r.read r.write (c.hits r) (c.replace r))
    (dirtyIn c.state r.read r.write (c.hits r)) (c.replace r)

def memResp : Bool := done c.state r.read r.write (c.hits r)

/-- `cacheline_out`; the data arrays see what is written in the same cycle. -/
def cachelineOut (pmemRdata : Line) : Line :=
  cacheLineDataOut c.arrays r.address (c.loads r 0#3) pmemRdata (memWdata256 r.wdata)
    (memByteEnable256 r.byteEnable r.address)
    (cachelineSel c.state r.read r.write (c.hits r) (c.replace r))

def memRdata (pmemRdata : Line) : Word :=
  Datapath.memRdata (c.cachelineOut r pmemRdata) r.address

def pmemAddress : Word :=
  newAddress r.address (newAddressSel c.state)
    (tagArrayOut c.arrays r.address (c.installs r) (c.replace r))

/-- One clock edge. On a hit `LRU_out` is fed by its own load: `lruOut` is the value it
settles on. -/
def next (r : Request) (pmemResp : Bool) (pmemRdata : Line) (lruOut : BitVec 3) (c : Cache4Way n) :
    Cache4Way n where
  state := nextState c.state r.read r.write (c.hits r) (c.victimDirty r) pmemResp
  arrays := c.arrays.next r.address (c.loads r lruOut) pmemRdata (memWdata256 r.wdata)
    (memByteEnable256 r.byteEnable r.address)

def reset (data : Fin 4 → BitVec 3 → Line) : Cache4Way n where
  state := .hit
  arrays := .reset data

end Cache4Way

end Mp4.Memory.FourWay.Cache
