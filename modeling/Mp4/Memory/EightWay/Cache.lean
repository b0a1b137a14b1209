import Mp4.Lib.Bits
import Mp4.Memory.EightWay.Datapath

/-!
`modular_cache_control` and its composition with the datapath to `modular_cache`, the
8-way cache of whole lines. State hit acts on the registered outputs of the arrays and
does not look at the request's kind before it answers.
-/

set_option autoImplicit false
set_option relaxedAutoImplicit false

namespace Mp4.Memory.EightWay.Cache

open Mp4.Lib.Bits Mp4.Memory.Address Mp4.Memory.EightWay.Datapath

variable {n : Nat}

inductive State
  | stall | hit | missClean | missDirty
  deriving DecidableEq, Repr

/-- `which_replace`; `which_tag` is assigned along with it. -/
def whichReplace (plru : BitVec 7) : Fin 8 :=
  let temp := ~~~plru
  if temp.getLsbD 3 then
    if temp.getLsbD 5 then (if temp.getLsbD 6 then 7 else 6)
    else (if temp.getLsbD 4 then 5 else 4)
  else
    if temp.getLsbD 1 then (if temp.getLsbD 2 then 3 else 2)
    else (if temp.getLsbD 0 then 1 else 0)

/-- `load_PLRU`. -/
def loadPlru (lruOut : BitVec 7) (h : Fin 8 → Bool) : BitVec 7 :=
  if h 0 then setBit (setBit (setBit lruOut 3 false) 1 false) 0 false
  else if h 1 then setBit (setBit (setBit lruOut 3 false) 1 false) 0 true
  else if h 2 then setBit (setBit (setBit lruOut 3 false) 1 true) 2 false
  else if h 3 then setBit (setBit (setBit lruOut 3 false) 1 true) 2 true
  else if h 4 then setBit (setBit (setBit lruOut 3 true) 5 false) 4 false
  else if h 5 then setBit (setBit (setBit lruOut 3 true) 5 false) 4 true
  else if h 6 then setBit (setBit (setBit lruOut 3 true) 5 true) 6 false
  else if h 7 then setBit (setBit (setBit lruOut 3 true) 5 true) 6 true
  else lruOut

def hitCheck (h : Fin 8 → Bool) : Bool :=
  h 0 || h 1 || h 2 || h 3 || h 4 || h 5 || h 6 || h 7

/-- The way that the chain `if (hit1) ... else if (hit8)` acts on. -/
def hitWay (h : Fin 8 → Bool) : Fin 8 :=
  if h 0 then 0 else if h 1 then 1 else if h 2 then 2 else if h 3 then 3
  else if h 4 then 4 else if h 5 then 5 else if h 6 then 6 else 7

section Control

variable (state : State) (read write : Bool) (h : Fin 8 → Bool) (replace : Fin 8)

/-- `tag_array*_load`; `valid_*_load` and `valid_*_in` are set along with it. -/
def tagArrayLoad (w : Fin 8) : Bool :=
  state == .missClean && (read || write) && w == replace

def done : Bool := state == .hit && hitCheck h

/-- A write that hits way `w`. -/
def writesWay (w : Fin 8) : Bool :=
  done state h && !read && write && w == hitWay h

/-- `Dirty*_in`, in the cycles that load it; it is a latch in the others. -/
def dirtyIn (w : Fin 8) : Bool := writesWay state read write h w

def dirtyLoad (w : Fin 8) : Bool :=
  writesWay state read write h w || state == .missDirty && w == replace

def writeReadSel (w : Fin 8) : Bool := writesWay state read write h w

def writeSelWay (w : Fin 8) : Bool :=
  writesWay state read write h w || tagArrayLoad state read write replace w

def cachelineSel : Fin 8 :=
  match state with
  | .stall => 0
  | .hit => if done state h && (read || write) then hitWay h else 0
  | .missClean => if read || write then replace else 0
  | .missDirty => replace

def pmemRead : Bool := state == .missClean

def pmemWrite : Bool := state == .missDirty

/-- `new_address_sel`. -/
def newAddressSel : Bool := state == .missDirty

def nextState (dirty memRespCache : Bool) : State :=
  match state with
  | .stall => if read || write then .hit else .stall
  | .hit => if hitCheck h then .stall else if dirty then .missDirty else .missClean
  | .missDirty => if memRespCache then .missClean else .missDirty
  | .missClean => if memRespCache then .hit else .missClean

end Control

structure Request where
  read : Bool
  write : Bool
  address : Word
  wdata : Line
  deriving DecidableEq

def Request.active (r : Request) : Bool := r.read || r.write

structure ModularCache (n : Nat) where
  state : State
  arrays : Arrays n
  outs : Outs

namespace ModularCache

variable (c : ModularCache n) (r : Request)

/-- `replace_which_way`. -/
def replace : Fin 8 := whichReplace c.outs.plru

def hits (w : Fin 8) : Bool := hit n c.outs r.address w

def installs (w : Fin 8) : Bool := tagArrayLoad c.state r.read r.write c.replace w

def loads : Loads where
  dirtyIn := dirtyIn c.state r.read r.write (c.hits r)
  dirtyLoad := dirtyLoad c.state r.read r.write (c.hits r) c.replace
  validIn := c.installs r
  validLoad := c.installs r
  tagArrayLoad := c.installs r
  writeSelWay := writeSelWay c.state r.read r.write (c.hits r) c.replace
  writeReadSel := writeReadSel c.state r.read r.write (c.hits r)
  lruLoad := done c.state (c.hits r)
  lruIn := if done c.state (c.hits r) then loadPlru c.outs.plru (c.hits r) else 0#7

/-- `dirty`, by `which_dirty`. -/
def victimDirty : Bool := c.outs.dirty c.replace

def memResp : Bool := done c.state (c.hits r)

/-- `cacheline_out`, which is `mem_rdata` and `pmem_wdata`. -/
def cachelineOut : Line :=
  c.outs.data (cachelineSel c.state r.read r.write (c.hits r) c.replace)

def pmemAddress : Word :=
  newAddress n r.address (newAddressSel c.state) ((tagArrayOut n c.outs c.replace).setWidth 24)

def next (r : Request) (pmemResp : Bool) (pmemRdata : Line) (c : ModularCache n) :
    ModularCache n where
  state := nextState c.state r.read r.write (c.hits r) c.victimDirty pmemResp
  arrays := c.arrays.next r.address (c.loads r) pmemRdata r.wdata
  outs := Outs.next c.arrays r.address (c.loads r) pmemRdata r.wdata

/-- The cache after reset, which leaves the output registers alone. -/
def reset (data : Fin 8 → BitVec 3 → Line) (outs : Outs) : ModularCache n where
  state := .stall
  arrays := .reset data
  outs := outs

end ModularCache

end Mp4.Memory.EightWay.Cache
