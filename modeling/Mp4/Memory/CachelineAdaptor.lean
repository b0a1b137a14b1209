import Mp4.Lib.Bits
import Mp4.Memory.Address

/-!
`cacheline_adaptor` with its state machine `f_s_m`: a line is moved to or from the memory
in four bursts of 64 bits. The states `R1..R4` and `W1..W4` are `r 0..r 3` and `w 0..w 3`.
-/

set_option autoImplicit false
set_option relaxedAutoImplicit false

namespace Mp4.Memory.CachelineAdaptor

open Mp4.Lib.Bits Mp4.Memory.Address

inductive State
  | reset
  | r (beat : Fin 4)
  | w (beat : Fin 4)
  | finished
  deriving DecidableEq, Repr

/-- The next state of `f_s_m`. -/
def nextState (state : State) (readI writeI respI : Bool) : State :=
  match state with
  | .reset =>
      if readI && writeI then .reset
      else if readI then .r 0
      else if writeI then .w 0
      else .reset
  | .r beat => if respI then (if beat = 3 then .finished else .r (beat + 1)) else .r beat
  | .w beat => if respI then (if beat = 3 then .finished else .w (beat + 1)) else .w beat
  | .finished => .reset

/-- `read_o`; `read_signal` is raised along with it. -/
def readO : State → Bool
  | .r _ => true
  | _ => false

/-- `write_o`. -/
def writeO : State → Bool
  | .w _ => true
  | _ => false

/-- `resp_o`. -/
def respO (state : State) : Bool := state == .finished

/-- `out`, which loads the address register. -/
def out (state : State) : Bool := state == .reset

/-- `write_mux`, which is held outside the states `W1..W4`. -/
def writeMux (held : Fin 4) : State → Fin 4
  | .w beat => beat
  | _ => held

structure Inputs where
  lineI : Line
  addressI : Word
  readI : Bool
  writeI : Bool
  burstI : BitVec 64
  respI : Bool

/-- The registers of the adaptor, and what its latches hold. -/
structure Adaptor where
  state : State
  valueRead : Line
  writeMux : Fin 4
  addressO : Word

namespace Adaptor

variable (a : Adaptor) (i : Inputs)

/-- `line_o`. The latch `value_read` is open on the slice that `read_mux` selects. -/
def lineO : Line :=
  match a.state with
  | .r beat => setSlice a.valueRead beat.val i.burstI
  | _ => a.valueRead

/-- `burst_o`. -/
def burstO : BitVec 64 :=
  slice 64 i.lineI (CachelineAdaptor.writeMux a.writeMux a.state).val

/-- One clock edge. -/
def next (i : Inputs) (a : Adaptor) : Adaptor where
  state := nextState a.state i.readI i.writeI i.respI
  valueRead := a.lineO i
  writeMux := CachelineAdaptor.writeMux a.writeMux a.state
  addressO := if out a.state then i.addressI else a.addressO

/-- The adaptor after reset, which leaves the latches and the address alone. -/
def afterReset (valueRead : Line) (writeMux : Fin 4) (addressO : Word) : Adaptor :=
  ⟨.reset, valueRead, writeMux, addressO⟩

end Adaptor

end Mp4.Memory.CachelineAdaptor
