import Mp4.Memory.Address

/-!
`arbiter`: the state machine that grants the next memory level to the instruction or to
the data cache.
-/

set_option autoImplicit false
set_option relaxedAutoImplicit false

namespace Mp4.Memory.Arbiter

open Mp4.Memory.Address

inductive State
  | idle | iCacheAllow | dCacheAllow
  deriving DecidableEq, Repr

structure Inputs where
  iCacheRead : Bool
  iCacheAddress : Word
  dCacheRead : Bool
  dCacheWrite : Bool
  dCacheAddress : Word
  dCacheWdata : Line
  nextLevelArbMemResp : Bool
  nextLevelArbRdata : Line

structure Outputs where
  iCacheMemResp : Bool
  iCacheRdata : Line
  dCacheMemResp : Bool
  dCacheRdata : Line
  arbNextLevelAddress : Word
  arbNextLevelRead : Bool
  arbNextLevelWrite : Bool
  arbNextLevelWdata : Line

/-- `set_defaults`. -/
def Outputs.defaults : Outputs := ⟨false, 0#256, false, 0#256, 0#32, false, false, 0#256⟩

/-- `state_actions`. -/
def outputs (state : State) (i : Inputs) : Outputs :=
  match state with
  | .idle => .defaults
  | .dCacheAllow =>
      let o : Outputs := { Outputs.defaults with arbNextLevelAddress := i.dCacheAddress }
      let o :=
        if i.dCacheRead then { o with arbNextLevelRead := true, arbNextLevelWrite := false }
        else if i.dCacheWrite then
          { o with
            arbNextLevelWrite := true
            arbNextLevelRead := false
            arbNextLevelWdata := i.dCacheWdata }
        else o
      if i.nextLevelArbMemResp then
        { o with dCacheMemResp := true, dCacheRdata := i.nextLevelArbRdata }
      else o
  | .iCacheAllow =>
      let o : Outputs :=
        { Outputs.defaults with
          arbNextLevelAddress := i.iCacheAddress
          arbNextLevelRead := true
          arbNextLevelWrite := false }
      if i.nextLevelArbMemResp then
        { o with iCacheMemResp := true, iCacheRdata := i.nextLevelArbRdata }
      else o

/-- `next_stage_logic`. -/
def nextState (state : State) (i : Inputs) : State :=
  match state with
  | .idle =>
      if i.dCacheRead || i.dCacheWrite then .dCacheAllow
      else if i.iCacheRead then .iCacheAllow
      else .idle
  | .dCacheAllow => if i.nextLevelArbMemResp then .idle else .dCacheAllow
  | .iCacheAllow => if i.nextLevelArbMemResp then .idle else .iCacheAllow

end Mp4.Memory.Arbiter
