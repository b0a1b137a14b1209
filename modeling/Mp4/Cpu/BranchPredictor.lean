import Mathlib.Logic.Function.Basic
import Mp4.Cpu.Rv32iTypes

/-!
The branch predictors `global_br_pred` and `local_br_pred`, the chooser `meta_pred` and their
composition `br_pred_blkbox`. Each combinational block leaves its output unassigned on some
inputs, where it keeps the `held` value.
-/

set_option autoImplicit false
set_option relaxedAutoImplicit false

namespace Mp4.Cpu.BranchPredictor

open Mp4.Cpu.Rv32iTypes

inductive PatternState
  | stronglyTaken | weaklyTaken | weaklyNotTaken | stronglyNotTaken
  deriving DecidableEq, Repr

def PatternState.isTaken : PatternState → Bool
  | .stronglyTaken | .weaklyTaken => true
  | .weaklyNotTaken | .stronglyNotTaken => false

/-- `updated_pstate`; a taken branch moves `STRONGLY_NOT_TAKEN` to `WEAKLY_TAKEN` at once. -/
def PatternState.updated (taken : Bool) : PatternState → PatternState
  | .stronglyTaken => if taken then .stronglyTaken else .weaklyTaken
  | .weaklyTaken => if taken then .stronglyTaken else .weaklyNotTaken
  | .weaklyNotTaken => if taken then .weaklyTaken else .stronglyNotTaken
  | .stronglyNotTaken => if taken then .weaklyTaken else .stronglyNotTaken

structure PredictorIn where
  rst : Bool
  read : Bool
  load : Bool
  stall : Bool
  taken : Bool
  pcIn : Rv32iWord
  pcMemStage : Rv32iWord

/-- `global_br_pred`; the history register is exclusive-ored with the address. -/
structure GlobalBrPred where
  ghrData : BitVec 10
  patternStates : BitVec 10 → PatternState
  heldFlush : Bool

namespace GlobalBrPred

def phtIndex (g : GlobalBrPred) (pc : Rv32iWord) : BitVec 10 := pc.extractLsb' 0 10 ^^^ g.ghrData

/-- `flush`; the `if`s of the source in order, a later one overriding an earlier one. -/
def flush (i : PredictorIn) (g : GlobalBrPred) : Bool :=
  if i.load then false
  else if i.read && !i.stall then (g.patternStates (g.phtIndex i.pcIn)).isTaken
  else if !i.read && !i.stall then false
  else if i.rst then false
  else g.heldFlush

def next (i : PredictorIn) (g : GlobalBrPred) : GlobalBrPred :=
  let index := g.phtIndex i.pcMemStage
  { ghrData :=
      if i.rst then 0#10
      else if i.stall then g.ghrData
      else if i.load then g.ghrData <<< 1 ||| (BitVec.ofBool i.taken).setWidth 10
      else g.ghrData
    patternStates :=
      if i.rst then fun _ => .weaklyNotTaken
      else if i.stall then g.patternStates
      else if i.load then
        Function.update g.patternStates index ((g.patternStates index).updated i.taken)
      else g.patternStates
    heldFlush := g.flush i }

end GlobalBrPred

/-- `local_br_pred`. The eight history registers are indexed by eight address bits. -/
structure LocalBrPred where
  localHistRegisters : BitVec 3 → BitVec 12
  patternStates : BitVec 12 → PatternState
  heldFlush : Bool

namespace LocalBrPred

/-- `local_hist_registers[lhr_index]`; an index beyond the registers reads nothing. -/
def phtIndex (l : LocalBrPred) (pc : Rv32iWord) : Option (BitVec 12) :=
  if pc.extractLsb' 3 5 = 0#5 then some (l.localHistRegisters (pc.extractLsb' 0 3)) else none

/-- `flush`; a lookup that reads nothing matches no case item. -/
def flush (i : PredictorIn) (l : LocalBrPred) : Bool :=
  let kept := if !i.read && !i.stall then false else if i.rst then false else l.heldFlush
  if i.read then
    match l.phtIndex i.pcIn with
    | some index => (l.patternStates index).isTaken
    | none => kept
  else kept

def next (i : PredictorIn) (l : LocalBrPred) : LocalBrPred :=
  let lhrIndex : BitVec 3 := i.pcMemStage.extractLsb' 0 3
  { localHistRegisters :=
      if i.rst then fun _ => 0#12
      else if i.stall then l.localHistRegisters
      else if i.load then
        match l.phtIndex i.pcMemStage with
        | some history =>
            Function.update l.localHistRegisters lhrIndex
              (history <<< 1 ||| (BitVec.ofBool i.taken).setWidth 12)
        | none => l.localHistRegisters
      else l.localHistRegisters
    patternStates :=
      if i.rst then fun _ => .weaklyNotTaken
      else if i.stall then l.patternStates
      else if i.load then
        match l.phtIndex i.pcMemStage with
        | some index =>
            Function.update l.patternStates index ((l.patternStates index).updated i.taken)
        | none => l.patternStates
      else l.patternStates
    heldFlush := l.flush i }

end LocalBrPred

/-- `meta_pred`. Its `load` branch stands behind `if (~read) .. else if (read)` and is never
taken, so the index comes from lookups and `updated_pstate` keeps its first value. -/
structure MetaPred where
  patternStates : BitVec 10 → PatternState
  heldPhtIndex : BitVec 10
  updatedPstate : PatternState
  heldBrPredSel : Bool

namespace MetaPred

def phtIndex (i : PredictorIn) (m : MetaPred) : BitVec 10 :=
  if i.read then i.pcIn.extractLsb' 0 10 else m.heldPhtIndex

/-- `br_pred_sel`: one for the local predictor. -/
def brPredSel (i : PredictorIn) (m : MetaPred) : Bool :=
  if i.read then (m.patternStates (i.pcIn.extractLsb' 0 10)).isTaken
  else if !i.stall then false
  else if i.rst then false
  else m.heldBrPredSel

def next (i : PredictorIn) (m : MetaPred) : MetaPred where
  patternStates :=
    if i.rst then fun _ => .weaklyNotTaken
    else if i.stall then m.patternStates
    else if i.load then Function.update m.patternStates (m.phtIndex i) m.updatedPstate
    else m.patternStates
  heldPhtIndex := m.phtIndex i
  updatedPstate := m.updatedPstate
  heldBrPredSel := m.brPredSel i

end MetaPred

/-- `br_pred_blkbox`. -/
structure BrPredBlkbox where
  globalPred : GlobalBrPred
  localPred : LocalBrPred
  metaPred : MetaPred

namespace BrPredBlkbox

/-- `flush`, which `instr_fetch` takes for `br_pred_taken`. -/
def flush (i : PredictorIn) (p : BrPredBlkbox) : Bool :=
  if p.metaPred.brPredSel i then p.localPred.flush i else p.globalPred.flush i

def next (i : PredictorIn) (p : BrPredBlkbox) : BrPredBlkbox where
  globalPred := p.globalPred.next i
  localPred := p.localPred.next i
  metaPred := p.metaPred.next i

theorem flush_of_no_read (i : PredictorIn) (p : BrPredBlkbox) (noRead : i.read = false)
    (moving : i.stall = false) : p.flush i = false := by
  have global : p.globalPred.flush i = false := by
    simp [GlobalBrPred.flush, noRead, moving]
  have local' : p.localPred.flush i = false := by
    simp [LocalBrPred.flush, noRead, moving]
  rw [flush, global, local', ite_self]

end BrPredBlkbox

end Mp4.Cpu.BranchPredictor
