import Mp4.Cpu.Rv32iTypes

/-!
The program counter and the next-PC selection of `instr_fetch`. The branch
predictor's answer `br_pred_taken` is an input here.
-/

set_option autoImplicit false
set_option relaxedAutoImplicit false

namespace Mp4.Cpu.InstrFetch

open Mp4.Cpu.Rv32iTypes

def pcRegister (rst load : Bool) (input data : Rv32iWord) : Rv32iWord :=
  if rst then 0x00000060#32 else if load then input else data

/-- The B-immediate as `instr_fetch` extracts it from the fetched word. -/
def fetchBImm (instr : Rv32iWord) : Rv32iWord :=
  repl 20 (instr.getLsbD 31) ++ instr.extractLsb' 7 1 ++
    instr.extractLsb' 25 6 ++ instr.extractLsb' 8 4 ++ 0#1

/-- `br_pred_pc_out`, which keeps its `held` value unless a branch is predicted taken. -/
def brPredPcOut (held pcreg iCacheRdata : Rv32iWord) (brPredTaken : Bool) : Rv32iWord :=
  if brPredTaken ∧ iCacheRdata.extractLsb' 0 7 = 0x63#7 then pcreg + fetchBImm iCacheRdata
  else held

/-- `pcmux_out`, over `{br_pred_taken_temp, checker_taken, pcmux_sel}`. -/
def pcmuxOut (brPredTakenTemp checkerTaken : Bool) (pcmuxSel : PcmuxSel)
    (pcreg aluOutMem brPredPc : Rv32iWord) : Rv32iWord :=
  match brPredTakenTemp, checkerTaken, pcmuxSel with
  | false, false, .pcPlus4 => pcreg + 4#32
  | false, false, .aluOut => aluOutMem
  | false, false, .aluMod2 => aluOutMem.extractLsb' 1 31 ++ 0#1
  | false, false, .cmpOut => pcreg + 4#32
  | false, true, .pcPlus4 => aluOutMem
  | false, true, .aluOut => aluOutMem
  | false, true, .aluMod2 => aluOutMem.extractLsb' 1 31 ++ 0#1
  | false, true, .cmpOut => aluOutMem
  | true, _, _ => brPredPc

/-- `pc_sel_out`: a prediction counts only while the checker redirects nothing,
and a mispredicted branch restarts after its own address. -/
def pcSelOut (brPredTaken checkerTaken checkerMispredicted : Bool) (pcmuxSel : PcmuxSel)
    (pcreg aluOutMem brPredPc mispredictedNewPc : Rv32iWord) : Rv32iWord :=
  let brPredTakenTemp := if checkerTaken then false else brPredTaken
  if checkerMispredicted then mispredictedNewPc + 4#32
  else pcmuxOut brPredTakenTemp checkerTaken pcmuxSel pcreg aluOutMem brPredPc

end Mp4.Cpu.InstrFetch
