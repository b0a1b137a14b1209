import Mp4.Cpu.PipelineRegs

/-!
The memory stage with its branch checker `static_nt_predictor`, and the
write-back stage.
-/

set_option autoImplicit false
set_option relaxedAutoImplicit false

namespace Mp4.Cpu.MemStage

open Mp4.Cpu.Rv32iTypes Mp4.Cpu.PipelineRegs

structure Checker where
  mispredicted : Bool
  flush : Bool
  updateBrPredTaken : Bool
  deriving DecidableEq, Repr

/-- `static_nt_predictor`; on `jal` and `jalr` only `flush` is assigned. -/
def staticNtPredictor (held : Checker) (cmpOut : Bool) (opcode : Rv32iOpcode)
    (brPredTaken : Bool) : Checker :=
  if opcode = opJal ∨ opcode = opJalr then { held with flush := true }
  else if opcode = opBr then
    if cmpOut then
      if brPredTaken then
        { flush := false, updateBrPredTaken := true, mispredicted := false }
      else { flush := true, updateBrPredTaken := true, mispredicted := false }
    else if brPredTaken then
      { flush := true, updateBrPredTaken := false, mispredicted := true }
    else { flush := false, updateBrPredTaken := false, mispredicted := false }
  else { flush := false, updateBrPredTaken := false, mispredicted := false }

/-- `forwarding_val_out`: the value EX/MEM will write, zero while it is a load. -/
def forwardingVal (q : ExMem) : Rv32iWord :=
  match q.cntrlWord.regfilemuxSel with
  | .aluOut => q.aluVal
  | .brEn => 0#31 ++ BitVec.ofBool q.cmpVal
  | .uImm => q.uImm
  | .pcPlus4 => q.regPc + 4#32
  | _ => 0#32

/-- `mem_byte_enable`; it keeps its `held` value unless a store kind assigns it. -/
def memByteEnable (held : BitVec 4) (q : ExMem) : BitVec 4 :=
  if q.opcode = opStore then
    if q.funct3 = sw then 0b1111#4
    else if q.funct3 = sh then
      BitVec.ofBool (q.aluVal.getLsbD 1) ++ BitVec.ofBool (q.aluVal.getLsbD 1) ++
        BitVec.ofBool (!q.aluVal.getLsbD 1) ++ BitVec.ofBool (!q.aluVal.getLsbD 1)
    else if q.funct3 = sb then
      if q.aluVal.extractLsb' 0 2 = 0b00#2 then 0b0001#4
      else if q.aluVal.extractLsb' 0 2 = 0b01#2 then 0b0010#4
      else if q.aluVal.extractLsb' 0 2 = 0b10#2 then 0b0100#4
      else 0b1000#4
    else held
  else held

/-- `wdata_out`: the cachemux value, overridden for every store kind by the rearranger. -/
def wdataOut (sel : CachemuxSel) (rDataMemWb : Rv32iWord) (q : ExMem) : Rv32iWord :=
  let selected := match sel with
    | .rDataMemWb => rDataMemWb
    | .rs2OutExMem => q.reg2
  if q.opcode = opStore then
    if q.funct3 = sw then q.reg2
    else if q.funct3 = sh then
      if q.aluVal.getLsbD 1 then q.reg2.extractLsb' 0 16 ++ 0#16
      else 0#16 ++ q.reg2.extractLsb' 0 16
    else if q.funct3 = sb then
      if q.aluVal.extractLsb' 0 2 = 0b00#2 then 0#24 ++ q.reg2.extractLsb' 0 8
      else if q.aluVal.extractLsb' 0 2 = 0b01#2 then 0#16 ++ q.reg2.extractLsb' 0 8 ++ 0#8
      else if q.aluVal.extractLsb' 0 2 = 0b10#2 then 0#8 ++ q.reg2.extractLsb' 0 8 ++ 0#16
      else q.reg2.extractLsb' 0 8 ++ 0#24
    else selected
  else selected

def memStage (q : ExMem) (rData : Rv32iWord) : MemWb where
  uImm := q.uImm
  regDest := q.regDest
  regPc := q.regPc
  aluVal := q.aluVal
  cmpVal := q.cmpVal
  cntrlWord := q.cntrlWord
  rData := rData
  opcode := q.opcode

def byteLane (rdata : Rv32iWord) (lsb : BitVec 2) : BitVec 8 :=
  if lsb = 0b00#2 then rdata.extractLsb' 0 8
  else if lsb = 0b01#2 then rdata.extractLsb' 8 8
  else if lsb = 0b10#2 then rdata.extractLsb' 16 8
  else rdata.extractLsb' 24 8

def halfLane (rdata : Rv32iWord) (upper : Bool) : BitVec 16 :=
  if upper then rdata.extractLsb' 16 16 else rdata.extractLsb' 0 16

/-- `regfilemux_out` of `writeback_stage`. -/
def regfilemuxOut (q : MemWb) : Rv32iWord :=
  let lsb := q.aluVal.extractLsb' 0 2
  match q.cntrlWord.regfilemuxSel with
  | .aluOut => q.aluVal
  | .brEn => 0#31 ++ BitVec.ofBool q.cmpVal
  | .uImm => q.uImm
  | .lw => q.rData
  | .pcPlus4 => q.regPc + 4#32
  | .lb => (byteLane q.rData lsb).signExtend 32
  | .lbu => (byteLane q.rData lsb).setWidth 32
  | .lh => (halfLane q.rData (q.aluVal.getLsbD 1)).signExtend 32
  | .lhu => (halfLane q.rData (q.aluVal.getLsbD 1)).setWidth 32

end Mp4.Cpu.MemStage
