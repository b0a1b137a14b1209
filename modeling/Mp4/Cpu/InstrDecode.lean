import Mathlib.Logic.Function.Basic
import Mp4.Cpu.PipelineRegs

/-!
The decode stage: `WordGenerator`, the immediate and register-id extraction of
`instr_decode`, the `regfile` with its transparent read, and the `stall` unit.
-/

set_option autoImplicit false
set_option relaxedAutoImplicit false

namespace Mp4.Cpu.InstrDecode

open Mp4.Cpu.Rv32iTypes Mp4.Cpu.PipelineRegs

/-- The `setControlWord` function; `ctrl.opcode` has its own continuous assignment. -/
def setControlWord (opcode : Rv32iOpcode) (pcmuxSel : PcmuxSel) (cmpop : Funct3)
    (cmpmux2Sel : Cmpmux2Sel) (aluop : AluOps) (alumux1Sel : Alumux1Sel)
    (alumux2Sel : Alumux2Sel) (readMem writeMem writeReg : Bool)
    (regfilemuxSel : RegfilemuxSel) : Rv32iControlWord where
  aluop := aluop
  cmpop := cmpop
  cmpmux2Sel := cmpmux2Sel
  alumux1Sel := alumux1Sel
  alumux2Sel := alumux2Sel
  regfilemuxSel := regfilemuxSel
  pcmuxSel := pcmuxSel
  readMem := readMem
  writeMem := writeMem
  writeReg := writeReg
  opcode := opcode

/-- `WordGenerator`. The case statements leave `ctrl` unassigned on unsupported
words, so it keeps what it `held`; only its opcode field follows the input. -/
def wordGenerator (held : Rv32iControlWord) (opcode : Rv32iOpcode) (funct3 : Funct3)
    (funct7 : BitVec 7) : Rv32iControlWord :=
  let set := setControlWord opcode
  if opcode = opAuipc then
    set .pcPlus4 funct3 .rs2Out .aluAdd .pcOut .uImm false false true .aluOut
  else if opcode = opLui then
    set .pcPlus4 funct3 .rs2Out (.ofBits funct3) .rs1Out .uImm false false true .uImm
  else if opcode = opJal then
    set .aluOut funct3 .rs2Out .aluAdd .pcOut .jImm false false true .pcPlus4
  else if opcode = opJalr then
    set .aluMod2 funct3 .rs2Out .aluAdd .rs1Out .iImm false false true .pcPlus4
  else if opcode = opBr then
    set .cmpOut funct3 .rs2Out .aluAdd .pcOut .bImm false false false .aluOut
  else if opcode = opLoad then
    if funct3 = lb then
      set .pcPlus4 funct3 .rs2Out .aluAdd .rs1Out .iImm true false true .lb
    else if funct3 = lh then
      set .pcPlus4 funct3 .rs2Out .aluAdd .rs1Out .iImm true false true .lh
    else if funct3 = lw then
      set .pcPlus4 funct3 .rs2Out .aluAdd .rs1Out .iImm true false true .lw
    else if funct3 = lbu then
      set .pcPlus4 funct3 .rs2Out .aluAdd .rs1Out .iImm true false true .lbu
    else if funct3 = lhu then
      set .pcPlus4 funct3 .rs2Out .aluAdd .rs1Out .iImm true false true .lhu
    else { held with opcode := opcode }
  else if opcode = opStore then
    set .pcPlus4 funct3 .rs2Out .aluAdd .rs1Out .sImm false true false .aluOut
  else if opcode = opImm then
    if funct3 = slt then
      set .pcPlus4 blt .iImm .aluSll .rs1Out .iImm false false true .brEn
    else if funct3 = sltu then
      set .pcPlus4 bltu .iImm .aluSll .rs1Out .iImm false false true .brEn
    else if funct3 = sr then
      if funct7.getLsbD 5 then
        set .pcPlus4 funct3 .rs2Out .aluSra .rs1Out .iImm false false true .aluOut
      else
        set .pcPlus4 funct3 .rs2Out .aluSrl .rs1Out .iImm false false true .aluOut
    else
      set .pcPlus4 funct3 .rs2Out (.ofBits funct3) .rs1Out .iImm false false true .aluOut
  else if opcode = opReg then
    if funct3 = add then
      if funct7.getLsbD 5 then
        set .pcPlus4 funct3 .rs2Out .aluSub .rs1Out .rs2Out false false true .aluOut
      else
        set .pcPlus4 funct3 .rs2Out .aluAdd .rs1Out .rs2Out false false true .aluOut
    else if funct3 = slt then
      set .pcPlus4 blt .rs2Out .aluSll .rs1Out .rs2Out false false true .brEn
    else if funct3 = sltu then
      set .pcPlus4 bltu .rs2Out .aluSll .rs1Out .rs2Out false false true .brEn
    else if funct3 = sr then
      if funct7.getLsbD 5 then
        set .pcPlus4 funct3 .rs2Out .aluSra .rs1Out .rs2Out false false true .aluOut
      else
        set .pcPlus4 funct3 .rs2Out .aluSrl .rs1Out .rs2Out false false true .aluOut
    else
      set .pcPlus4 funct3 .rs2Out (.ofBits funct3) .rs1Out .rs2Out false false true .aluOut
  else { held with opcode := opcode }

def opcodeOf (instr : Rv32iWord) : Rv32iOpcode := instr.extractLsb' 0 7
def funct3Of (instr : Rv32iWord) : Funct3 := instr.extractLsb' 12 3
def funct7Of (instr : Rv32iWord) : BitVec 7 := instr.extractLsb' 25 7

/-- `{{21{instr[31]}}, instr[30:20]}`. -/
def iImm (instr : Rv32iWord) : Rv32iWord :=
  repl 21 (instr.getLsbD 31) ++ instr.extractLsb' 20 11

/-- `{{21{instr[31]}}, instr[30:25], instr[11:7]}`. -/
def sImm (instr : Rv32iWord) : Rv32iWord :=
  repl 21 (instr.getLsbD 31) ++ instr.extractLsb' 25 6 ++ instr.extractLsb' 7 5

/-- `{{20{instr[31]}}, instr[7], instr[30:25], instr[11:8], 1'b0}`. -/
def bImm (instr : Rv32iWord) : Rv32iWord :=
  repl 20 (instr.getLsbD 31) ++ instr.extractLsb' 7 1 ++
    instr.extractLsb' 25 6 ++ instr.extractLsb' 8 4 ++ 0#1

/-- `{instr[31:12], 12'h000}`. -/
def uImm (instr : Rv32iWord) : Rv32iWord := instr.extractLsb' 12 20 ++ 0#12

/-- `{{12{instr[31]}}, instr[19:12], instr[20], instr[30:21], 1'b0}`. -/
def jImm (instr : Rv32iWord) : Rv32iWord :=
  repl 12 (instr.getLsbD 31) ++ instr.extractLsb' 12 8 ++
    instr.extractLsb' 20 1 ++ instr.extractLsb' 21 10 ++ 0#1

/-- `rs1_id`: zero for the opcodes whose case item does not assign it. -/
def rs1Id (instr : Rv32iWord) : Rv32iReg :=
  let opcode := opcodeOf instr
  if opcode = opJalr ∨ opcode = opLoad ∨ opcode = opImm ∨ opcode = opReg ∨
      opcode = opBr ∨ opcode = opStore then instr.extractLsb' 15 5 else 0#5

/-- `rs2_id`. -/
def rs2Id (instr : Rv32iWord) : Rv32iReg :=
  let opcode := opcodeOf instr
  if opcode = opReg ∨ opcode = opBr ∨ opcode = opStore then
    instr.extractLsb' 20 5 else 0#5

/-- `rd_out`. -/
def rdOut (instr : Rv32iWord) : Rv32iReg :=
  let opcode := opcodeOf instr
  if opcode = opLui ∨ opcode = opAuipc ∨ opcode = opJal ∨ opcode = opJalr ∨
      opcode = opLoad ∨ opcode = opImm ∨ opcode = opReg then
    instr.extractLsb' 7 5 else 0#5

/-- The control word that `instr_decode` gives for a word. -/
def controlWordOut (held : Rv32iControlWord) (instr : Rv32iWord) : Rv32iControlWord :=
  wordGenerator held (opcodeOf instr) (funct3Of instr) (funct7Of instr)

/-- `instr_decode` without its sub-modules `regfile` and `stall`: the inputs of
`id_ex` for the word in IF/ID and the two values read. -/
def instrDecode (held : Rv32iControlWord) (q : IfId) (rs1Data rs2Data : Rv32iWord) : IdEx where
  pcReg := q.pcReg
  reg1 := rs1Data
  reg2 := rs2Data
  regDest := rdOut q.instrMemRdata
  cntrlWord := controlWordOut held q.instrMemRdata
  funct3 := funct3Of q.instrMemRdata
  iImm := iImm q.instrMemRdata
  sImm := sImm q.instrMemRdata
  bImm := bImm q.instrMemRdata
  uImm := uImm q.instrMemRdata
  jImm := jImm q.instrMemRdata
  rs1Id := rs1Id q.instrMemRdata
  rs2Id := rs2Id q.instrMemRdata
  brPred := q.brPredTaken
  brPredPc := q.brPredPc
  opcode := opcodeOf q.instrMemRdata

abbrev Regs := Rv32iReg → Rv32iWord

/-- `src ? data[src] : 0`. -/
def readReg (data : Regs) (src : Rv32iReg) : Rv32iWord := if src = 0#5 then 0#32 else data src

/-- A read port of `regfile`; it tests `dest` but not `load`. -/
def regfileRead (data : Regs) (input : Rv32iWord) (dest src : Rv32iReg) : Rv32iWord :=
  if src = dest ∧ dest ≠ 0#5 then input else readReg data src

/-- The clocked part of `regfile`. -/
def regfileNext (rst load : Bool) (data : Regs) (input : Rv32iWord) (dest : Rv32iReg) : Regs :=
  if rst then fun _ => 0#32
  else if load ∧ dest ≠ 0#5 then Function.update data dest input
  else data

structure Stall where
  pcStall : Bool
  stallIfId : Bool
  stallIdEx : Bool
  stallExMem : Bool
  stallMemWb : Bool
  stallNopIfId : Bool
  stallNopIdEx : Bool
  deriving DecidableEq, Repr

/-- A load in ID/EX whose destination id is a source id in decode. -/
def loadUse (idExRsdId : Rv32iReg) (idExReadMem : Bool) (ifIdRs1Id ifIdRs2Id : Rv32iReg) : Bool :=
  idExReadMem && (idExRsdId == ifIdRs1Id || idExRsdId == ifIdRs2Id)

/-- `stall`. -/
def stall (iCacheMiss dCacheMiss : Bool) (idExRsdId : Rv32iReg) (idExReadMem : Bool)
    (ifIdRs1Id ifIdRs2Id : Rv32iReg) : Stall :=
  if dCacheMiss then ⟨true, true, true, true, true, false, false⟩
  else if iCacheMiss then ⟨true, true, true, true, true, false, false⟩
  else if loadUse idExRsdId idExReadMem ifIdRs1Id ifIdRs2Id then
    ⟨true, true, true, false, false, false, true⟩
  else ⟨false, false, false, false, false, false, false⟩

end Mp4.Cpu.InstrDecode
